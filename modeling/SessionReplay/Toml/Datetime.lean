import SessionReplay.Instant.Rfc3339

/-!
# Dates and times in configuration files

A date, a time of day, or a date with a time of day and perhaps an offset. No setting is a date, so
all that is kept of one is its text in normal form: a capital T between date and time, no more than
nine digits of a fraction and no zeros at its end, an offset in hours and minutes.

A date may stand as it is, or in a text. In a text a day may go on through its hour 24, and an
offset may be cut into hours and minutes in any way as long as it is no longer than a day. Only a
date with a time of day has an offset.
-/

namespace SessionReplay.Toml.Datetime

open Rfc3339 (digits? skip?)

/-- How far the hours of a day and an offset may go. -/
structure Limits where
  /-- The last hour of a day. -/
  lastHour : Nat
  /-- Whether an offset may have so many hours and so many minutes. -/
  isOffset : Nat → Nat → Bool

/-- The limits of a date that stands as it is. -/
def literalLimits : Limits := ⟨23, fun hours minutes ↦ hours < 24 && minutes < 60⟩

/-- The limits of a date in a text. -/
def textLimits : Limits := ⟨24, fun hours minutes ↦ hours * 60 + minutes ≤ 24 * 60⟩

/-- A number in four digits at least. -/
def fourDigits (n : Nat) : List Char := List.replicate (4 - (Nat.toDigits 10 n).length) '0' ++
  Nat.toDigits 10 n

/-- A date, in normal form. -/
def date? (cs : List Char) : Option (List Char × List Char) := do
  let (year, cs) ← digits? 4 cs
  let (month, cs) ← (skip? '-' cs).bind (digits? 2)
  let (day, cs) ← (skip? '-' cs).bind (digits? 2)
  if Calendar.isDate year month day then
    some (fourDigits year ++ '-' :: Decimal.twoDigits month ++ '-' :: Decimal.twoDigits day, cs)
  else none

/-- The fraction of a second, in normal form: nine digits at most, without zeros at the end. -/
def secondFraction (cs : List Char) : List Char × List Char :=
  match cs with
  | '.' :: rest =>
    let ds := rest.takeWhile Char.isDigit
    let kept := ((ds.take 9).reverse.dropWhile (· = '0')).reverse
    if ds = [] then ([], cs) else (if kept = [] then [] else '.' :: kept, rest.drop ds.length)
  | _ => ([], cs)

/-- A time of day, in normal form. -/
def time? (limits : Limits) (cs : List Char) : Option (List Char × List Char) := do
  let (hour, cs) ← digits? 2 cs
  let (minute, cs) ← (skip? ':' cs).bind (digits? 2)
  let (second, cs) ← (skip? ':' cs).bind (digits? 2)
  let (fraction, cs) := secondFraction cs
  if hour ≤ limits.lastHour ∧ minute < 60 ∧ second ≤ 60 then
    some (Decimal.twoDigits hour ++ ':' :: Decimal.twoDigits minute ++ ':' ::
      Decimal.twoDigits second ++ fraction, cs)
  else none

/-- The text of an offset of so many minutes after its sign. No offset is a positive one. -/
def offsetText (sign : Char) (minutes : Nat) : List Char :=
  (if minutes = 0 then '+' else sign) :: Decimal.twoDigits (minutes / 60) ++
    ':' :: Decimal.twoDigits (minutes % 60)

/-- An offset from universal time, in normal form; nothing is an offset too. -/
def offset? (limits : Limits) : List Char → Option (List Char × List Char)
  | c :: cs =>
    if c = 'Z' ∨ c = 'z' then some (['Z'], cs)
    else if c = '+' ∨ c = '-' then do
      let (hours, rest) ← digits? 2 cs
      let (minutes, rest) ← (skip? ':' rest).bind (digits? 2)
      if limits.isOffset hours minutes then some (offsetText c (hours * 60 + minutes), rest)
      else none
    else some ([], c :: cs)
  | [] => some ([], [])

/-- The time of day and the offset after a date, in normal form. -/
def timeAfterDate? (limits : Limits) : List Char → Option (List Char × List Char)
  | c :: cs =>
    if c = 'T' ∨ c = 't' ∨ c = ' ' then do
      let (time, cs) ← time? limits cs
      let (offset, cs) ← offset? limits cs
      some ('T' :: time ++ offset, cs)
    else none
  | [] => none

/-- A date, a time of day, or both, in normal form, and what is left. -/
def within? (limits : Limits) (cs : List Char) : Option (List Char × List Char) :=
  match date? cs with
  | some (date, cs) =>
    match timeAfterDate? limits cs with
    | some (time, cs) => some (date ++ time, cs)
    | none => some (date, cs)
  | none => time? limits cs

/-- A date or time that stands as it is, in normal form, and what is left. -/
def literal? (cs : List Char) : Option (List Char × List Char) := within? literalLimits cs

/-- The date or time that a whole text spells out, in normal form. -/
def ofText? (text : String) : Option String :=
  match within? textLimits text.toList with
  | some (normal, []) => some (String.ofList normal)
  | _ => none

end SessionReplay.Toml.Datetime
