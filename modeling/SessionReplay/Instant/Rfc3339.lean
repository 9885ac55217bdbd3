import SessionReplay.Decimal.Whole
import SessionReplay.Instant.Basic

/-!
# Dates and times in text

The texts of RFC 3339: a date of ten characters, a separator, a time of day with an optional
fraction, and an offset that may not be missing. The separator is a T of either case or a space; the
minus of an offset may be the mathematical one; a second of 60 counts as the start of the next
minute; digits of the fraction beyond the ninth are ignored.

Days are those of the Gregorian calendar, carried back to the year 0 and counted from the start of
1970.
-/

/-! ## The calendar -/

namespace SessionReplay.Calendar

/-- Whether a year has a 29th of February. -/
def isLeap (year : Nat) : Bool := (year % 4 = 0 && year % 100 ≠ 0) || year % 400 = 0

/-- The number of days in a month, counted from 1; no days in a month that is none. -/
def daysInMonth (year month : Nat) : Nat :=
  match month with
  | 1 | 3 | 5 | 7 | 8 | 10 | 12 => 31
  | 4 | 6 | 9 | 11 => 30
  | 2 => if isLeap year then 29 else 28
  | _ => 0

/-- The number of days in the years before a year, from the year 0 on. -/
def daysBeforeYear (year : Nat) : Nat :=
  365 * year + (year + 3) / 4 - (year + 99) / 100 + (year + 399) / 400

/-- The number of days in a year's months before a month. -/
def daysBeforeMonth (year month : Nat) : Nat :=
  (List.range' 1 (month - 1)).foldl (fun days m ↦ days + daysInMonth year m) 0

/-- The number of days from the start of 1970 to a date. -/
def dayNumber (year month day : Nat) : Int :=
  (daysBeforeYear year + daysBeforeMonth year month + day - 1 : Nat) - (daysBeforeYear 1970 : Int)

/-- Whether a date exists. -/
def isDate (year month day : Nat) : Bool := 1 ≤ day && day ≤ daysInMonth year month

end SessionReplay.Calendar

/-! ## Texts -/

namespace SessionReplay.Rfc3339

open Decimal Calendar

/-- The value of exactly so many digits, and what follows them. -/
def digits? (count : Nat) (cs : List Char) : Option (Nat × List Char) :=
  let ds := cs.take count
  if ds.length = count ∧ ds.all Char.isDigit then some (ofDigits ds, cs.drop count) else none

/-- What follows a character that has to stand here. -/
def skip? (c : Char) : List Char → Option (List Char)
  | c' :: cs => if c' = c then some cs else none
  | [] => none

/-- A date, as days since the start of 1970. -/
def date? (cs : List Char) : Option (Int × List Char) := do
  let (year, cs) ← digits? 4 cs
  let (month, cs) ← (skip? '-' cs).bind (digits? 2)
  let (day, cs) ← (skip? '-' cs).bind (digits? 2)
  if isDate year month day then some (dayNumber year month day, cs) else none

/-- The fraction of a second in milliseconds, rounded down. -/
def fraction? : List Char → Option (Nat × List Char)
  | '.' :: cs =>
    let ds := cs.takeWhile Char.isDigit
    if ds = [] then none
    else some (ofDigits ((ds ++ ['0', '0']).take 3), cs.dropWhile Char.isDigit)
  | cs => some (0, cs)

/-- A time of day, in milliseconds since midnight. -/
def time? (cs : List Char) : Option (Nat × List Char) := do
  let (hour, cs) ← digits? 2 cs
  let (minute, cs) ← (skip? ':' cs).bind (digits? 2)
  let (second, cs) ← (skip? ':' cs).bind (digits? 2)
  let (millis, cs) ← fraction? cs
  if hour < 24 ∧ minute < 60 ∧ second ≤ 60 then
    some (((hour * 60 + minute) * 60 + second) * 1000 + millis, cs)
  else none

/-- An offset from universal time, in minutes. -/
def offset? : List Char → Option (Int × List Char)
  | [] => none
  | c :: cs =>
    if c = 'Z' ∨ c = 'z' then some (0, cs)
    else if c = '+' ∨ c = '-' ∨ c = '−' then do
      let (hours, cs) ← digits? 2 cs
      let (minutes, cs) ← (skip? ':' cs).bind (digits? 2)
      if hours < 24 ∧ minutes < 60 then
        let offset : Int := hours * 60 + minutes
        some (if c = '+' then offset else -offset, cs)
      else none
    else none

/-- The milliseconds since the start of 1970 that a whole text names. -/
def read? (cs : List Char) : Option Int := do
  let (day, cs) ← date? cs
  match cs with
  | c :: cs =>
    if c = 'T' ∨ c = 't' ∨ c = ' ' then do
      let (time, cs) ← time? cs
      let (offset, cs) ← offset? cs
      if cs = [] then some (day * 86400000 + time - offset * 60000) else none
    else none
  | [] => none

end SessionReplay.Rfc3339
