import SessionReplay.Json.Token
import SessionReplay.Toml.Value

/-!
# TOML scalars

Texts, numbers, truth values and dates as they stand in a configuration file. Every reader takes
what it needs from the start of the characters and returns what is left.

## Texts

There are four kinds: between quotes or between apostrophes, on one line or over several. Backslash
escapes count between quotes only. A line break right after the opening of a text over several lines
does not belong to it, and a backslash at the end of a line there joins the next word to this one.
-/

namespace SessionReplay.Toml

/-- A reader takes a value from the start of the characters and returns what is left. -/
abbrev Reader (α : Type) := List Char → Option (α × List Char)

/-! ## Blanks and comments -/

/-- The blanks within a line. -/
def isBlank (c : Char) : Bool := c = ' ' || c = '\t'

/-- What is left after blanks. -/
def skipBlanks (cs : List Char) : List Char := cs.dropWhile isBlank

/-- What is left after a line break. -/
def lineBreak? : List Char → Option (List Char)
  | '\n' :: cs => some cs
  | '\r' :: '\n' :: cs => some cs
  | _ => none

/-- Whether a character may stand in a comment, and in any text. -/
def isPrintable (c : Char) : Bool := c = '\t' || (0x20 ≤ c.toNat && c.toNat ≠ 0x7f)

/-- What is left after a comment, if one starts here. -/
def skipComment : List Char → List Char
  | '#' :: cs => cs.dropWhile isPrintable
  | cs => cs

/-- What is left after the end of a line, with its blanks and its comment. -/
def lineEnd? (cs : List Char) : Option (List Char) :=
  match skipComment (skipBlanks cs) with
  | [] => some []
  | cs => lineBreak? cs

/-! ## Texts on one line -/

/-- The character with a number, unless it is half of a surrogate pair or beyond the last one. -/
def charOf? (n : Nat) : Option Char := if n.isValidChar then some (Char.ofNat n) else none

/-- The number of hexadecimal digits. -/
def hexNumber? (ds : List Char) : Option Nat :=
  ds.foldlM (fun n d ↦ (Json.hexValue? d).map fun v ↦ 16 * n + v) 0

/-- The character that a letter after a backslash stands for. -/
def escape? (c : Char) : Option Char :=
  if c = '"' ∨ c = '\\' then some c
  else if c = 'b' then some '\x08'
  else if c = 'f' then some '\x0c'
  else if c = 'n' then some '\n'
  else if c = 'r' then some '\r'
  else if c = 't' then some '\t'
  else none

/-- The rest of a text between quotes, after the characters before. -/
def quotedAfter (before : List Char) : Reader (List Char)
  | [] => none
  | '"' :: cs => some (before.reverse, cs)
  | '\\' :: 'u' :: a :: b :: c :: d :: cs => do
    quotedAfter ((← (hexNumber? [a, b, c, d]).bind charOf?) :: before) cs
  | '\\' :: 'U' :: a :: b :: c :: d :: e :: f :: g :: h :: cs => do
    quotedAfter ((← (hexNumber? [a, b, c, d, e, f, g, h]).bind charOf?) :: before) cs
  | '\\' :: c :: cs => do quotedAfter ((← escape? c) :: before) cs
  | c :: cs => if isPrintable c ∧ c ≠ '\\' then quotedAfter (c :: before) cs else none

/-- The rest of a text between apostrophes. -/
def literal? (cs : List Char) : Option (List Char × List Char) :=
  let body := cs.takeWhile fun c ↦ isPrintable c && c ≠ '\''
  match cs.drop body.length with
  | '\'' :: rest => some (body, rest)
  | _ => none

/-! ## Texts over several lines -/

/-- What the end of a text over several lines may look like: up to two of its marks may stand right
before the closing three. -/
def closing? (mark : Char) (cs : List Char) : Option (List Char × List Char) :=
  let run := (cs.takeWhile (· = mark)).length
  if 3 ≤ run then
    let own := min (run - 3) 2
    some (List.replicate own mark, cs.drop (own + 3))
  else none

/-- Where a reader of a text over several lines is. -/
inductive Fold
  /-- Within the text. -/
  | text
  /-- After a backslash and blanks that a line break has to follow. -/
  | slash
  /-- Among the blanks and line breaks that a backslash removes. -/
  | gap
deriving DecidableEq, Repr

/-- The rest of a text over several lines between quotes. -/
def blockQuotedAfter (fold : Fold) (before : List Char) : Reader (List Char)
  | [] => none
  | '\r' :: '\n' :: cs =>
    if fold = .text then blockQuotedAfter .text ('\n' :: before) cs
    else blockQuotedAfter .gap before cs
  | '\n' :: cs =>
    if fold = .text then blockQuotedAfter .text ('\n' :: before) cs
    else blockQuotedAfter .gap before cs
  | '"' :: cs =>
    if fold = .slash then none
    else match closing? '"' ('"' :: cs) with
      | some (own, rest) => some (before.reverse ++ own, rest)
      | none => blockQuotedAfter .text ('"' :: before) cs
  | '\\' :: 'u' :: a :: b :: c :: d :: cs =>
    if fold = .slash then none
    else do blockQuotedAfter .text ((← (hexNumber? [a, b, c, d]).bind charOf?) :: before) cs
  | '\\' :: 'U' :: a :: b :: c :: d :: e :: f :: g :: h :: cs =>
    if fold = .slash then none
    else do
      blockQuotedAfter .text ((← (hexNumber? [a, b, c, d, e, f, g, h]).bind charOf?) :: before) cs
  | '\\' :: c :: cs =>
    if fold = .slash then none
    else match escape? c with
      | some e => blockQuotedAfter .text (e :: before) cs
      | none =>
        if isBlank c ∨ c = '\n' ∨ c = '\r' then blockQuotedAfter .slash before (c :: cs)
        else none
  | c :: cs =>
    if isBlank c ∧ fold ≠ .text then blockQuotedAfter fold before cs
    else if fold = .slash then none
    else if isPrintable c ∧ c ≠ '\\' then blockQuotedAfter .text (c :: before) cs
    else none

/-- The rest of a text over several lines between apostrophes. -/
def blockLiteralAfter (before : List Char) : Reader (List Char)
  | [] => none
  | '\r' :: '\n' :: cs => blockLiteralAfter ('\n' :: before) cs
  | '\n' :: cs => blockLiteralAfter ('\n' :: before) cs
  | '\'' :: cs =>
    match closing? '\'' ('\'' :: cs) with
    | some (own, rest) => some (before.reverse ++ own, rest)
    | none => blockLiteralAfter ('\'' :: before) cs
  | c :: cs => if isPrintable c then blockLiteralAfter (c :: before) cs else none

/-- What is left after a line break, if one starts here. -/
def skipLineBreak (cs : List Char) : List Char := (lineBreak? cs).getD cs

/-- A text on one line, as it may also name a field. -/
def line? : Reader (List Char)
  | '"' :: cs => quotedAfter [] cs
  | '\'' :: cs => literal? cs
  | _ => none

/-- A text of any kind. -/
def text? : Reader (List Char)
  | '"' :: '"' :: '"' :: cs => blockQuotedAfter .text [] (skipLineBreak cs)
  | '\'' :: '\'' :: '\'' :: cs => blockLiteralAfter [] (skipLineBreak cs)
  | cs => line? cs

/-! ## Numbers -/

/-- Digits with single underscores between them; the underscores are dropped. -/
def digitsAfter (isDigit : Char → Bool) (before : List Char) : List Char → List Char × List Char
  | '_' :: c :: cs =>
    if isDigit c then digitsAfter isDigit (c :: before) cs else (before.reverse, '_' :: c :: cs)
  | c :: cs =>
    if isDigit c then digitsAfter isDigit (c :: before) cs else (before.reverse, c :: cs)
  | [] => (before.reverse, [])

/-- At least one digit, with single underscores between digits. -/
def digitRun? (isDigit : Char → Bool) : Reader (List Char)
  | c :: cs => if isDigit c then some (digitsAfter isDigit [c] cs) else none
  | [] => none

/-- Digits without a leading zero, unless zero is all there is. -/
def plainDigits? : Reader (List Char)
  | '0' :: cs => some (['0'], cs)
  | cs => digitRun? Char.isDigit cs

/-- The sign, if one stands here; true for a minus. -/
def sign : List Char → Bool × List Char
  | '-' :: cs => (true, cs)
  | '+' :: cs => (false, cs)
  | cs => (false, cs)

/-- A whole number of a base after its mark. -/
def inBase? (base : Nat) (isDigit : Char → Bool) (cs : List Char) : Option (Int × List Char) := do
  let (ds, cs) ← digitRun? isDigit cs
  let n := ds.foldl (fun n d ↦ base * n + (Json.hexValue? d).getD 0) 0
  if n ≤ Int64.maxValue.toInt then some (n, cs) else none

/-- Whether a character is a hexadecimal digit. -/
def isHex (c : Char) : Bool := (Json.hexValue? c).isSome

/-- A whole number. -/
def integer? : Reader Int
  | '0' :: 'x' :: cs => inBase? 16 isHex cs
  | '0' :: 'o' :: cs => inBase? 8 (fun c ↦ '0' ≤ c && c ≤ '7') cs
  | '0' :: 'b' :: cs => inBase? 2 (fun c ↦ c = '0' || c = '1') cs
  | cs => do
    let (negative, cs) := sign cs
    let (ds, cs) ← plainDigits? cs
    let n : Int := Decimal.ofDigits ds
    let n := if negative then -n else n
    if Int64.minValue.toInt ≤ n ∧ n ≤ Int64.maxValue.toInt then some (n, cs) else none

/-- How many decimal places above or below the point decide alone that a number is beyond the
doubles or rounds to zero. -/
def placesBound : Int := 400

/-- The double nearest to a number of digits with the decimal point moved; nothing beyond the
largest one. -/
def double? (negative : Bool) (digits : List Char) (shift : Int) : Option Decimal.Binary64 :=
  let n := Decimal.ofDigits digits
  let places := (Nat.toDigits 10 n).length + shift
  if n = 0 ∨ places < -placesBound then some (.zero negative)
  else if placesBound < places then none
  else Decimal.Binary64.ofQuotient? negative (n * Decimal.tenTo shift) (Decimal.tenTo (-shift))

/-- The exponent of a number, if its mark stands here. -/
def exponent? : Reader Int
  | c :: cs =>
    if c = 'e' ∨ c = 'E' then do
      let (negative, cs) := sign cs
      let (ds, cs) ← digitRun? Char.isDigit cs
      let n : Int := Decimal.ofDigits ds
      some (if negative then -n else n, cs)
    else none
  | [] => none

/-- The fraction of a number, if its point stands here. -/
def fraction? : Reader (List Char)
  | '.' :: cs => digitRun? Char.isDigit cs
  | _ => none

/-- A number with a fraction or an exponent. One beyond the largest double is a mistake, unless it
is negative. -/
def decimal? (cs : List Char) : Option (Option Decimal.Binary64 × List Char) := do
  let (negative, cs) := sign cs
  let (whole, cs) ← plainDigits? cs
  let (fraction, shift, cs) ← match fraction? cs with
    | some (fraction, cs) =>
      match cs with
      | c :: _ =>
        if c = 'e' ∨ c = 'E' then (exponent? cs).map fun (e, cs) ↦ (fraction, e, cs)
        else some (fraction, 0, cs)
      | [] => some (fraction, 0, cs)
    | none => (exponent? cs).map fun (e, cs) ↦ ([], e, cs)
  let x := double? negative (whole ++ fraction) (shift - fraction.length)
  if x.isSome ∨ negative then some (x, cs) else none

/-- A number that is infinite or none. -/
def special? (cs : List Char) : Option (Option Decimal.Binary64 × List Char) :=
  match (sign cs).2 with
  | 'i' :: 'n' :: 'f' :: rest => some (none, rest)
  | 'n' :: 'a' :: 'n' :: rest => some (none, rest)
  | _ => none

/-! ## Any scalar -/

/-- What stands for a number or a date. -/
def number? (cs : List Char) : Option (Value × List Char) :=
  match Datetime.literal? cs with
  | some (text, cs) => some (.datetime (String.ofList text), cs)
  | none =>
    match decimal? cs with
    | some (x, cs) => some (.float x, cs)
    | none =>
      match special? cs with
      | some (x, cs) => some (.float x, cs)
      | none => (integer? cs).map fun (n, cs) ↦ (.integer n, cs)

/-- A value that is neither an array nor a table. -/
def scalar? (cs : List Char) : Option (Value × List Char) :=
  match cs with
  | 't' :: 'r' :: 'u' :: 'e' :: rest => some (.boolean true, rest)
  | 'f' :: 'a' :: 'l' :: 's' :: 'e' :: rest => some (.boolean false, rest)
  | c :: _ =>
    if c = '"' ∨ c = '\'' then (text? cs).map fun (s, rest) ↦ (.string (String.ofList s), rest)
    else number? cs
  | [] => none

end SessionReplay.Toml
