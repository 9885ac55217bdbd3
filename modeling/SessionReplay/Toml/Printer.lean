import SessionReplay.Decimal.Whole
import SessionReplay.Toml.Value

/-!
# Printing TOML

Settings are written as sections of a name and entries. A text is written in the plainest form that
can hold it: between quotes if nothing in it has to be escaped, else between apostrophes, else in a
form over several lines, and with escapes only if there is no other way.
-/

namespace SessionReplay.Toml

/-! ## Texts -/

/-- The length of the longest run of a character. -/
def longestRun (mark : Char) (cs : List Char) : Nat :=
  (cs.foldl (fun (longest, run) c ↦
    let run := if c = mark then run + 1 else 0
    (max longest run, run)) (0, 0)).1

/-- Whether a character can only be written as an escape. -/
def needsEscape (c : Char) : Bool := (c.toNat < 0x20 && c ≠ '\t' && c ≠ '\n') || c.toNat = 0x7f

/-- The ways to write a text. -/
inductive Style
  | quoted
  | literal
  | blockQuoted
  | blockLiteral
deriving DecidableEq, Repr

namespace Style

/-- The plainest way to write a text. -/
def of (cs : List Char) : Style :=
  let escapes := cs.any needsEscape
  let backslash := cs.contains '\\'
  let lines := cs.contains '\n'
  let quotes := longestRun '"' cs
  let apostrophes := longestRun '\'' cs
  if !escapes && !backslash && quotes = 0 && !lines then .quoted
  else if !escapes && apostrophes = 0 && !lines then .literal
  else if !escapes && !backslash && quotes ≤ 2 then .blockQuoted
  else if !escapes && apostrophes ≤ 2 then .blockLiteral
  else if lines then .blockQuoted
  else .quoted

/-- What stands at both ends of a text. -/
def mark : Style → List Char
  | .quoted => ['"']
  | .literal => ['\'']
  | .blockQuoted => ['"', '"', '"']
  | .blockLiteral => ['\'', '\'', '\'']

/-- Whether a text may go over several lines. -/
def isBlock : Style → Bool
  | .blockQuoted | .blockLiteral => true
  | _ => false

/-- Whether a text is written with escapes. -/
def escapes : Style → Bool
  | .quoted | .blockQuoted => true
  | _ => false

end Style

/-- A number as four hexadecimal digits. -/
def fourHex (n : Nat) : List Char :=
  [n / 4096 % 16, n / 256 % 16, n / 16 % 16, n % 16].map fun d ↦ (Nat.digitChar d).toUpper

/-- How a character is written, if so many quotes stand right before it and so many may follow one
another. -/
def escapeChar (isBlock : Bool) (quotes : Nat) (c : Char) : List Char :=
  if c = '"' then (if (if isBlock then 2 else 0) ≤ quotes then ['\\', '"'] else ['"'])
  else if c = '\\' then ['\\', '\\']
  else if c = '\x08' then ['\\', 'b']
  else if c = '\t' then ['\\', 't']
  else if c = '\n' then (if isBlock then ['\n'] else ['\\', 'n'])
  else if c = '\x0c' then ['\\', 'f']
  else if c = '\r' then ['\\', 'r']
  else if needsEscape c then '\\' :: 'u' :: fourHex c.toNat
  else [c]

/-- Characters with escapes, if so many quotes stand right before them. -/
def escapeAll (isBlock : Bool) (quotes : Nat) : List Char → List Char
  | [] => []
  | c :: cs =>
    let written := escapeChar isBlock quotes c
    written ++ escapeAll isBlock (if written = ['"'] then quotes + 1 else 0) cs

/-- A text in a style. -/
def Style.render (style : Style) (cs : List Char) : List Char :=
  style.mark ++ (if style.isBlock && cs.contains '\n' then ['\n'] else []) ++
    (if style.escapes then escapeAll style.isBlock 0 cs else cs) ++ style.mark

/-- A text in the plainest style. -/
def quote (s : String) : List Char := (Style.of s.toList).render s.toList

/-! ## Sections -/

/-- The value of a setting. -/
inductive Setting
  | text (s : String)
  | number (n : Nat)
  | texts (ss : List String)

/-- The value of a setting on the page. Several texts stand on lines of their own. -/
def Setting.render : Setting → List Char
  | .text s => quote s
  | .number n => Nat.toDigits 10 n
  | .texts [] => ['[', ']']
  | .texts [s] => '[' :: quote s ++ [']']
  | .texts ss => '[' :: ss.flatMap (fun s ↦ "\n    ".toList ++ quote s ++ [',']) ++ ['\n', ']']

/-- A section: its name and its settings. -/
structure Section where
  name : String
  settings : List (String × Setting)

/-- A section on the page. -/
def Section.render (s : Section) : List Char :=
  '[' :: s.name.toList ++ ']' :: '\n' ::
    s.settings.flatMap fun e ↦ e.1.toList ++ " = ".toList ++ e.2.render ++ ['\n']

/-- Sections with empty lines between them. -/
def render (sections : List Section) : String :=
  String.ofList (['\n'].intercalate (sections.map Section.render))

end SessionReplay.Toml
