import SessionReplay.Json.Value

/-!
# Printing JSON

Two layouts of one format: compact, without any blank, and pretty, with two blanks per level and
one item or field per line. A text escapes the quote, the backslash and the control characters below
the blank, and nothing else.
-/

namespace SessionReplay.Json

/-- Doubles are written positionally from 0.00001 on and below 10 ^ 16. -/
def doubleLayout : Decimal.Layout := ⟨-5, 16⟩

/-- The text of a number. -/
def Number.render : Number → List Char
  | .whole n => Decimal.writeInt n
  | .double x => doubleLayout.render x

/-- How a character is written inside a text. -/
def escapeChar (c : Char) : List Char :=
  if c = '"' then ['\\', '"']
  else if c = '\\' then ['\\', '\\']
  else if c = '\x08' then ['\\', 'b']
  else if c = '\t' then ['\\', 't']
  else if c = '\n' then ['\\', 'n']
  else if c = '\x0c' then ['\\', 'f']
  else if c = '\r' then ['\\', 'r']
  else if c.toNat < 0x20 then
    ['\\', 'u', '0', '0', Nat.digitChar (c.toNat / 16), Nat.digitChar (c.toNat % 16)]
  else [c]

/-- A text between quotes. -/
def quote (s : String) : List Char := '"' :: s.toList.flatMap escapeChar ++ ['"']

/-- The text of a truth value. -/
def boolText (b : Bool) : List Char := if b then "true".toList else "false".toList

/-! ## The compact layout -/

mutual

/-- A value without blanks. -/
def renderChars : Json → List Char
  | .null => "null".toList
  | .bool b => boolText b
  | .number n => n.render
  | .string s => quote s
  | .array items => '[' :: renderItems items ++ [']']
  | .object fields => '{' :: renderFields fields ++ ['}']

/-- Items with commas between them. -/
def renderItems : List Json → List Char
  | [] => []
  | [item] => renderChars item
  | item :: next :: rest => renderChars item ++ ',' :: renderItems (next :: rest)

/-- Fields with commas between them. -/
def renderFields : List (String × Json) → List Char
  | [] => []
  | [(name, value)] => quote name ++ ':' :: renderChars value
  | (name, value) :: next :: rest =>
    quote name ++ ':' :: renderChars value ++ ',' :: renderFields (next :: rest)

end

/-- A value as compact text. -/
def render (j : Json) : String := String.ofList j.renderChars

/-! ## The pretty layout -/

/-- The start of a line at a level. -/
def newLine (level : Nat) : List Char := '\n' :: List.replicate (2 * level) ' '

mutual

/-- A value over several lines, at a level. An empty array or object stays on one line. -/
def prettyChars (level : Nat) : Json → List Char
  | .null => "null".toList
  | .bool b => boolText b
  | .number n => n.render
  | .string s => quote s
  | .array [] => ['[', ']']
  | .array (item :: rest) =>
    '[' :: prettyItems (level + 1) (item :: rest) ++ newLine level ++ [']']
  | .object [] => ['{', '}']
  | .object (field :: rest) =>
    '{' :: prettyFields (level + 1) (field :: rest) ++ newLine level ++ ['}']

/-- Items at a level, each on a line of its own. -/
def prettyItems (level : Nat) : List Json → List Char
  | [] => []
  | [item] => newLine level ++ prettyChars level item
  | item :: next :: rest =>
    newLine level ++ prettyChars level item ++ ',' :: prettyItems level (next :: rest)

/-- Fields at a level, each on a line of its own. -/
def prettyFields (level : Nat) : List (String × Json) → List Char
  | [] => []
  | [(name, value)] => newLine level ++ quote name ++ ':' :: ' ' :: prettyChars level value
  | (name, value) :: next :: rest =>
    newLine level ++ quote name ++ ':' :: ' ' :: prettyChars level value ++
      ',' :: prettyFields level (next :: rest)

end

/-- A value as pretty text. -/
def pretty (j : Json) : String := String.ofList (j.prettyChars 0)

end SessionReplay.Json
