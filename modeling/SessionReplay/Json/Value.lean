import SessionReplay.Decimal.Shortest
import SessionReplay.Decimal.Whole
import SessionReplay.Instant.Basic
import SessionReplay.Table

/-!
# JSON values

The values that tool calls carry. A whole number keeps its digits as long as it fits a word of 64
bits, signed or unsigned; every other number is a double. Objects are lists of fields: a value that
was read has them in the order of their names and each name once, a record that is about to be
written has them in the order of its declaration unless it is asked for in order of names.
-/

namespace SessionReplay

/-- A number as it is kept: whole, or a double. -/
inductive Json.Number
  | whole (n : Int)
  | double (x : Decimal.Binary64)
deriving DecidableEq, Repr

/-- A JSON value. -/
inductive Json
  | null
  | bool (b : Bool)
  | number (n : Json.Number)
  | string (s : String)
  | array (items : List Json)
  | object (fields : List (String × Json))
deriving Inhabited

namespace Json

/-- The whole part of a number, toward zero. -/
def Number.truncate : Number → Int
  | .whole n => n
  | .double x => x.truncate

/-- The whole number as a value. -/
def int (n : Int) : Json := .number (.whole n)

/-- An instant or a span as a value. -/
def instant (t : Instant) : Json := int t.toInt

/-- A list of texts as a value. -/
def strings (ss : List String) : Json := .array (ss.map .string)

/-- What a value that may be missing is written as: itself, or null. -/
def orNull {α : Type} (f : α → Json) : Option α → Json
  | some a => f a
  | none => .null

/-- A field that is left out when it has no value. -/
def field? {α : Type} (name : String) (f : α → Json) : Option α → List (String × Json)
  | some a => [(name, f a)]
  | none => []

/-- The value of an object's field; nothing for other values. -/
def get? : Json → String → Option Json
  | .object fields, name => fields.lookup name
  | _, _ => none

/-- The text of a text value. -/
def string? : Json → Option String
  | .string s => some s
  | _ => none

/-! ## Values without doubles -/

mutual

/-- Whether no number in a value is a double. -/
def isExact : Json → Bool
  | .number (.double _) => false
  | .array items => itemsAreExact items
  | .object fields => fieldsAreExact fields
  | _ => true

/-- Whether no number in a list of values is a double. -/
def itemsAreExact : List Json → Bool
  | [] => true
  | item :: rest => item.isExact && itemsAreExact rest

/-- Whether no number in a list of fields is a double. -/
def fieldsAreExact : List (String × Json) → Bool
  | [] => true
  | (_, value) :: rest => value.isExact && fieldsAreExact rest

end

/-! ## Values in order of names -/

mutual

/-- A value with the fields of all its objects in the order of their names. -/
def ordered : Json → Json
  | .array items => .array (orderedItems items)
  | .object fields => .object (orderedFields fields)
  | .null => .null
  | .bool b => .bool b
  | .number n => .number n
  | .string s => .string s

/-- Items, each with its fields in order. -/
def orderedItems : List Json → List Json
  | [] => []
  | item :: rest => ordered item :: orderedItems rest

/-- Fields in order, and the fields of their values. -/
def orderedFields : List (String × Json) → List (String × Json)
  | [] => []
  | (name, value) :: rest => Entries.insert name (ordered value) (orderedFields rest)

end

end Json

end SessionReplay
