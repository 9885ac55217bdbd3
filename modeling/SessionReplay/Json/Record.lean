import SessionReplay.Json.Tree

/-!
# Records

Reading a record from an object: fields by name, each at most once, unknown fields ignored. Every
name of the object has to be a text, known or not.
-/

namespace SessionReplay.Json.Tree

/-- The text of a text. -/
def text? : Tree → Option String
  | .string s => s
  | _ => none

/-- The truth value of a truth value. -/
def truth? : Tree → Option Bool
  | .bool b => some b
  | _ => none

/-- The unsigned word of a whole number. -/
def word? : Tree → Option UInt64
  | .number (some (.whole n)) =>
    if 0 ≤ n ∧ n.toNat < UInt64.size then some (UInt64.ofNat n.toNat) else none
  | _ => none

/-- What may be null. -/
def nullable? {α : Type} (read : Tree → Option α) : Tree → Option (Option α)
  | .null => some none
  | t => (read t).map some

/-- The fields of an object whose names are all texts. -/
def fields? : Tree → Option (List (Option String × Tree))
  | .object fields => if fields.all (·.1.isSome) then some fields else none
  | _ => none

/-- The value of a field that stands at most once; `none` if it is repeated. -/
def single? (fields : List (Option String × Tree)) (name : String) : Option (Option Tree) :=
  match fields.filter (·.1 == some name) with
  | [] => some none
  | [field] => some (some field.2)
  | _ => none

/-- A field that has to be there. -/
def required? {α : Type} (fields : List (Option String × Tree)) (name : String)
    (read : Tree → Option α) : Option α :=
  (single? fields name).bind fun t ↦ t.bind read

/-- A field that has a value when it is missing. -/
def withDefault? {α : Type} (fields : List (Option String × Tree)) (name : String)
    (read : Tree → Option α) (missing : α) : Option α :=
  (single? fields name).bind fun
    | some t => read t
    | none => some missing

/-- A field that may be missing or null. -/
def optional? {α : Type} (fields : List (Option String × Tree)) (name : String)
    (read : Tree → Option α) : Option (Option α) :=
  withDefault? fields name (nullable? read) none

end SessionReplay.Json.Tree
