import SessionReplay.Decimal.Binary64
import SessionReplay.Table
import SessionReplay.Toml.Datetime

/-!
# TOML values

The values of a configuration file. Whole numbers are signed words of 64 bits. A date or time is
kept as its text in normal form, since no setting is a date.

## Tables in the making

The statements of a configuration file define tables bit by bit, and the rules about what may be
defined again depend on how a table came to be:

* A table is opened by a header once. It may have been implied by the header of a table inside it
  before, but neither opened nor made by a dotted name.
* A dotted name goes through tables that dotted names have made or headers have implied, and ends in
  one that dotted names have made. It never adds to a table that a header has opened.
* A header of an array adds a table to it. Names that go through the array mean its last table.
* A table within a line is whole once the line is read.

## Dates as tables

Fields stand in the order in which they were defined, since the first one decides what a table
means: a table that begins with the date mark stands for the date that the mark's text spells out,
and whatever follows the mark is passed over. So a draft becomes a value only when the whole file is
read.
-/

namespace SessionReplay.Toml

/-- A TOML value. -/
inductive Value
  | string (s : String)
  | integer (n : Int)
  /-- A double; none if it is infinite or not a number. -/
  | float (x : Option Decimal.Binary64)
  | boolean (b : Bool)
  | datetime (text : String)
  | array (items : List Value)
  | table (fields : List (String × Value))
deriving Inhabited

namespace Value

/-- The value of a table's field; nothing for other values. -/
def get? : Value → String → Option Value
  | .table fields, name => fields.lookup name
  | _, _ => none

/-- The number of a whole number. -/
def integer? : Value → Option Int
  | .integer n => some n
  | _ => none

end Value

/-! ## Drafts -/

/-- How a table came to be. -/
inductive Origin
  /-- It was opened by a header. -/
  | opened
  /-- The header of a table inside it implies it. -/
  | implied
  /-- A dotted name has made it. -/
  | dotted
deriving DecidableEq, Repr

/-- What a name stands for while a file is being read. -/
inductive Draft
  /-- A value that is neither an array nor a table. -/
  | scalar (v : Value)
  | array (items : List Draft)
  /-- A table within a line. -/
  | inline (fields : List (String × Draft))
  | table (origin : Origin) (fields : List (String × Draft))
  /-- An array of tables made by headers, the last table first. -/
  | tables (items : List (List (String × Draft)))

namespace Draft

/-- The fields of a table, in the order in which they were defined. -/
abbrev Fields := List (String × Draft)

/-- Gives a name a draft: in place of its former one, or behind all other names. -/
def put (name : String) (d : Draft) : Fields → Fields
  | [] => [(name, d)]
  | (other, former) :: rest =>
    if other = name then (name, d) :: rest else (other, former) :: put name d rest

/-! ## Statements -/

/-- Gives a dotted name within a table its draft. -/
def assign (fields : Fields) (name : String) (d : Draft) : List String → Option Fields
  | [] => if (fields.lookup name).isSome then none else some (put name d fields)
  | step :: path =>
    match fields.lookup step with
    | none => (assign [] name d path).map fun fs ↦ put step (.table .dotted fs) fields
    | some (.table origin fs) =>
      if origin = .opened ∨ (origin = .implied ∧ path = []) then none
      else (assign fs name d path).map fun fs ↦ put step (.table origin fs) fields
    | some (.tables (last :: earlier)) =>
      if path = [] then none
      else (assign last name d path).map fun fs ↦ put step (.tables (fs :: earlier)) fields
    | some _ => none

/-- Changes the table at a path. Tables that are not there are implied. -/
def within (change : Fields → Option Fields) (fields : Fields) : List String → Option Fields
  | [] => change fields
  | step :: path =>
    match fields.lookup step with
    | none => (within change [] path).map fun fs ↦ put step (.table .implied fs) fields
    | some (.table origin fs) =>
      (within change fs path).map fun fs ↦ put step (.table origin fs) fields
    | some (.tables (last :: earlier)) =>
      (within change last path).map fun fs ↦ put step (.tables (fs :: earlier)) fields
    | some _ => none

/-- Opens a table. One that was implied moves behind all other names. -/
def openTable (name : String) (fields : Fields) : Option Fields :=
  match fields.lookup name with
  | none => some (put name (.table .opened []) fields)
  | some (.table .implied fs) => some (put name (.table .opened fs) (Entries.erase name fields))
  | some _ => none

/-- Adds a table to an array. -/
def addTable (name : String) (fields : Fields) : Option Fields :=
  match fields.lookup name with
  | none => some (put name (.tables [[]]) fields)
  | some (.tables items) => some (put name (.tables ([] :: items)) fields)
  | some _ => none

/-! ## Values -/

/-- The name that marks a table as a date. -/
def dateMark : String := "$__toml_private_datetime"

/-- Whether a table stands for a date. -/
def isDate (fields : Fields) : Bool := fields.head?.any fun f ↦ f.1 == dateMark

/-- The date that the first field of a table spells out. -/
def date? : Fields → Option Value
  | (_, .scalar (.string s)) :: _ => (Datetime.ofText? s).map .datetime
  | _ => none

/-- What a table stands for, if its fields stand for `finished`. -/
def tableOrDate? (fields : Fields) (finished : Option (List (String × Value))) : Option Value :=
  if isDate fields then date? fields else finished.map .table

mutual

/-- What a draft stands for; nothing if a date mark in it spells out no date. -/
def finish? : Draft → Option Value
  | .scalar v => some v
  | .array items => (finishItems? items).map .array
  | .inline fields => tableOrDate? fields (finishFields? fields)
  | .table _ fields => tableOrDate? fields (finishFields? fields)
  | .tables items => (finishTables? items).map fun vs ↦ .array vs.reverse

/-- What the items of an array stand for. -/
def finishItems? : List Draft → Option (List Value)
  | [] => some []
  | d :: rest => do some ((← finish? d) :: (← finishItems? rest))

/-- What the fields of a table stand for. -/
def finishFields? : List (String × Draft) → Option (List (String × Value))
  | [] => some []
  | (name, d) :: rest => do some ((name, ← finish? d) :: (← finishFields? rest))

/-- What tables stand for. -/
def finishTables? : List (List (String × Draft)) → Option (List Value)
  | [] => some []
  | fields :: rest => do
    some ((← tableOrDate? fields (finishFields? fields)) :: (← finishTables? rest))

end

end Draft

end SessionReplay.Toml
