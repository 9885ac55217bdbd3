import SessionReplay.Toml.Scalar

/-!
# TOML documents

Reading a configuration file goes in three steps. Its text is a sequence of statements: headers of
tables, headers of tables in arrays, and assignments of values to names. The statements are then
carried out one after another on a draft, and the whole draft becomes a value at the end.

Nesting of arrays and tables in a value is recursion on the room that is left, so deep input cannot
exhaust the reader.
-/

namespace SessionReplay.Toml

/-- A dotted name: the path to a table and a name in it. -/
structure Key where
  path : List String
  name : String
deriving DecidableEq, Repr

/-- A statement of a document. -/
inductive Statement
  /-- Opens a table, to which the following assignments belong. -/
  | table (key : Key)
  /-- Adds a table to an array, to which the following assignments belong. -/
  | item (key : Key)
  | assign (key : Key) (d : Draft)

/-! ## Names -/

/-- Whether a character may stand in a name without quotes. -/
def isBare (c : Char) : Bool := c.isAlphanum || c = '-' || c = '_'

/-- One part of a dotted name. -/
def part? (cs : List Char) : Option (String × List Char) :=
  match line? cs with
  | some (s, rest) => some (String.ofList s, rest)
  | none =>
    let s := cs.takeWhile isBare
    if s = [] then none else some (String.ofList s, cs.drop s.length)

/-- The parts of a dotted name, after those before, and what is left after the blanks behind it. -/
def partsAfter (before : List String) (cs : List Char) : Option (List String × List Char) :=
  match part? (skipBlanks cs) with
  | none => none
  | some (s, rest) =>
    match skipBlanks rest with
    | '.' :: rest =>
      if rest.length < cs.length then partsAfter (s :: before) rest else none
    | rest => some (s :: before, rest)
termination_by cs.length

/-- How many parts a dotted name may have. -/
def greatestParts : Nat := 79

/-- A dotted name, and what is left after the blanks behind it. -/
def key? (cs : List Char) : Option (Key × List Char) :=
  match partsAfter [] cs with
  | some (name :: path, rest) =>
    if path.length < greatestParts then some (⟨path.reverse, name⟩, rest) else none
  | _ => none

/-! ## Values -/

private theorem length_skipBlanks_le (cs : List Char) : (skipBlanks cs).length ≤ cs.length :=
  (List.dropWhile_suffix _).length_le

private theorem length_skipComment_le (cs : List Char) : (skipComment cs).length ≤ cs.length := by
  unfold skipComment
  split
  · exact Nat.le_succ_of_le (List.dropWhile_suffix _).length_le
  · exact Nat.le_refl _

private theorem length_lineBreak?_lt {cs rest : List Char} (h : lineBreak? cs = some rest) :
    rest.length < cs.length := by
  unfold lineBreak? at h
  split at h
  · cases h
    exact Nat.lt_succ_self _
  · cases h
    exact Nat.lt_succ_of_lt (Nat.lt_succ_self _)
  · cases h

/-- What is left after blanks, line breaks and comments. -/
def skipGaps (cs : List Char) : List Char :=
  match _h : lineBreak? (skipComment (skipBlanks cs)) with
  | some rest => skipGaps rest
  | none => skipBlanks cs
termination_by cs.length
decreasing_by
  have h1 := length_lineBreak?_lt _h
  have h2 := length_skipComment_le (skipBlanks cs)
  have h3 := length_skipBlanks_le cs
  omega

/-- The items of an array with commas between them, after those before. A comma may follow the last
item. -/
def itemsAfter (item : Reader Draft) (before : List Draft) (cs : List Char) :
    Option (List Draft × List Char) :=
  match item (skipGaps cs) with
  | none => some (before.reverse, cs)
  | some (v, rest) =>
    match skipGaps rest with
    | ',' :: rest =>
      if rest.length < cs.length then itemsAfter item (v :: before) rest else none
    | rest => some ((v :: before).reverse, rest)
termination_by cs.length

/-- The rest of an array. -/
def array? (item : Reader Draft) (cs : List Char) : Option (Draft × List Char) := do
  let (vs, rest) ← itemsAfter item [] cs
  match skipGaps rest with
  | ']' :: rest => some (.array vs, rest)
  | _ => none

/-- An assignment within a line, and what is left after the blanks behind it. -/
def field? (value : Reader Draft) (cs : List Char) : Option ((Key × Draft) × List Char) :=
  match key? cs with
  | some (key, '=' :: rest) =>
    (value (skipBlanks rest)).map fun (v, rest) ↦ ((key, v), skipBlanks rest)
  | _ => none

/-- The assignments of a table within a line, after those before. -/
def fieldsAfter (value : Reader Draft) (before : List (Key × Draft)) (cs : List Char) :
    Option (List (Key × Draft) × List Char) :=
  match field? value cs with
  | none => if before = [] then some ([], cs) else none
  | some (f, rest) =>
    match rest with
    | ',' :: rest =>
      if rest.length < cs.length then fieldsAfter value (f :: before) rest else none
    | rest => some ((f :: before).reverse, rest)
termination_by cs.length

/-- The rest of a table within a line. -/
def inlineTable? (value : Reader Draft) (cs : List Char) : Option (Draft × List Char) := do
  let (fields, rest) ← fieldsAfter value [] cs
  match skipBlanks rest with
  | '}' :: rest =>
    let fields ← fields.foldlM (fun fs f ↦ Draft.assign fs f.1.name f.2 f.1.path) []
    some (.inline fields, rest)
  | _ => none

/-- A value that is neither an array nor a table. -/
def plain? (cs : List Char) : Option (Draft × List Char) :=
  (scalar? cs).map fun (v, rest) ↦ (.scalar v, rest)

/-- A value, with room for so many nested arrays and tables. -/
def value? : Nat → Reader Draft
  | 0 => plain?
  | room + 1 => fun
    | '[' :: cs => array? (value? room) cs
    | '{' :: cs => inlineTable? (value? room) cs
    | cs => plain? cs

/-- How deeply arrays and tables may be nested in a value. -/
def greatestNesting : Nat := 79

/-! ## Statements -/

/-- An assignment on a line of its own. -/
def assignment? (cs : List Char) : Option (Statement × List Char) :=
  match key? cs with
  | some (key, '=' :: rest) =>
    (value? greatestNesting (skipBlanks rest)).map fun (v, rest) ↦ (.assign key v, rest)
  | _ => none

/-- A statement, without the end of its line. -/
def statement? : Reader Statement
  | '[' :: '[' :: cs =>
    match key? cs with
    | some (key, ']' :: ']' :: rest) => some (.item key, rest)
    | _ => none
  | '[' :: cs =>
    match key? cs with
    | some (key, ']' :: rest) => some (.table key, rest)
    | _ => none
  | cs => assignment? cs

/-- A line, which may hold a statement, and what is left after its end. -/
def lineAt? (cs : List Char) : Option (List Statement × List Char) :=
  match lineEnd? cs with
  | some rest => some ([], rest)
  | none => do
    let (s, rest) ← statement? (skipBlanks cs)
    let rest ← lineEnd? rest
    some ([s], rest)

/-- The statements of a text. -/
def statements? (cs : List Char) : Option (List Statement) :=
  if cs = [] then some []
  else match lineAt? cs with
    | some (ss, rest) =>
      if rest.length < cs.length then (statements? rest).map fun more ↦ ss ++ more else none
    | none => none
termination_by cs.length

/-! ## Carrying statements out -/

/-- A document in the making. -/
structure Document where
  root : Draft.Fields
  /-- The table to which assignments belong. -/
  current : List String

namespace Document

/-- Carries out a statement. -/
def step (d : Document) : Statement → Option Document
  | .table key =>
    (Draft.within (Draft.openTable key.name) d.root key.path).map fun root ↦
      ⟨root, key.path ++ [key.name]⟩
  | .item key =>
    (Draft.within (Draft.addTable key.name) d.root key.path).map fun root ↦
      ⟨root, key.path ++ [key.name]⟩
  | .assign key value =>
    (Draft.within (fun fs ↦ Draft.assign fs key.name value key.path) d.root d.current).map
      fun root ↦ { d with root }

end Document

/-- A text without the byte order mark at its start. -/
def skipMark : List Char → List Char
  | '\ufeff' :: cs => cs
  | cs => cs

/-- What a text spells out: a table, or the date that its first field marks it as. -/
def Value.read? (text : String) : Option Value := do
  let statements ← statements? (skipMark text.toList)
  let d ← statements.foldlM Document.step ⟨[], []⟩
  Draft.tableOrDate? d.root (Draft.finishFields? d.root)

end SessionReplay.Toml
