import SessionReplay.Json.Token
import SessionReplay.Table

/-!
# JSON documents

A document as it stands on the page. Unlike a value it may hold numbers and texts that stand for
nothing, it may repeat a name in an object, and it may be nested to any depth; what of it is kept
becomes a value, what is ignored never does.

## Why two types

A record reader ignores the fields it does not know, and an ignored field may hold anything that is
well formed. So reading goes in two steps: `Tree.ofTokens?` settles the grammar of the whole text,
and `Tree.keep?` turns the parts that are wanted into values.

Reading is one pass of a stack machine over the words: `Machine.step` takes a word, and nesting is
the length of its stack.
-/

namespace SessionReplay.Json

/-- A document: a value, or what only has the form of one. -/
inductive Tree
  | null
  | bool (b : Bool)
  | number (n : Option Number)
  | string (s : Option String)
  | array (items : List Tree)
  | object (fields : List (Option String × Tree))
deriving Inhabited

namespace Tree

/-! ## From words to a document -/

/-- An array or an object that is still open: what it holds so far, last first, and for an object
also the name whose value is being read. -/
inductive Frame
  | array (items : List Tree)
  | object (fields : List (Option String × Tree)) (name : Option String)

/-- What may come next, inside the open frames, innermost first. -/
inductive Machine
  /-- A value. -/
  | value (frames : List Frame)
  /-- The first item of an array, or its end. -/
  | firstItem (frames : List Frame)
  /-- The first name of an object, or its end. -/
  | firstName (frames : List Frame)
  /-- A name, after a comma. -/
  | nextName (fields : List (Option String × Tree)) (frames : List Frame)
  /-- The colon after a name. -/
  | colon (fields : List (Option String × Tree)) (name : Option String) (frames : List Frame)
  /-- A comma or an end, after a value. -/
  | ended (t : Tree) (frames : List Frame)

namespace Machine

/-- The first word of a value. -/
def begin? (frames : List Frame) : Token → Option Machine
  | .null => some (.ended .null frames)
  | .bool b => some (.ended (.bool b) frames)
  | .number n => some (.ended (.number n) frames)
  | .string s => some (.ended (.string s) frames)
  | .openBracket => some (.firstItem frames)
  | .openBrace => some (.firstName frames)
  | _ => none

/-- One word. -/
def step : Machine → Token → Option Machine
  | .value frames, t => begin? frames t
  | .firstItem frames, .closeBracket => some (.ended (.array []) frames)
  | .firstItem frames, t => begin? (.array [] :: frames) t
  | .firstName frames, .closeBrace => some (.ended (.object []) frames)
  | .firstName frames, .string name => some (.colon [] name frames)
  | .nextName fields frames, .string name => some (.colon fields name frames)
  | .colon fields name frames, .colon => some (.value (.object fields name :: frames))
  | .ended t (.array items :: frames), .comma => some (.value (.array (t :: items) :: frames))
  | .ended t (.array items :: frames), .closeBracket =>
    some (.ended (.array (t :: items).reverse) frames)
  | .ended t (.object fields name :: frames), .comma =>
    some (.nextName ((name, t) :: fields) frames)
  | .ended t (.object fields name :: frames), .closeBrace =>
    some (.ended (.object ((name, t) :: fields).reverse) frames)
  | _, _ => none

end Machine

/-- The document that words spell out. -/
def ofTokens? (ts : List Token) : Option Tree :=
  match ts.foldlM Machine.step (.value []) with
  | some (.ended t []) => some t
  | _ => none

/-- The document that a text spells out. -/
def read? (text : String) : Option Tree := (tokens? text.toList).bind ofTokens?

/-! ## From a document to a value -/

/-- How deeply arrays and objects may be nested where a value is kept. -/
def greatestDepth : Nat := 127

mutual

/-- The value of a document, with room for so many nested arrays and objects. A name that an object
repeats has the last of its values. -/
def keep? (room : Nat) : Tree → Option Json
  | .null => some .null
  | .bool b => some (.bool b)
  | .number n => n.map .number
  | .string s => s.map .string
  | .array items =>
    if room = 0 then none else (keepItems? (room - 1) items).map .array
  | .object fields =>
    if room = 0 then none else (keepFields? (room - 1) [] fields).map .object

/-- The values of a list of documents. -/
def keepItems? (room : Nat) : List Tree → Option (List Json)
  | [] => some []
  | item :: rest => do
    let v ← keep? room item
    let vs ← keepItems? room rest
    some (v :: vs)

/-- The fields of an object, added to those before them. -/
def keepFields? (room : Nat) (before : List (String × Json)) :
    List (Option String × Tree) → Option (List (String × Json))
  | [] => some before
  | (name, t) :: rest => do
    let name ← name
    let v ← keep? room t
    keepFields? room (Entries.insert name v before) rest

end

mutual

/-- A value as a document. -/
def ofJson : Json → Tree
  | .null => .null
  | .bool b => .bool b
  | .number n => .number (some n)
  | .string s => .string (some s)
  | .array items => .array (ofItems items)
  | .object fields => .object (ofFields fields)

/-- A list of values as documents. -/
def ofItems : List Json → List Tree
  | [] => []
  | item :: rest => ofJson item :: ofItems rest

/-- Fields of an object as fields of a document. -/
def ofFields : List (String × Json) → List (Option String × Tree)
  | [] => []
  | (name, v) :: rest => (some name, ofJson v) :: ofFields rest

end

end Tree

/-- The value that a text spells out. -/
def read? (text : String) : Option Json :=
  (Tree.read? text).bind (Tree.keep? Tree.greatestDepth)

end SessionReplay.Json
