import SessionReplay.Delegation.Basic
import SessionReplay.Json.Value
import SessionReplay.Table
import SessionReplay.Text.Basic

/-!
# Rows

A row is one thing on display: a prompt, a message, a tool call or an error. Rows form a forest
through their parents, and the rows that an agent writes while work is delegated to it belong to the
group of that delegation.
-/

namespace SessionReplay

/-- The result of a tool call. -/
structure ToolResult where
  value : Json
  isError : Bool
  time : Instant

namespace ToolResult

/-- The words for a result that says the call is still at work. -/
def unfinishedWords : List String := ["running", "in_progress", "pending", "started"]

/-- How the delegation of a call ends with a result; `none` if the call is still at work. -/
def terminalStatus? (r : ToolResult) : Option Status :=
  if r.isError then some .failed else
  match ((r.value.get? "status").bind Json.string?).map fun s ↦ Text.lower (Text.trim s) with
  | some word =>
    if unfinishedWords.contains word then none
    else if word = "failed" ∨ word = "error" then some .failed
    else some .completed
  | none => some .completed

end ToolResult

/-- A tool call on display. -/
structure ToolCall where
  call : String
  name : Option String
  /-- The arguments; none if the start of the call was never seen. -/
  arguments : Option Json
  /-- Whether the tool delegates. -/
  delegates : Bool
  result : Option ToolResult

/-- What a row shows. -/
inductive Row.Body
  | prompt (text : String)
  | message (content thinking : String) (stream : Option String) (isLive : Bool)
  | tool (t : ToolCall)
  | error (text : String)

/-- One thing on display. -/
structure Row where
  id : String
  session : String
  agent : String
  /-- The number of the first event of the row. -/
  sequence : UInt64
  /-- The time of the first event of the row. -/
  time : Instant
  depth : Nat
  parent : Option String
  /-- The delegation to whose group the row belongs. -/
  group : Option String
  body : Row.Body

namespace Row

/-- Whether a row is a prompt. -/
def isPrompt (r : Row) : Bool := match r.body with
  | .prompt _ => true
  | _ => false

/-- Whether a row is a message. -/
def isMessage (r : Row) : Bool := match r.body with
  | .message .. => true
  | _ => false

/-- Whether a row is an error. -/
def isError (r : Row) : Bool := match r.body with
  | .error _ => true
  | _ => false

/-- The tool call of a row. -/
def tool? (r : Row) : Option ToolCall := match r.body with
  | .tool t => some t
  | _ => none

/-- Whether a row is a tool call. -/
def isTool (r : Row) : Bool := r.tool?.isSome

/-- Whether a row is the tool call of a name. -/
def isCall (r : Row) (call : String) : Bool := r.tool?.any fun t ↦ t.call == call

/-- Whether a row is a tool call that delegates. -/
def delegates (r : Row) : Bool := r.tool?.any ToolCall.delegates

/-- The result of a row's tool call. -/
def result? (r : Row) : Option ToolResult := r.tool?.bind ToolCall.result

/-- A row with a new result of its tool call. -/
def withResult (r : Row) (result : ToolResult) : Row := match r.body with
  | .tool t => { r with body := .tool { t with result := some result } }
  | _ => r

/-- The latest time that a row covers. -/
def lastActivity (r : Row) : Instant := match r.result? with
  | some result => max result.time r.time
  | none => r.time

end Row

/-- A delegation with the rows of its work. -/
structure Group extends Delegation where
  rows : List Row
  /-- Whether the rows are those of the child session itself. -/
  hydrated : Bool

/-- The rows of a session and its groups. -/
structure RowSet where
  rows : List Row
  groups : Table Group

namespace Group

/-- A delegation's group, with the rows of a session that belong to it. -/
def ofRows (rows : List Row) (d : Delegation) : Group :=
  { d with rows := rows.filter fun r ↦ r.group == some d.call, hydrated := false }

/-- A group with the rows of its child session, if that has any. -/
def hydrate? (children : List (String × List Row)) (g : Group) : Option Group :=
  match g.child.bind fun c ↦ children.lookup c with
  | some (r :: rest) => some { g with rows := r :: rest, hydrated := true }
  | _ => none

/-- A group with the rows of its child session, or as it is. -/
def hydrate (children : List (String × List Row)) (g : Group) : Group :=
  (g.hydrate? children).getD g

end Group

end SessionReplay
