import SessionReplay.Json.Value
import SessionReplay.View

/-!
# Records

What the parts of a view are written as. Every record has its fields in a fixed order. A row leaves
out what it does not have; the other records write null for it.
-/

namespace SessionReplay

/-- A table as an object. -/
def Table.toJson {α : Type} (f : α → Json) (t : Table α) : Json := .object (t.map f).entries

/-- A set of names as an array. -/
def namesJson (s : Names) : Json := .strings s.keys

/-! ## Rows and groups -/

/-- The result of a tool call as a record. -/
def ToolResult.toJson (r : ToolResult) : Json := .object [
  ("value", r.value), ("is_error", .bool r.isError), ("timestamp_ms", .instant r.time)]

namespace Row

/-- The word for the kind of a row. -/
def Body.word : Body → String
  | .prompt _ => "user"
  | .message .. => "assistant"
  | .tool _ => "tool_call"
  | .error _ => "error"

/-- The text of a row. -/
def content (r : Row) : String := match r.body with
  | .prompt text => text
  | .message content _ _ _ => content
  | .tool _ => ""
  | .error text => text

/-- The thinking of a message. -/
def thinking (r : Row) : String := match r.body with
  | .message _ thinking _ _ => thinking
  | _ => ""

/-- The stream of a message. -/
def stream? (r : Row) : Option String := match r.body with
  | .message _ _ stream _ => stream
  | _ => none

/-- Whether a row is a message whose stored form is still to come. -/
def isLive (r : Row) : Bool := match r.body with
  | .message _ _ _ isLive => isLive
  | _ => false

/-- A row as a record. -/
def toJson (r : Row) : Json := .object (
  [("id", .string r.id), ("kind", .string r.body.word), ("session_id", .string r.session),
    ("agent_id", .string r.agent), ("sequence", .int r.sequence.toNat),
    ("timestamp_ms", .instant r.time), ("depth", .int r.depth)] ++
  Json.field? "parent_id" .string r.parent ++
  Json.field? "tool_name" .string (r.tool?.bind ToolCall.name) ++
  Json.field? "tool_call_id" .string (r.tool?.map ToolCall.call) ++
  Json.field? "arguments" (fun a ↦ a) (r.tool?.bind ToolCall.arguments) ++
  [("is_delegate_call", .bool r.delegates)] ++
  Json.field? "delegation_group_id" .string r.group ++
  [("content", .string r.content)] ++
  Json.field? "thinking" .string (if r.thinking = "" then none else some r.thinking) ++
  Json.field? "stream_message_id" .string r.stream? ++
  [("is_live", .bool r.isLive)] ++
  Json.field? "result" ToolResult.toJson r.result?)

end Row

/-- Rows as an array. -/
def rowsJson (rows : List Row) : Json := .array (rows.map Row.toJson)

/-- A group as a record. -/
def Group.toJson (g : Group) : Json := .object [
  ("id", .string g.call), ("delegating_tool_call_id", .string g.call),
  ("delegating_agent_id", .string g.agent), ("delegation_id", .orNull .string g.delegation),
  ("target_agent_id", .orNull .string g.target), ("objective", .orNull .string g.objective),
  ("child_session_id", .orNull .string g.child), ("status", .string g.status.word),
  ("start_time_ms", .instant g.start), ("end_time_ms", .orNull .instant g.stop),
  ("outcome", .orNull .string g.outcome), ("depth", .int g.depth), ("child_rows", rowsJson g.rows),
  ("hydrated", .bool g.hydrated)]

/-! ## Turns -/

/-- A model as a record. -/
def ModelLabel.toJson (m : ModelLabel) : Json := .object [
  ("provider", .string m.provider), ("model", .string m.model)]

/-- A turn as a record. -/
def Turn.toJson (t : Turn) : Json := .object [
  ("id", .string t.id), ("user_message", .orNull Row.toJson t.prompt),
  ("agent_messages", rowsJson t.messages), ("tool_calls", rowsJson t.toolCalls),
  ("delegations", .array (t.delegations.map Group.toJson)), ("errors", rowsJson t.errors),
  ("agent_id", .orNull .string t.agent), ("start_time_ms", .instant t.start),
  ("end_time_ms", .orNull .instant t.stop), ("is_active", .bool t.isActive),
  ("errored", .bool t.errored), ("model", .orNull ModelLabel.toJson t.model)]

/-- Turns as an array. -/
def turnsJson (turns : List Turn) : Json := .array (turns.map Turn.toJson)

/-! ## Timers and activity -/

/-- The fields of a stopwatch. -/
def Stopwatch.fields (w : Stopwatch) : List (String × Json) := [
  ("accumulated_ms", .instant w.accumulated), ("running_since_ms", .orNull .instant w.runningSince)]

/-- An agent's timer as a record. -/
def AgentTimer.toJson (t : AgentTimer) : Json := .object (
  t.watch.fields ++ [("open_delegation_ids", namesJson t.waitingFor)])

/-- The timers of a session as a record. -/
def SessionTimers.toJson (t : SessionTimers) : Json := .object [
  ("global", .object (("has_started", .bool t.hasStarted) :: t.total.fields)),
  ("agents", t.agents.toJson AgentTimer.toJson),
  ("last_event_ms", .orNull .instant t.lastEvent)]

/-- Who is at work, as a record. -/
def Activity.toJson (a : Activity) : Json := .object [
  ("thinking_agents", namesJson a.thinking), ("conversation_complete", .bool a.isComplete)]

/-! ## The view -/

/-- A view as a record. -/
def SessionView.toJson (v : SessionView) : Json := .object [
  ("session_id", .string v.session), ("rows", rowsJson v.rows),
  ("delegation_groups", v.groups.toJson Group.toJson), ("turns", turnsJson v.turns),
  ("timers", v.timers.toJson), ("activity", v.activity.toJson),
  ("high_water", .orNull (fun n ↦ .int n.toNat) v.highWater)]

end SessionReplay
