import SessionReplay.Instant.Basic
import SessionReplay.Json.Value
import SessionReplay.Text.Basic

/-!
# Events

A session is recorded as a stream of events. Each has a number within its session, may name the
agent it comes from and the instant it happened, and says one thing: a prompt, a piece of an
assistant's message, the start or end of a model request or a tool call, a step in the life of a
delegation, a change of model, or an error.
-/

namespace SessionReplay

/-- What an event says. -/
inductive Payload
  | userPrompt (text : String)
  /-- The stored form of an assistant's message, which ends its stream. -/
  | assistantMessage (stream : Option String) (content : String) (thinking : Option String)
  | contentDelta (stream : Option String) (delta : String)
  | thinkingDelta (stream : Option String) (delta : String)
  | requestStart
  | requestEnd (reason : String)
  | toolStart (call name : String) (arguments : Json)
  | toolEnd (call : String) (name : Option String) (result : Json) (isError : Bool)
  | delegationRequested (delegation : String) (target objective : Option String)
  | delegationCompleted (delegation : String) (summary : Option String)
  | delegationFailed (delegation : String) (error : Option String)
  | sessionForked (child : String) (delegation : Option String)
  | providerChanged (provider model : String)
  /-- An error; of the whole session when the event names no agent. -/
  | systemError (message : String)

/-- One event of a session's stream. -/
structure Event where
  sequence : UInt64
  session : String
  agent : Option String
  time : Option Instant
  payload : Payload

/-- The tag of a payload on the wire. -/
def Payload.tag : Payload → String
  | .userPrompt _ => "user_prompt"
  | .assistantMessage .. => "assistant_message"
  | .contentDelta .. => "assistant_content_delta"
  | .thinkingDelta .. => "assistant_thinking_delta"
  | .requestStart => "llm_request_start"
  | .requestEnd _ => "llm_request_end"
  | .toolStart .. => "tool_call_start"
  | .toolEnd .. => "tool_call_end"
  | .delegationRequested .. => "delegation_requested"
  | .delegationCompleted .. => "delegation_completed"
  | .delegationFailed .. => "delegation_failed"
  | .sessionForked .. => "session_forked"
  | .providerChanged .. => "provider_changed"
  | .systemError _ => "system_error"

/-- The child session that an event names as forked. -/
def Payload.child? : Payload → Option String
  | .sessionForked child _ => some child
  | _ => none

/-- The sessions that events name as forked children. -/
def forkedSessions (events : List Event) : List String := events.filterMap fun e ↦ e.payload.child?

/-! ## Why a request ended -/

/-- Why a model request ended. -/
inductive FinishReason
  | stop
  | toolCalls
  | length
  | error
  | cancelled
  | other
deriving DecidableEq, Repr

namespace FinishReason

/-- The reason that a word names, whatever its case and the blanks around it. -/
def ofText (raw : String) : FinishReason :=
  match Text.lower (Text.trim raw) with
  | "stop" | "end_turn" => .stop
  | "tool_calls" | "tool_use" => .toolCalls
  | "length" | "max_tokens" => .length
  | "error" => .error
  | "cancelled" | "canceled" | "aborted" => .cancelled
  | _ => .other

/-- Whether the agent hands control back to the user. -/
def handsBack : FinishReason → Bool
  | .stop | .error | .cancelled => true
  | _ => false

end FinishReason

/-- Whether a word names a reason that hands control back. -/
def handsBack (reason : String) : Bool := (FinishReason.ofText reason).handsBack

end SessionReplay
