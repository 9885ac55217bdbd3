import SessionReplay.Event.Basic
import SessionReplay.Instant.Rfc3339
import SessionReplay.Json.Printer
import SessionReplay.Json.Record

/-!
# Events on the wire

An event is an object with the fields `sequence`, `session_id`, `agent_id`, `timestamp` and `kind`,
or the list of these in this order. Its `kind` is an object with the fields `type` and `data`, or
the list of these two. The `data` of every kind but one is an object.

When `data` stands before `type`, nothing says yet which of its fields are known, so all of it has
to be a value that can be kept.

## Timestamps

A timestamp is a number of milliseconds, a text that spells such a number, or a date and time in
text. Anything else is no timestamp, which is not a mistake: the event then has no time of its own.
A number that does not fit is the nearest instant; a text that spells such a number is none.
-/

namespace SessionReplay

open Json Json.Tree

/-! ## Timestamps -/

namespace Instant

/-- The instant that a number names, if it fits the word. -/
def ofInt? (n : Int) : Option Instant :=
  if least ≤ n ∧ n ≤ greatest then some (clamp n) else none

/-- The instant that a text names. -/
def ofText? (text : String) : Option Instant :=
  let cs := Text.trimChars text.toList
  ((Decimal.readInt? cs).bind ofInt?).or ((Rfc3339.read? cs).map clamp)

/-- The instant that a value names. -/
def ofJson? : Json → Option Instant
  | .number n => some (clamp n.truncate)
  | .string s => ofText? s
  | _ => none

end Instant

/-! ## Reading -/

namespace Payload

/-- The room for nesting inside the `data` of an event. -/
def dataRoom : Nat := greatestDepth - 3

/-- A value that is kept as it is, in the `data` of an event. -/
def free? (t : Tree) : Option Json := keep? dataRoom t

/-- The payload of a tag with its fields. -/
def ofFields? (tag : String) (fields : List (Option String × Tree)) : Option Payload :=
  match tag with
  | "user_prompt" => do
    some (.userPrompt (← withDefault? fields "text" text? ""))
  | "assistant_message" => do
    some (.assistantMessage (← optional? fields "stream_message_id" text?)
      (← withDefault? fields "content" text? "") (← optional? fields "thinking" text?))
  | "assistant_content_delta" => do
    some (.contentDelta (← optional? fields "stream_message_id" text?)
      (← withDefault? fields "delta" text? ""))
  | "assistant_thinking_delta" => do
    some (.thinkingDelta (← optional? fields "stream_message_id" text?)
      (← withDefault? fields "delta" text? ""))
  | "llm_request_end" => do
    some (.requestEnd (← withDefault? fields "finish_reason" text? ""))
  | "tool_call_start" => do
    some (.toolStart (← required? fields "tool_call_id" text?)
      (← required? fields "tool_name" text?) (← withDefault? fields "arguments" free? .null))
  | "tool_call_end" => do
    some (.toolEnd (← required? fields "tool_call_id" text?) (← optional? fields "tool_name" text?)
      (← withDefault? fields "result" free? .null) (← withDefault? fields "is_error" truth? false))
  | "delegation_requested" => do
    some (.delegationRequested (← required? fields "delegation_id" text?)
      (← optional? fields "target_agent_id" text?) (← optional? fields "objective" text?))
  | "delegation_completed" => do
    some (.delegationCompleted (← required? fields "delegation_id" text?)
      (← optional? fields "summary" text?))
  | "delegation_failed" => do
    some (.delegationFailed (← required? fields "delegation_id" text?)
      (← optional? fields "error" text?))
  | "session_forked" => do
    some (.sessionForked (← required? fields "child_session_id" text?)
      (← optional? fields "delegation_id" text?))
  | "provider_changed" => do
    some (.providerChanged (← withDefault? fields "provider" text? "")
      (← withDefault? fields "model" text? ""))
  | "system_error" => do
    some (.systemError (← withDefault? fields "message" text? ""))
  | _ => none

/-- The payload of a tag with its `data`, which is null for the one tag without fields. -/
def ofParts? (tag : String) (data : Tree) : Option Payload :=
  if tag = "llm_request_start" then
    match data with
    | .null => some .requestStart
    | _ => none
  else (fields? data).bind (ofFields? tag)

/-- The tag, as a text or as an object whose only field, with the value null, has its name. -/
def tag? : Tree → Option String
  | .string s => s
  | .object [(some tag, .null)] => some tag
  | _ => none

/-- Whether `data` stands before `type`. -/
def dataIsFirst (fields : List (Option String × Tree)) : Bool :=
  (fields.find? fun f ↦ f.1 == some "type" || f.1 == some "data").any (·.1 == some "data")

/-- The payload of the `kind` of an event. -/
def ofTree? : Tree → Option Payload
  | .array [tag, data] => do ofParts? (← text? tag) data
  | t => do
    let fields ← fields? t
    let tag ← required? fields "type" tag?
    match ← single? fields "data" with
    | some data =>
      if dataIsFirst fields ∧ (keep? (dataRoom + 1) data).isNone then none else ofParts? tag data
    | none => ofParts? tag .null

end Payload

namespace Event

/-- The time that a `timestamp` names, which has to be a value that can be kept. -/
def time? (t : Tree) : Option (Option Instant) := (keep? (greatestDepth - 1) t).map Instant.ofJson?

/-- The event of a document. -/
def ofTree? : Tree → Option Event
  | .array [sequence, session, agent, timestamp, kind] => do
    some ⟨← word? sequence, ← text? session, ← nullable? text? agent, ← time? timestamp,
      ← Payload.ofTree? kind⟩
  | t => do
    let fields ← fields? t
    some ⟨← required? fields "sequence" word?, ← required? fields "session_id" text?,
      ← optional? fields "agent_id" text?, ← withDefault? fields "timestamp" time? none,
      ← required? fields "kind" Payload.ofTree?⟩

/-- The event that a text spells out. -/
def read? (text : String) : Option Event := (Tree.read? text).bind ofTree?

/-- The event of a value. -/
def ofJson? (j : Json) : Option Event := ofTree? (Tree.ofJson j)

end Event

/-! ## Writing -/

/-- The fields of a payload's `data`; nothing for the one tag without fields. -/
def Payload.dataFields : Payload → Option (List (String × Json))
  | .userPrompt text => some [("text", .string text)]
  | .assistantMessage stream content thinking =>
    some (field? "stream_message_id" .string stream ++ [("content", .string content)] ++
      field? "thinking" .string thinking)
  | .contentDelta stream delta | .thinkingDelta stream delta =>
    some (field? "stream_message_id" .string stream ++ [("delta", .string delta)])
  | .requestStart => none
  | .requestEnd reason => some [("finish_reason", .string reason)]
  | .toolStart call name arguments =>
    some [("tool_call_id", .string call), ("tool_name", .string name), ("arguments", arguments)]
  | .toolEnd call name result isError =>
    some ([("tool_call_id", .string call)] ++ field? "tool_name" .string name ++
      [("result", result), ("is_error", .bool isError)])
  | .delegationRequested delegation target objective =>
    some ([("delegation_id", .string delegation)] ++ field? "target_agent_id" .string target ++
      field? "objective" .string objective)
  | .delegationCompleted delegation summary =>
    some ([("delegation_id", .string delegation)] ++ field? "summary" .string summary)
  | .delegationFailed delegation error =>
    some ([("delegation_id", .string delegation)] ++ field? "error" .string error)
  | .sessionForked child delegation =>
    some ([("child_session_id", .string child)] ++ field? "delegation_id" .string delegation)
  | .providerChanged provider model =>
    some [("provider", .string provider), ("model", .string model)]
  | .systemError message => some [("message", .string message)]

/-- The `kind` of an event with a payload. -/
def Payload.toJson (p : Payload) : Json :=
  .object (("type", .string p.tag) :: field? "data" .object p.dataFields)

/-- An event as a record. What it does not have is left out. -/
def Event.toJson (e : Event) : Json :=
  .object ([("sequence", .int e.sequence.toNat), ("session_id", .string e.session)] ++
    field? "agent_id" .string e.agent ++ field? "timestamp" .instant e.time ++
    [("kind", e.payload.toJson)])

end SessionReplay
