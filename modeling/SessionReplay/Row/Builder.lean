import SessionReplay.Delegation.Tracker
import SessionReplay.Options
import SessionReplay.Row.Basic
import SessionReplay.Transcript

/-!
# Building rows

Rows are made from a transcript in one pass. A row is added once and never moves; the only thing
that changes afterwards is the result of a tool call.

## Where a row goes

A prompt and an error stand at the top. A message stands under the call of the delegation that
routes its agent, or at the top. A tool call stands under the innermost delegation its agent has
open, else under the agent's latest message if that lies in the same group, else under the call of
the delegation that routes the agent, else at the top.
-/

namespace SessionReplay

/-- Where a row stands. -/
structure Placement where
  depth : Nat
  parent : Option String
  group : Option String

namespace Placement

/-- At the top. -/
def top : Placement := ⟨0, none, none⟩

/-- Under the call of a delegation, in a group. -/
def under (d : Delegation) (group : Option String) : Placement := ⟨d.depth + 1, some d.call, group⟩

end Placement

/-- Rows in the making. -/
structure RowBuilder where
  session : String
  options : Options
  /-- The rows, the last one first. -/
  rows : List Row
  tracker : Tracker

namespace RowBuilder

/-- Before the first row. -/
def start (session : String) (options : Options) : RowBuilder := ⟨session, options, [], .empty⟩

/-- The identifier of a row that is made from an event with a number. -/
def rowId (session : String) (sequence : UInt64) : String :=
  session ++ ":" ++ String.ofList (Nat.toDigits 10 sequence.toNat)

/-- Adds a row. -/
def add (b : RowBuilder) (r : Row) : RowBuilder := { b with rows := r :: b.rows }

/-- A row of this session at a place. -/
def row (b : RowBuilder) (id agent : String) (sequence : UInt64) (time : Instant) (p : Placement)
    (body : Row.Body) : Row :=
  ⟨id, b.session, agent, sequence, time, p.depth, p.parent, p.group, body⟩

/-- The row of a tool call. -/
def call? (b : RowBuilder) (call : String) : Option Row := b.rows.find? fun r ↦ r.isCall call

/-- The latest message of an agent. -/
def latestMessage? (b : RowBuilder) (agent : String) : Option Row :=
  b.rows.find? fun r ↦ r.isMessage && r.agent == agent

/-! ## Places -/

/-- The place of a message. -/
def messagePlace (b : RowBuilder) (agent : String) : Placement :=
  match b.tracker.route? agent with
  | some d => .under d (some d.call)
  | none => .top

/-- The place of a tool call of an agent that has no delegation open; nothing if it has no
anchor. -/
def anchor? (b : RowBuilder) (agent : String) : Option Placement :=
  let routed := b.tracker.route? agent
  let group := routed.map Delegation.call
  match (b.latestMessage? agent).filter fun r ↦ r.group == group with
  | some r => some ⟨r.depth + 1, some r.id, group⟩
  | none => routed.map fun d ↦ .under d group

/-- The place of a tool call; nothing if it has no anchor. -/
def toolPlace? (b : RowBuilder) (agent : String) : Option Placement :=
  match b.tracker.innermost? agent with
  | some d => some (.under d ((b.tracker.route? agent).map Delegation.call))
  | none => b.anchor? agent

/-! ## Steps -/

/-- A message. -/
def message (b : RowBuilder) (m : Message) : RowBuilder :=
  b.add (b.row (rowId b.session m.sequence) m.agent m.sequence m.time (b.messagePlace m.agent)
    (.message m.content m.thinking m.stream m.isLive))

/-- A row at the top, made from an event. -/
def plain (b : RowBuilder) (e : Entry) (body : Row.Body) : RowBuilder :=
  b.add (b.row (rowId b.session e.sequence) e.agent e.sequence e.time .top body)

/-- The start of a tool call. A call that has a row already changes nothing. -/
def toolStart (b : RowBuilder) (e : Entry) (call name : String) (arguments : Json) : RowBuilder :=
  if (b.call? call).isSome then b else
  let place := (b.toolPlace? e.agent).getD .top
  let delegates := b.options.isDelegationTool name
  let r := b.row call e.agent e.sequence e.time place
    (.tool ⟨call, some name, some arguments, delegates, none⟩)
  let tracker :=
    if delegates then b.tracker.opened ⟨call, e.agent, b.options.target? arguments,
      Options.objective? arguments, place.depth, e.time⟩
    else b.tracker
  { b.add r with tracker }

/-- The end of a tool call whose start was not seen: one level down, unless it has an anchor. -/
def orphanEnd (b : RowBuilder) (e : Entry) (call : String) (name : Option String)
    (result : ToolResult) : RowBuilder :=
  b.add (b.row call e.agent e.sequence e.time ((b.anchor? e.agent).getD ⟨1, none, none⟩)
    (.tool ⟨call, name, none, false, some result⟩))

/-- The end of a tool call. If the call delegates and the result is final, its delegation ends. -/
def toolEnd (b : RowBuilder) (e : Entry) (call : String) (name : Option String)
    (result : ToolResult) : RowBuilder :=
  match b.call? call with
  | none => b.orphanEnd e call name result
  | some r =>
    { b with
      rows := b.rows.map fun r ↦ if r.isCall call then r.withResult result else r
      tracker := match r.delegates, result.terminalStatus? with
        | true, some status => b.tracker.finishGroup call ⟨status, e.time, none⟩
        | _, _ => b.tracker }

/-- Tells the tracker. -/
def report (b : RowBuilder) (r : Tracker.Report) : RowBuilder :=
  { b with tracker := b.tracker.step r }

/-- An event that is no part of a message. -/
def event (b : RowBuilder) (e : Entry) : RowBuilder :=
  match e.payload with
  | .userPrompt text => b.plain e (.prompt text)
  | .systemError text => b.plain e (.error text)
  | .toolStart call name arguments => b.toolStart e call name arguments
  | .toolEnd call name value isError => b.toolEnd e call name ⟨value, isError, e.time⟩
  | .delegationRequested id target objective => b.report (.requested ⟨id, target, objective⟩)
  | .delegationCompleted id summary => b.report (.finished id ⟨.completed, e.time, summary⟩)
  | .delegationFailed id error => b.report (.finished id ⟨.failed, e.time, error⟩)
  | .sessionForked child (some id) => b.report (.forked id child)
  | _ => b

/-- One thing of a transcript. -/
def step (b : RowBuilder) : Item → RowBuilder
  | .event e => b.event e
  | .message m => b.message m

/-- The rows in order, and the groups with their rows. -/
def finish (b : RowBuilder) : RowSet :=
  let rows := b.rows.reverse
  ⟨rows, b.tracker.groups.map (Group.ofRows rows)⟩

end RowBuilder

/-- The rows of a session's transcript. -/
def RowSet.ofTranscript (session : String) (options : Options) (items : List Item) : RowSet :=
  (items.foldl RowBuilder.step (.start session options)).finish

end SessionReplay
