import SessionReplay.Activity
import SessionReplay.Row.Basic

/-!
# Turns

A turn is a prompt and the work that answers it. The rows at the top level are cut before every
prompt; each piece is a turn. Rows in the group of a delegation belong to the turn of that
delegation alone.

Main statement: `flatten_segments` — cutting loses no row and changes no order.
-/

namespace SessionReplay

/-! ## Models -/

/-- A model and who provides it. -/
structure ModelLabel where
  provider : String
  model : String
deriving DecidableEq, Repr

/-- A change of model. -/
structure ModelChange where
  time : Instant
  label : ModelLabel
deriving DecidableEq, Repr

namespace ModelChange

/-- The changes of model in a timeline. -/
def ofTimeline (timeline : List Entry) : List ModelChange :=
  timeline.filterMap fun e ↦
    match e.payload with
    | .providerChanged provider model => some ⟨e.time, ⟨provider, model⟩⟩
    | _ => none

/-- The latest change; of several at one time the first in the list. -/
def latest? (changes : List ModelChange) : Option ModelChange :=
  changes.foldl (fun best c ↦
    match best with
    | some b => if b.time < c.time then some c else some b
    | none => some c) none

/-- Whether a change lies within a turn, after its start and before the next one. -/
def isWithin (start : Instant) (next : Option Instant) (c : ModelChange) : Bool :=
  start < c.time && next.all fun bound ↦ c.time < bound

/-- The model of a turn: that of the latest change within it, else of the latest one not after its
start. -/
def effective? (changes : List ModelChange) (start : Instant) (next : Option Instant) :
    Option ModelLabel :=
  ((latest? (changes.filter (isWithin start next))).or
    (latest? (changes.filter fun c ↦ c.time ≤ start))).map label

end ModelChange

/-! ## Segments -/

/-- Puts a row before segments: into the first one, unless that begins with a prompt. -/
def addToSegments (r : Row) : List (List Row) → List (List Row)
  | [] => [[r]]
  | segment :: rest =>
    if segment.head?.any Row.isPrompt then [r] :: segment :: rest else (r :: segment) :: rest

/-- Rows cut before every prompt. -/
def segments (rows : List Row) : List (List Row) := rows.foldr addToSegments []

theorem flatten_segments (rows : List Row) : (segments rows).flatten = rows := by
  induction rows with
  | nil => rfl
  | cons r rest ih =>
    have h : segments (r :: rest) = addToSegments r (segments rest) := rfl
    rw [h]
    generalize segments rest = ss at ih
    subst ih
    cases ss with
    | nil => rfl
    | cons segment ss => simp only [addToSegments]; split <;> simp

/-! ## Turns -/

/-- A prompt and the work that answers it, or the work of a delegation. -/
structure Turn where
  id : String
  prompt : Option Row
  messages : List Row
  toolCalls : List Row
  delegations : List Group
  errors : List Row
  /-- The first agent to write a message. -/
  agent : Option String
  start : Instant
  stop : Option Instant
  isActive : Bool
  /-- Whether something went wrong. -/
  errored : Bool
  model : Option ModelLabel

/-- The latest time that one of some rows covers. -/
def latestActivity? (rows : List Row) : Option Instant := (rows.map Row.lastActivity).max?

namespace Turn

/-- The rows of a turn, kind by kind. -/
def rows (t : Turn) : List Row := t.prompt.toList ++ t.messages ++ t.toolCalls ++ t.errors

/-- The latest time that a row of the turn covers; its start if it has no rows. -/
def lastActivity (t : Turn) : Instant := (latestActivity? t.rows).getD t.start

/-- The groups of the delegating calls among some rows. -/
def delegationsOf (groups : Table Group) (rows : List Row) : List Group :=
  (rows.filter Row.delegates).filterMap fun r ↦ groups.get? r.id

/-- A turn with the rows of a segment, filed by kind. -/
def file (groups : Table Group) (id : String) (start : Instant) (rows : List Row) : Turn where
  id
  prompt := rows.find? Row.isPrompt
  messages := rows.filter Row.isMessage
  toolCalls := rows.filter Row.isTool
  delegations := delegationsOf groups rows
  errors := rows.filter Row.isError
  agent := (rows.find? Row.isMessage).map Row.agent
  start
  stop := none
  isActive := false
  errored := rows.any Row.isError
  model := none

/-- A turn that the next one ends. -/
def endAt (t : Turn) (next : Instant) : Turn := { t with stop := some next }

/-- Whether the agent of a turn is thinking, or anybody if the turn has no agent. -/
def isThinking (t : Turn) (activity : Activity) : Bool :=
  match t.agent with
  | some agent => activity.isThinking agent
  | none => activity.isAnyThinking

/-- The last turn: active while its agent is thinking, or while anybody is if it has no agent. -/
def last (t : Turn) (activity : Activity) : Turn :=
  { t with
    isActive := t.isThinking activity
    stop := if t.isThinking activity then none else some t.lastActivity }

/-- Turns, each one ended by the next. -/
def close (changes : List ModelChange) (activity : Activity) : List Turn → List Turn
  | [] => []
  | [t] => [{ t.last activity with model := ModelChange.effective? changes t.start none }]
  | t :: next :: rest =>
    { t.endAt next.start with model := ModelChange.effective? changes t.start (some next.start) } ::
      close changes activity (next :: rest)

/-- The turn of a segment; nothing if it is empty. -/
def ofSegment? (groups : Table Group) : List Row → Option Turn
  | [] => none
  | r :: rest => some (file groups r.id r.time (r :: rest))

/-- The turns of a session's rows. -/
def ofRows (set : RowSet) (changes : List ModelChange) (activity : Activity) : List Turn :=
  close changes activity
    ((segments (set.rows.filter fun r ↦ r.group.isNone)).filterMap (ofSegment? set.groups))

/-- The turn of a delegation. If the group has the rows of its child session, they also say when the
work started and stopped. -/
def ofGroup (groups : Table Group) (g : Group) : Turn :=
  let start := if g.hydrated then (g.rows.head?.map Row.time).getD g.start else g.start
  let stop := if g.hydrated then (latestActivity? g.rows).or g.stop else g.stop
  { file groups g.call start g.rows with
    prompt := none
    agent := g.target
    stop
    isActive := g.isInProgress
    errored := g.status == .failed || g.rows.any Row.isError }

end Turn

end SessionReplay
