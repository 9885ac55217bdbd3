import SessionReplay.Table
import SessionReplay.Timeline

/-!
# Timers

Every agent has a stopwatch that runs while the agent is at work: from a prompt or a model request
until the agent hands back, fails, or waits for work it has delegated. The session has one more,
which runs from the first prompt on.

## Time as data

Stopwatches are wound forward by the times of events alone, so a replay is a function of the
timeline. Only reading a stopwatch that still runs needs the present, and that is an argument of
`Stopwatch.elapsed`.
-/

namespace SessionReplay

/-- A stopwatch. -/
structure Stopwatch where
  /-- The time of all closed periods. -/
  accumulated : Instant
  /-- The start of the open period. -/
  runningSince : Option Instant
deriving DecidableEq, Repr

namespace Stopwatch

/-- A stopwatch that was never started. -/
def zero : Stopwatch := ⟨0, none⟩

/-- Whether a period is open. -/
def isRunning (w : Stopwatch) : Bool := w.runningSince.isSome

/-- The time of all periods, if it is now `now`. -/
def elapsed (w : Stopwatch) (now : Instant) : Instant :=
  match w.runningSince with
  | some since => w.accumulated.plus (Instant.span since now)
  | none => w.accumulated

/-- Opens a period, unless one is open. -/
def start (w : Stopwatch) (now : Instant) : Stopwatch :=
  { w with runningSince := w.runningSince.or (some now) }

/-- Closes the open period, if there is one. -/
def pause (w : Stopwatch) (now : Instant) : Stopwatch := ⟨w.elapsed now, none⟩

end Stopwatch

/-- The timer of an agent. -/
structure AgentTimer where
  watch : Stopwatch
  /-- The delegations that the agent waits for. -/
  waitingFor : Names
deriving DecidableEq

namespace AgentTimer

/-- The timer of an agent that did nothing yet. -/
def zero : AgentTimer := ⟨.zero, .empty⟩

/-- Whether the agent waits for work it has delegated. -/
def isDelegating (t : AgentTimer) : Bool := !t.waitingFor.isEmpty

/-- The agent goes to work, unless it waits. -/
def work (t : AgentTimer) (now : Instant) : AgentTimer :=
  if t.isDelegating then t else { t with watch := t.watch.start now }

/-- The agent rests, whatever it waits for. -/
def rest (t : AgentTimer) (now : Instant) : AgentTimer := { t with watch := t.watch.pause now }

/-- The agent hands back, unless it waits. -/
def handBack (t : AgentTimer) (now : Instant) : AgentTimer :=
  if t.isDelegating then t else t.rest now

/-- The agent delegates and waits. -/
def delegate (t : AgentTimer) (id : String) (now : Instant) : AgentTimer :=
  { t.rest now with waitingFor := t.waitingFor.insert id () }

/-- A delegation is over; when it was the last one that the agent waited for, the agent goes on. -/
def release (t : AgentTimer) (id : String) (now : Instant) : AgentTimer :=
  if t.waitingFor.contains id then { t with waitingFor := t.waitingFor.erase id }.work now else t

end AgentTimer

/-- The timers of a session. -/
structure SessionTimers where
  /-- Whether there was a prompt. -/
  hasStarted : Bool
  /-- The stopwatch of the whole session. -/
  total : Stopwatch
  agents : Table AgentTimer
  /-- The time of the last event. -/
  lastEvent : Option Instant
deriving DecidableEq

namespace SessionTimers

/-- The session's time, if it is now `now`. -/
def elapsed (t : SessionTimers) (now : Instant) : Instant := t.total.elapsed now

/-- The time of every agent, if it is now `now`. -/
def agentElapsed (t : SessionTimers) (now : Instant) : Table Instant :=
  t.agents.map fun a ↦ a.watch.elapsed now

/-- Whether an agent is at work. -/
def isAnyRunning (t : SessionTimers) : Bool := t.agents.values.any fun a ↦ a.watch.isRunning

/-- Whether a reading would change with time. -/
def needsTick (t : SessionTimers) : Bool := t.total.isRunning || t.isAnyRunning

/-! ## Replay -/

/-- The timers in the middle of a timeline. -/
structure Replay where
  timers : SessionTimers
  /-- The agent that requested each delegation. -/
  owners : Table String
deriving DecidableEq

namespace Replay

/-- Before the first event. -/
def start : Replay := ⟨⟨false, .zero, .empty, none⟩, .empty⟩

/-- The timer of an agent; one that did nothing yet stands at zero. -/
def agent (r : Replay) (name : String) : AgentTimer := (r.timers.agents.get? name).getD .zero

/-- New timers for the agents. -/
def withAgents (r : Replay) (agents : Table AgentTimer) : Replay :=
  { r with timers := { r.timers with agents } }

/-- An agent's timer, which is made if there is none, moves on. -/
def move (r : Replay) (name : String) (f : AgentTimer → AgentTimer) : Replay :=
  r.withAgents (r.timers.agents.insert name (f (r.agent name)))

/-- An agent's timer moves on, if there is one. -/
def moveKnown (r : Replay) (name : String) (f : AgentTimer → AgentTimer) : Replay :=
  r.withAgents (r.timers.agents.modify name f)

/-- The session's stopwatch is started. -/
def begin (r : Replay) (now : Instant) : Replay :=
  { r with timers := { r.timers with hasStarted := true, total := r.timers.total.start now } }

/-- A delegation is over: the agent that requested it, else the one that says so, is released. -/
def release (r : Replay) (name id : String) (now : Instant) : Replay :=
  { r with owners := r.owners.erase id }.moveKnown ((r.owners.get? id).getD name)
    fun t ↦ t.release id now

/-- What the payload of an entry does to the timers. -/
def act (r : Replay) (e : Entry) : Replay :=
  match e.payload with
  | .userPrompt _ => (r.begin e.time).move e.agent fun t ↦ t.work e.time
  | .requestStart => r.move e.agent fun t ↦ t.work e.time
  | .delegationRequested id _ _ =>
    { r with owners := r.owners.insert id e.agent }.move e.agent fun t ↦ t.delegate id e.time
  | .delegationCompleted id _ => r.release e.agent id e.time
  | .delegationFailed id _ => r.release e.agent id e.time
  | .requestEnd reason =>
    if handsBack reason then r.moveKnown e.agent fun t ↦ t.handBack e.time else r
  | .systemError _ =>
    if e.namesAgent then r.moveKnown e.agent fun t ↦ t.rest e.time
    else r.withAgents (r.timers.agents.map fun t ↦ t.rest e.time)
  | _ => r

/-- Takes in an entry. -/
def step (r : Replay) (e : Entry) : Replay :=
  { r with timers := { r.timers with lastEvent := some e.time } }.act e

end Replay

/-- The session's stopwatch stops with the last event when no agent is at work. -/
def settle (t : SessionTimers) : SessionTimers :=
  if t.isAnyRunning then t
  else match t.lastEvent with
    | some last => { t with total := t.total.pause last }
    | none => t

/-- The timers at the end of a timeline. -/
def ofTimeline (timeline : List Entry) : SessionTimers :=
  (timeline.foldl Replay.step .start).timers.settle

end SessionTimers

end SessionReplay
