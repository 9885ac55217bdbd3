import SessionReplay.Proofs.Table
import SessionReplay.Timer

/-!
# What an entry tells an agent

A replay moves the timers of all agents along one timeline. Seen from one agent, an entry is one of
five signals or nothing at all, and the agent's timer heeds it without a look at the others:
`Replay.agent_step`. Whom an entry is for is settled there once. A release is for the agent that
requested the delegation, an error without an agent is for everyone, and all else is for the agent
of the entry.

## Clocks do not jump

Whatever an agent is told, its time at that very moment is what it was: a period is opened with
nothing in it, and closed at what it shows. So a reading never jumps when an event comes in,
`SessionTimers.elapsedOf_concat`, and this does not depend on the order of the times.

## Agents without a timer

An entry makes a timer for its agent only if it sets it to work or lets it wait. An agent without a
timer is taken to have one that stands at zero, and for such a timer the other signals change
nothing.
-/

namespace SessionReplay

namespace Instant

private theorem plus_zero (a : Instant) : plus a 0 = a := by
  rw [plus, Int64.toInt_zero, Int.add_zero, clamp_toInt]

theorem span_self (t : Instant) : span t t = 0 := by
  refine Int64.toInt_inj.mp ?_
  rw [toInt_span, Int.sub_self, Int64.toInt_zero]
  rfl

end Instant

namespace Stopwatch

/-- A period that is just being opened has nothing in it. -/
theorem elapsed_start (w : Stopwatch) (now : Instant) :
    (w.start now).elapsed now = w.elapsed now := by
  rw [elapsed, elapsed, start]
  cases w.runningSince with
  | none => exact (congrArg _ (Instant.span_self now)).trans (Instant.plus_zero _)
  | some since => rfl

/-- A stopwatch that was stopped shows what it showed then. -/
@[simp] theorem elapsed_pause (w : Stopwatch) (stop now : Instant) :
    (w.pause stop).elapsed now = w.elapsed stop := rfl

@[simp] theorem isRunning_start (w : Stopwatch) (now : Instant) :
    (w.start now).isRunning = true := by
  rw [isRunning, start, Option.isSome_or, Option.isSome_some, Bool.or_true]

@[simp] theorem isRunning_pause (w : Stopwatch) (now : Instant) :
    (w.pause now).isRunning = false := rfl

/-- A stopwatch that does not run shows the same at all times. -/
theorem elapsed_eq_accumulated {w : Stopwatch} (h : w.isRunning = false) (now : Instant) :
    w.elapsed now = w.accumulated := by
  rw [isRunning, Option.isSome_eq_false_iff, Option.isNone_iff_eq_none] at h
  rw [elapsed, h]

end Stopwatch

namespace AgentTimer

/-! ## Signals -/

/-- What an entry may tell an agent. -/
inductive Signal
  | work
  | rest
  | handBack
  | delegate (id : String)
  | release (id : String)

/-- A timer after a signal, or after none. -/
def heed (t : AgentTimer) (now : Instant) : Option Signal → AgentTimer
  | some .work => t.work now
  | some .rest => t.rest now
  | some .handBack => t.handBack now
  | some (.delegate id) => t.delegate id now
  | some (.release id) => t.release id now
  | none => t

private theorem elapsed_work (t : AgentTimer) (now : Instant) :
    (t.work now).watch.elapsed now = t.watch.elapsed now := by
  rw [work]
  split
  · rfl
  · exact t.watch.elapsed_start now

/-- **No signal changes a timer's time** at the moment it comes. -/
theorem elapsed_heed (t : AgentTimer) (now : Instant) (s : Option Signal) :
    (t.heed now s).watch.elapsed now = t.watch.elapsed now := by
  match s with
  | some .work => exact t.elapsed_work now
  | some .rest => exact t.watch.elapsed_pause now now
  | some .handBack =>
    rw [heed, handBack]
    split <;> rfl
  | some (.delegate _) => exact t.watch.elapsed_pause now now
  | some (.release id) =>
    rw [heed, release]
    split
    · exact elapsed_work { t with waitingFor := t.waitingFor.erase id } now
    · rfl
  | none => rfl

private theorem rest_zero (now : Instant) : zero.rest now = zero := rfl

private theorem handBack_zero (now : Instant) : zero.handBack now = zero := rfl

private theorem release_zero (id : String) (now : Instant) : zero.release id now = zero := rfl

end AgentTimer

namespace SessionTimers

namespace Replay

open AgentTimer (Signal)

variable (r : Replay) (e : Entry) (name : String)

/-- What an entry tells an agent, if anything. -/
def signal? : Option Signal :=
  match e.payload with
  | .userPrompt _ => if e.agent = name then some .work else none
  | .requestStart => if e.agent = name then some .work else none
  | .delegationRequested id _ _ => if e.agent = name then some (.delegate id) else none
  | .delegationCompleted id _ =>
    if (r.owners.get? id).getD e.agent = name then some (.release id) else none
  | .delegationFailed id _ =>
    if (r.owners.get? id).getD e.agent = name then some (.release id) else none
  | .requestEnd reason => if handsBack reason = true ∧ e.agent = name then some .handBack else none
  | .systemError _ => if e.namesAgent = true → e.agent = name then some .rest else none
  | _ => none

/-! ## One agent -/

private theorem agent_move (who : String) (f : AgentTimer → AgentTimer) :
    (r.move who f).agent name = if who = name then f (r.agent name) else r.agent name := by
  rw [move, withAgents, agent, Table.get?_insert]
  split
  · next h => rw [if_pos h.symm, h]; rfl
  · next h => rw [if_neg (Ne.symm h)]; rfl

/-- A timer that is not there counts as one at zero, as long as zero stays zero. -/
theorem agent_moveKnown (who : String) (f : AgentTimer → AgentTimer) (hf : f .zero = .zero) :
    (r.moveKnown who f).agent name = if who = name then f (r.agent name) else r.agent name := by
  rw [moveKnown, withAgents, agent, Table.get?_modify, agent]
  split
  · next h =>
    rw [if_pos h.symm, h]
    cases r.timers.agents.get? who with
    | none => exact hf.symm
    | some t => rfl
  · next h => rw [if_neg (Ne.symm h)]

private theorem agent_moveAll (f : AgentTimer → AgentTimer) (hf : f .zero = .zero) :
    (r.withAgents (r.timers.agents.map f)).agent name = f (r.agent name) := by
  rw [withAgents, agent, Table.get?_map, agent]
  cases r.timers.agents.get? name with
  | none => exact hf.symm
  | some t => rfl

theorem heed_ite {p : Prop} [Decidable p] (t : AgentTimer) (now : Instant) (s : Signal) :
    t.heed now (if p then some s else none) = if p then t.heed now (some s) else t := by
  split <;> rfl

private theorem agent_release (who id : String) (now : Instant) :
    (r.release who id now).agent name = (r.agent name).heed now
      (if (r.owners.get? id).getD who = name then some (.release id) else none) := by
  rw [heed_ite]
  exact agent_moveKnown _ _ _ _ (AgentTimer.release_zero id now)

/-- **One entry** moves the timer of an agent by what it tells that agent. -/
theorem agent_step : (r.step e).agent name = (r.agent name).heed e.time (r.signal? e name) := by
  rw [step, act, signal?]
  cases e.payload with
  | userPrompt _ => exact (agent_move _ _ _ _).trans (heed_ite _ _ .work).symm
  | requestStart => exact (agent_move _ _ _ _).trans (heed_ite _ _ .work).symm
  | delegationRequested id _ _ =>
    exact (agent_move _ _ _ _).trans (heed_ite _ _ (.delegate id)).symm
  | delegationCompleted id _ => exact agent_release _ _ _ id _
  | delegationFailed id _ => exact agent_release _ _ _ id _
  | requestEnd reason =>
    dsimp only
    rw [heed_ite, ite_and, apply_ite (fun r : Replay ↦ r.agent name),
      agent_moveKnown _ _ _ (·.handBack e.time) (AgentTimer.handBack_zero e.time)]
    rfl
  | systemError _ =>
    dsimp only
    cases e.namesAgent with
    | false =>
      rw [if_neg Bool.false_ne_true, if_pos fun h ↦ absurd h Bool.false_ne_true]
      exact agent_moveAll _ _ _ (AgentTimer.rest_zero e.time)
    | true =>
      rw [if_pos rfl, agent_moveKnown _ _ _ (·.rest e.time) (AgentTimer.rest_zero e.time), heed_ite]
      simp only [forall_const]
      rfl
  | _ => rfl

end Replay

/-! ## Reading a timer -/

/-- The time of an agent, if it is now `now`; an agent without a timer has none. -/
def elapsedOf (t : SessionTimers) (name : String) (now : Instant) : Instant :=
  ((t.agentElapsed now).get? name).getD 0

/-- The session's stopwatch is settled after all agents. -/
@[simp] theorem agents_settle (t : SessionTimers) : t.settle.agents = t.agents := by
  rw [settle]
  split
  · rfl
  · split <;> rfl

theorem elapsedOf_ofTimeline (timeline : List Entry) (name : String) (now : Instant) :
    (ofTimeline timeline).elapsedOf name now
      = ((timeline.foldl Replay.step .start).agent name).watch.elapsed now := by
  rw [elapsedOf, agentElapsed, ofTimeline, agents_settle, Table.get?_map, Replay.agent]
  cases (timeline.foldl Replay.step .start).timers.agents.get? name <;> rfl

/-- **No jumps.** An event changes no agent's time at the moment it comes in. -/
theorem elapsedOf_concat (timeline : List Entry) (e : Entry) (name : String) :
    (ofTimeline (timeline ++ [e])).elapsedOf name e.time
      = (ofTimeline timeline).elapsedOf name e.time := by
  rw [elapsedOf_ofTimeline, elapsedOf_ofTimeline, List.foldl_concat, Replay.agent_step]
  exact AgentTimer.elapsed_heed _ _ _

end SessionTimers

end SessionReplay
