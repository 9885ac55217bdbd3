import Mathlib.Data.List.Induction
import SessionReplay.Proofs.Timer.Signals

/-!
# When a reading changes with time

A display reads the timers again and again as long as one of them runs, and stops when none does. So
the timers must not say that nothing runs while a reading still changes, and should not run for
nobody: `SessionTimers.keepsTime_ofTimeline`.

## Waiting and working

An agent that waits for work it has delegated is not at work, `AgentTimer.Rests`. No signal breaks
this: whoever begins to wait is stopped, and who waits is not set to work before the last delegation
is over. It has to be known of the timer before a release, since a release leaves a timer running
that runs.

## The session's stopwatch

The stopwatch of the session is not stopped event by event but once, at the end, and then with the
last event. There is a last event whenever the stopwatch runs, so it is left running only if some
agent is at work.
-/

namespace SessionReplay

/-- Whether an entry is a prompt. -/
def Entry.isPrompt (e : Entry) : Bool := match e.payload with
  | .userPrompt _ => true
  | _ => false

namespace AgentTimer

/-! ## Agents -/

/-- An agent that waits is not at work. -/
def Rests (t : AgentTimer) : Prop := t.isDelegating = true → t.watch.isRunning = false

theorem isDelegating_iff {t : AgentTimer} :
    t.isDelegating = true ↔ ∃ id, t.waitingFor.contains id = true := by
  rw [isDelegating, Bool.not_eq_true', Table.isEmpty_eq_false_iff]

variable {t : AgentTimer}

theorem rests_of_not_isRunning (h : t.watch.isRunning = false) : t.Rests := fun _ ↦ h

theorem Rests.work (h : t.Rests) (now : Instant) : (t.work now).Rests := by
  rw [AgentTimer.work]
  split
  · exact h
  · next hfree => exact fun hwaits ↦ absurd hwaits hfree

theorem Rests.handBack (h : t.Rests) (now : Instant) : (t.handBack now).Rests := by
  rw [AgentTimer.handBack]
  split
  · exact h
  · exact rests_of_not_isRunning (t.watch.isRunning_pause now)

theorem Rests.release (h : t.Rests) (id : String) (now : Instant) : (t.release id now).Rests := by
  rw [AgentTimer.release]
  split
  · next hid =>
    -- the agent waited for this one, so it is at rest now, whatever else it waits for
    have hrest : t.watch.isRunning = false := h (isDelegating_iff.mpr ⟨id, hid⟩)
    have hrests : Rests { t with waitingFor := t.waitingFor.erase id } := fun _ ↦ hrest
    exact hrests.work now
  · exact h

/-- **One signal** sets no agent to work that waits. -/
theorem Rests.heed (h : t.Rests) (now : Instant) (s : Option Signal) : (t.heed now s).Rests := by
  match s with
  | some .work => exact h.work now
  | some .rest => exact rests_of_not_isRunning (t.watch.isRunning_pause now)
  | some .handBack => exact h.handBack now
  | some (.delegate _) => exact rests_of_not_isRunning (t.watch.isRunning_pause now)
  | some (.release id) => exact h.release id now
  | none => exact h

end AgentTimer

namespace SessionTimers

namespace Replay

/-- **Any number of entries** set no agent to work that waits. -/
theorem rests_foldl_step (timeline : List Entry) (name : String) :
    ((timeline.foldl step start).agent name).Rests := by
  induction timeline using List.reverseRecOn with
  | nil => exact AgentTimer.rests_of_not_isRunning rfl
  | append_singleton before e ih =>
    rw [List.foldl_concat, agent_step]
    exact ih.heed e.time _

/-! ## The session -/

variable (r : Replay) (e : Entry)

theorem lastEvent_step : (r.step e).timers.lastEvent = some e.time := by
  rw [step, act]
  cases e.payload with
  | requestEnd reason => dsimp only; split <;> rfl
  | systemError _ => dsimp only; split <;> rfl
  | _ => rfl

private theorem hasStarted_step :
    (r.step e).timers.hasStarted = (e.isPrompt || r.timers.hasStarted) := by
  rw [step, act, Entry.isPrompt]
  cases e.payload with
  | requestEnd reason => dsimp only; split <;> rfl
  | systemError _ => dsimp only; split <;> rfl
  | _ => rfl

private theorem hasStarted_foldl_step (timeline : List Entry) :
    (timeline.foldl step start).timers.hasStarted = timeline.any Entry.isPrompt := by
  induction timeline using List.reverseRecOn with
  | nil => rfl
  | append_singleton before e ih =>
    rw [List.foldl_concat, hasStarted_step, ih, List.any_append, List.any_cons, List.any_nil,
      Bool.or_false, Bool.or_comm]

/-- The session's stopwatch runs only if there was an event. -/
theorem exists_lastEvent {timeline : List Entry}
    (h : (timeline.foldl step start).timers.total.isRunning = true) :
    ∃ last, (timeline.foldl step start).timers.lastEvent = some last := by
  rcases List.eq_nil_or_concat timeline with rfl | ⟨before, e, rfl⟩
  · cases h
  · rw [List.concat_eq_append, List.foldl_concat]
    exact ⟨e.time, lastEvent_step _ e⟩

end Replay

variable {t : SessionTimers}

theorem isAnyRunning_iff :
    t.isAnyRunning = true ↔ ∃ name a, t.agents.get? name = some a ∧ a.watch.isRunning = true := by
  rw [isAnyRunning, List.any_eq_true]
  constructor
  · rintro ⟨a, ha, hruns⟩
    obtain ⟨name, hname⟩ := Table.mem_values_iff.mp ha
    exact ⟨name, a, hname, hruns⟩
  · rintro ⟨name, a, hname, hruns⟩
    exact ⟨a, Table.mem_values_iff.mpr ⟨name, hname⟩, hruns⟩

@[simp] theorem hasStarted_settle (t : SessionTimers) : t.settle.hasStarted = t.hasStarted := by
  rw [settle]
  split
  · rfl
  · split <;> rfl

theorem isAnyRunning_settle (t : SessionTimers) : t.settle.isAnyRunning = t.isAnyRunning := by
  rw [isAnyRunning, agents_settle, isAnyRunning]

/-- A settled stopwatch runs only while an agent is at work. -/
theorem isAnyRunning_of_settle (hlast : t.total.isRunning = true → ∃ last, t.lastEvent = some last)
    (h : t.settle.total.isRunning = true) : t.isAnyRunning = true := by
  rw [settle] at h
  split at h
  · next hany => exact hany
  · split at h
    · cases h
    · next hnone =>
      obtain ⟨last, hsome⟩ := hlast h
      rw [hnone] at hsome
      cases hsome

/-- If nothing runs, the session's time and every agent's are the same at all times. -/
theorem readings_eq (h : t.needsTick = false) (now now' : Instant) :
    t.elapsed now = t.elapsed now' ∧ t.agentElapsed now = t.agentElapsed now' := by
  obtain ⟨htotal, hagents⟩ := Bool.or_eq_false_iff.mp h
  constructor
  · rw [elapsed, elapsed, Stopwatch.elapsed_eq_accumulated htotal,
      Stopwatch.elapsed_eq_accumulated htotal]
  · refine Table.ext_get? fun name ↦ ?_
    rw [agentElapsed, agentElapsed, Table.get?_map, Table.get?_map]
    refine Option.map_congr fun a ha ↦ ?_
    have hrest : a.watch.isRunning = false := by
      refine Bool.eq_false_iff.mpr fun hruns ↦ ?_
      rw [isAnyRunning_iff.mpr ⟨name, a, ha, hruns⟩] at hagents
      cases hagents
    rw [Stopwatch.elapsed_eq_accumulated hrest, Stopwatch.elapsed_eq_accumulated hrest]

/-! ## All timers -/

/-- What the timers of a timeline say of each other. -/
structure KeepsTime (timeline : List Entry) (t : SessionTimers) : Prop where
  /-- An agent that waits for work it has delegated is not at work. -/
  rests : ∀ name a, t.agents.get? name = some a → a.isDelegating = true → a.watch.isRunning = false
  /-- The session starts with the first prompt. -/
  hasStarted_iff : t.hasStarted = true ↔ ∃ e ∈ timeline, e.isPrompt = true
  /-- The session's stopwatch runs for an agent at work. -/
  exists_running : t.total.isRunning = true →
    ∃ name a, t.agents.get? name = some a ∧ a.watch.isRunning = true
  needsTick_iff : t.needsTick = true ↔
    ∃ name a, t.agents.get? name = some a ∧ a.watch.isRunning = true
  /-- Who stops reading when nothing runs misses nothing. -/
  readings_eq : t.needsTick = false → ∀ now now',
    t.elapsed now = t.elapsed now' ∧ t.agentElapsed now = t.agentElapsed now'

/-- **Ticking.** Nobody waits and works, and something runs exactly if somebody works. -/
theorem keepsTime_ofTimeline (timeline : List Entry) :
    (ofTimeline timeline).KeepsTime timeline := by
  have hrunning : (ofTimeline timeline).total.isRunning = true →
      (ofTimeline timeline).isAnyRunning = true := by
    rw [ofTimeline, isAnyRunning_settle]
    exact isAnyRunning_of_settle Replay.exists_lastEvent
  refine ⟨fun name a ha ↦ ?_, ?_, fun h ↦ isAnyRunning_iff.mp (hrunning h), ?_,
    fun h ↦ readings_eq h⟩
  · rw [ofTimeline, agents_settle] at ha
    have hrests := Replay.rests_foldl_step timeline name
    rwa [Replay.agent, ha] at hrests
  · rw [ofTimeline, hasStarted_settle, Replay.hasStarted_foldl_step, List.any_eq_true]
  · rw [← isAnyRunning_iff, needsTick, Bool.or_eq_true]
    exact or_iff_right_of_imp hrunning

end SessionTimers

end SessionReplay
