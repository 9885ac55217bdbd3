import SessionReplay.Activity
import SessionReplay.Proofs.Timer.Ticking

/-!
# Thinking agents have busy timers

Who is thinking and what the timers show are read off the same timeline by two separate passes. The
passes agree on the signals: what sets an agent to work makes it think, and what stops it ends the
thought, `Activity.Trace.contains_step`. They differ on delegations, which stop a timer and are
nothing to a thinking agent. So an agent that thinks need not be at work, but then it waits:
`SessionTimers.agreesWith_ofTimeline`.

## Why handing back is no exception

An agent that hands back while it waits keeps its timer as it is, and no longer thinks. So the timer
may be busy for an agent that does not think, and only one direction holds.
-/

namespace SessionReplay

namespace AgentTimer

/-- Whether an agent is at work or waits for work it has delegated. -/
def isBusy (t : AgentTimer) : Bool := t.watch.isRunning || t.isDelegating

variable {t : AgentTimer}

theorem isBusy_iff : t.isBusy = true ↔ t.watch.isRunning = true ∨ t.isDelegating = true :=
  Bool.or_eq_true_iff

theorem isBusy_work (t : AgentTimer) (now : Instant) : (t.work now).isBusy = true := by
  rw [isBusy_iff, work]
  split
  · next hwaits => exact Or.inr hwaits
  · exact Or.inl (t.watch.isRunning_start now)

private theorem isBusy_delegate (t : AgentTimer) (id : String) (now : Instant) :
    (t.delegate id now).isBusy = true :=
  isBusy_iff.mpr (Or.inr (isDelegating_iff.mpr
    ⟨id, (Table.contains_insert_iff _ _ _ _).mpr (Or.inl rfl)⟩))

private theorem isBusy_release (h : t.isBusy = true) (id : String) (now : Instant) :
    (t.release id now).isBusy = true := by
  rw [release]
  split
  · exact isBusy_work _ now
  · exact h

/-- Whether an agent thinks after a signal; nothing if that stays as it was. -/
def Signal.thinking? : Signal → Option Bool
  | .work => some true
  | .rest => some false
  | .handBack => some false
  | .delegate _ => none
  | .release _ => none

/-- **One signal.** If only busy agents think before it, only busy agents think after it. -/
theorem isBusy_heed {thinks : Bool} (h : thinks = true → t.isBusy = true) (now : Instant)
    (s : Option Signal) (hs : (s.bind Signal.thinking?).getD thinks = true) :
    (t.heed now s).isBusy = true := by
  match s with
  | some .work => exact t.isBusy_work now
  | some .rest => cases hs
  | some .handBack => cases hs
  | some (.delegate id) => exact t.isBusy_delegate id now
  | some (.release id) => exact isBusy_release (h hs) id now
  | none => exact h hs

end AgentTimer

open AgentTimer (Signal)
open SessionTimers (Replay)

namespace Activity.Trace

variable (t : Trace) (r : Replay) (e : Entry) (name : String)

private theorem contains_think (agent : String) :
    (t.think agent).thinking.contains name
      = ((if agent = name then some Signal.work else none).bind Signal.thinking?).getD
        (t.thinking.contains name) := by
  rw [think, Table.contains_insert]
  split
  · next h => rw [h, BEq.rfl, Bool.true_or]; rfl
  · next h => rw [beq_false_of_ne (Ne.symm h), Bool.false_or]; rfl

private theorem contains_erase (agent : String) {s : Signal} (hs : s.thinking? = some false) :
    (t.thinking.erase agent).contains name
      = ((if agent = name then some s else none).bind Signal.thinking?).getD
        (t.thinking.contains name) := by
  split
  · next h => rw [h, Table.contains_erase_self, Option.bind_some, hs, Option.getD_some]
  · next h => exact Table.contains_erase_of_ne _ (Ne.symm h)

/-- **One entry** makes an agent think, or ends its thought, by what it tells the agent's timer. -/
theorem contains_step : (t.step e).thinking.contains name
    = ((r.signal? e name).bind Signal.thinking?).getD (t.thinking.contains name) := by
  rw [step, Replay.signal?]
  cases e.payload with
  | userPrompt _ => exact contains_think _ name e.agent
  | requestStart => exact t.contains_think name e.agent
  | delegationRequested _ _ _ => dsimp only; split <;> rfl
  | delegationCompleted _ _ => dsimp only; split <;> rfl
  | delegationFailed _ _ => dsimp only; split <;> rfl
  | requestEnd reason =>
    dsimp only
    cases handsBack reason with
    | false =>
      rw [if_neg Bool.false_ne_true, if_neg fun h ↦ Bool.false_ne_true h.1]
      rfl
    | true =>
      simp only [true_and]
      exact t.contains_erase name e.agent (s := .handBack) rfl
  | systemError _ =>
    dsimp only
    cases e.namesAgent with
    | false =>
      rw [if_neg Bool.false_ne_true, if_pos fun h ↦ absurd h Bool.false_ne_true]
      rfl
    | true =>
      simp only [forall_const]
      exact t.contains_erase name e.agent (s := .rest) rfl
  | _ => rfl

/-- **Any number of entries.** Only busy agents think. -/
theorem isBusy_of_contains (timeline : List Entry) (name : String)
    (h : (timeline.foldl step start).thinking.contains name = true) :
    ((timeline.foldl Replay.step .start).agent name).isBusy = true := by
  induction timeline using List.reverseRecOn with
  | nil => cases h
  | append_singleton before e ih =>
    rw [List.foldl_concat, contains_step _ (before.foldl Replay.step .start)] at h
    rw [List.foldl_concat, Replay.agent_step]
    exact AgentTimer.isBusy_heed ih e.time _ h

end Activity.Trace

namespace SessionTimers

variable {timeline : List Entry} {name : String}

/-- A busy agent has a timer of its own, since a timer at zero is not busy. -/
theorem exists_of_isBusy (h : ((timeline.foldl Replay.step .start).agent name).isBusy = true) :
    ∃ a, (ofTimeline timeline).agents.get? name = some a ∧
      (a.watch.isRunning = true ∨ a.isDelegating = true) := by
  rw [Replay.agent] at h
  rw [ofTimeline, agents_settle]
  cases ha : (timeline.foldl Replay.step .start).timers.agents.get? name with
  | none =>
    rw [ha] at h
    cases h
  | some a =>
    rw [ha] at h
    exact ⟨a, rfl, AgentTimer.isBusy_iff.mp h⟩

/-- The timers agree with what is known of who is thinking. -/
structure AgreesWith (t : SessionTimers) (activity : Activity) : Prop where
  /-- An agent that thinks is at work, or waits for work it has delegated. -/
  busy : ∀ name, activity.isThinking name = true →
    ∃ a, t.agents.get? name = some a ∧ (a.watch.isRunning = true ∨ a.isDelegating = true)
  /-- While a session is at work, so is some agent, or it waits. -/
  exists_busy : activity.isActive = true →
    ∃ name a, t.agents.get? name = some a ∧ (a.watch.isRunning = true ∨ a.isDelegating = true)

/-- **Agreement.** The timers of a timeline agree with the activity of the same timeline. -/
theorem agreesWith_ofTimeline (timeline : List Entry) :
    (ofTimeline timeline).AgreesWith (Activity.ofTimeline timeline) := by
  have hbusy : ∀ name, (Activity.ofTimeline timeline).isThinking name = true →
      ∃ a, (ofTimeline timeline).agents.get? name = some a ∧
        (a.watch.isRunning = true ∨ a.isDelegating = true) := fun name hthinks ↦
    exists_of_isBusy (Activity.Trace.isBusy_of_contains timeline name hthinks)
  refine ⟨hbusy, fun hactive ↦ ?_⟩
  have hany := (Bool.and_eq_true_iff.mp hactive).1
  rw [Activity.isAnyThinking, Bool.not_eq_true', Table.isEmpty_eq_false_iff] at hany
  obtain ⟨name, hname⟩ := hany
  exact ⟨name, hbusy name hname⟩

end SessionTimers

end SessionReplay
