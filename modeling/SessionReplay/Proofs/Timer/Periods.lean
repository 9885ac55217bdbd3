import Mathlib.Algebra.Order.BigOperators.Group.List
import Mathlib.Algebra.Order.Ring.Int
import SessionReplay.Proofs.Timer.Signals

/-!
# What a timer shows

A stopwatch holds one sum and the start of the open period. The sum is cut off at the greatest
instant each time a period is closed, and the length of a period is cut off as well. Nothing is lost
by that but at the very end: a timer shows the sum of all its periods as whole numbers of any size,
cut off once, `SessionTimers.toInt_elapsedOf`.

## Why cutting off early does no harm

A clock that runs backwards makes a period empty and never negative, so sums only grow, and a sum
that has reached the greatest instant stays there, `Instant.toInt_plus_span`. That needs the sum
before it not to be negative, which every replay keeps: `Replay.accumulated_nonneg`.
-/

namespace SessionReplay

/-! ## Periods -/

/-- A period in which an agent is at work. -/
structure Period where
  start : Instant
  stop : Instant
deriving DecidableEq

/-- The length of a period as a number of any size; nothing if it stops before it starts. -/
def Period.length (p : Period) : Int := max 0 (p.stop.toInt - p.start.toInt)

/-- Whether an agent is at work from an instant on. -/
structure Mark where
  time : Instant
  atWork : Bool

namespace Mark

/-- When a period stops: at the first mark from which on the agent is not at work, or now. -/
def stop (now : Instant) (marks : List Mark) : Instant :=
  ((marks.find? fun m ↦ !m.atWork).map time).getD now

/-- The periods that start at some marks, after a mark that says whether the agent was at work. A
period starts where the agent is at work and was not. -/
def periods (now : Instant) : Bool → List Mark → List Period
  | _, [] => []
  | wasAtWork, m :: rest =>
    if m.atWork && !wasAtWork then ⟨m.time, stop now rest⟩ :: periods now true rest
    else periods now m.atWork rest

example : periods 9 false [⟨1, true⟩, ⟨2, true⟩, ⟨4, false⟩, ⟨4, false⟩, ⟨7, true⟩]
    = [⟨1, 4⟩, ⟨7, 9⟩] := by decide

end Mark

namespace SessionTimers

/-- Whether an agent is at work. -/
def isAtWork (t : SessionTimers) (name : String) : Bool :=
  (t.agents.get? name).any fun a ↦ a.watch.isRunning

/-- For each entry of a timeline, after some others, whether an agent is at work from then on. -/
def marks (name : String) (before : List Entry) : List Entry → List Mark
  | [] => []
  | e :: rest =>
    ⟨e.time, (ofTimeline (before ++ [e])).isAtWork name⟩ :: marks name (before ++ [e]) rest

/-- The periods of an agent in a timeline, if it is now `now`. Each one goes from an entry that sets
the agent to work to the next one that stops it. -/
def periods (timeline : List Entry) (name : String) (now : Instant) : List Period :=
  Mark.periods now false (marks name [] timeline)

end SessionTimers

/-! ## Sums -/

theorem Period.length_nonneg (p : Period) : 0 ≤ p.length := Int.le_max_left _ _

theorem sum_length_nonneg (ps : List Period) : 0 ≤ (ps.map Period.length).sum := by
  refine List.sum_nonneg fun n hn ↦ ?_
  obtain ⟨p, -, rfl⟩ := List.mem_map.mp hn
  exact p.length_nonneg

/-- A period added to a sum, all cut off, is the sum of the two cut off once. -/
theorem Instant.toInt_plus_span {a : Instant} (ha : 0 ≤ a.toInt) (start stop : Instant) :
    (plus a (span start stop)).toInt = min greatest (a.toInt + (Period.mk start stop).length) := by
  have hle := toInt_le_greatest a
  rw [toInt_plus, toInt_span, Period.length]
  simp only [least, greatest] at hle ⊢
  omega

namespace Stopwatch

/-- The length of the open period, if it stops at a given time. -/
def openLength (w : Stopwatch) (stop : Instant) : Int :=
  match w.runningSince with
  | some since => (Period.mk since stop).length
  | none => 0

theorem toInt_elapsed {w : Stopwatch} (h : 0 ≤ w.accumulated.toInt) (now : Instant) :
    (w.elapsed now).toInt = min Instant.greatest (w.accumulated.toInt + w.openLength now) := by
  rw [elapsed, openLength]
  cases w.runningSince with
  | some since => exact Instant.toInt_plus_span h since now
  | none =>
    have hle := Instant.toInt_le_greatest w.accumulated
    dsimp only
    omega

private theorem openLength_nonneg (w : Stopwatch) (stop : Instant) : 0 ≤ w.openLength stop := by
  rw [openLength]
  split
  · exact Period.length_nonneg _
  · exact Int.le_refl 0

theorem openLength_of_not_isRunning {w : Stopwatch} (h : w.isRunning = false) (stop : Instant) :
    w.openLength stop = 0 := by
  rw [openLength, Option.isNone_iff_eq_none.mp (Option.isSome_eq_false_iff.mp h)]

private theorem start_of_isRunning {w : Stopwatch} (h : w.isRunning = true) (now : Instant) :
    w.start now = w := by
  obtain ⟨since, hsince⟩ := Option.isSome_iff_exists.mp h
  rw [start, hsince, Option.some_or, ← hsince]

private theorem pause_of_not_isRunning {w : Stopwatch} (h : w.isRunning = false) (now : Instant) :
    w.pause now = w := by
  have hnone : w.runningSince = none :=
    Option.isNone_iff_eq_none.mp (Option.isSome_eq_false_iff.mp h)
  rw [pause, elapsed_eq_accumulated h, ← hnone]

/-! ## Marks to come -/

/-- What a stopwatch will show after the marks to come, not cut off. -/
def outlook (w : Stopwatch) (now : Instant) (marks : List Mark) : Int :=
  w.accumulated.toInt + w.openLength (Mark.stop now marks)
    + ((Mark.periods now w.isRunning marks).map Period.length).sum

variable (w : Stopwatch) (now time : Instant) (rest : List Mark)

/-- A mark at which nothing changes counts for nothing. -/
theorem outlook_keep : w.outlook now (⟨time, w.isRunning⟩ :: rest) = w.outlook now rest := by
  rw [outlook, outlook, Mark.periods, Bool.and_not_self, if_neg Bool.false_ne_true]
  cases hruns : w.isRunning with
  | true => rfl
  | false => rw [openLength_of_not_isRunning hruns, openLength_of_not_isRunning hruns]

private theorem outlook_start :
    w.outlook now (⟨time, true⟩ :: rest) = (w.start time).outlook now rest := by
  cases hruns : w.isRunning with
  | true =>
    have hkeep := w.outlook_keep now time rest
    rw [hruns] at hkeep
    rw [hkeep, start_of_isRunning hruns]
  | false =>
    have hnone : w.runningSince = none :=
      Option.isNone_iff_eq_none.mp (Option.isSome_eq_false_iff.mp hruns)
    rw [outlook, hruns, openLength_of_not_isRunning hruns, outlook, isRunning_start]
    simp only [Mark.periods, Bool.not_false, Bool.and_true, if_true, List.map_cons, List.sum_cons,
      start, openLength, hnone, Option.none_or]
    omega

private theorem outlook_pause (h : 0 ≤ w.accumulated.toInt) :
    min Instant.greatest (w.outlook now (⟨time, false⟩ :: rest))
      = min Instant.greatest ((w.pause time).outlook now rest) := by
  cases hruns : w.isRunning with
  | false =>
    have hkeep := w.outlook_keep now time rest
    rw [hruns] at hkeep
    rw [hkeep, pause_of_not_isRunning hruns]
  | true =>
    have hsum := sum_length_nonneg (Mark.periods now false rest)
    have hstop : Mark.stop now (⟨time, false⟩ :: rest) = time := rfl
    have hperiods :
        Mark.periods now true (⟨time, false⟩ :: rest) = Mark.periods now false rest := rfl
    rw [outlook, outlook, hruns, hstop, hperiods, isRunning_pause,
      openLength_of_not_isRunning (w.isRunning_pause time), pause, toInt_elapsed h]
    omega

end Stopwatch

namespace AgentTimer

private theorem watch_work (t : AgentTimer) (now : Instant) :
    (t.work now).watch = t.watch ∨ (t.work now).watch = t.watch.start now := by
  rw [work]
  split
  · exact Or.inl rfl
  · exact Or.inr rfl

/-- **A signal** leaves the stopwatch as it is, starts it or stops it. -/
theorem watch_heed (t : AgentTimer) (now : Instant) (s : Option Signal) :
    (t.heed now s).watch = t.watch ∨ (t.heed now s).watch = t.watch.start now ∨
      (t.heed now s).watch = t.watch.pause now := by
  match s with
  | some .work => exact (t.watch_work now).imp_right Or.inl
  | some .rest => exact Or.inr (Or.inr rfl)
  | some .handBack =>
    rw [heed, handBack]
    split
    · exact Or.inl rfl
    · exact Or.inr (Or.inr rfl)
  | some (.delegate _) => exact Or.inr (Or.inr rfl)
  | some (.release id) =>
    rw [heed, release]
    split
    · exact (watch_work { t with waitingFor := t.waitingFor.erase id } now).imp_right Or.inl
    · exact Or.inl rfl
  | none => exact Or.inl rfl

end AgentTimer

namespace SessionTimers

namespace Replay

/-- **Any number of entries** leave no sum negative. -/
theorem accumulated_nonneg (timeline : List Entry) (name : String) :
    0 ≤ ((timeline.foldl step start).agent name).watch.accumulated.toInt := by
  induction timeline using List.reverseRecOn with
  | nil => exact Int.le_refl 0
  | append_singleton before e ih =>
    rw [List.foldl_concat, agent_step]
    rcases AgentTimer.watch_heed _ e.time _ with h | h | h
    · rwa [h]
    · rwa [h, Stopwatch.start]
    · have hopen := Stopwatch.openLength_nonneg
        ((before.foldl step start).agent name).watch e.time
      rw [h, Stopwatch.pause, Stopwatch.toInt_elapsed ih, Instant.greatest]
      omega

theorem isAtWork_ofTimeline (timeline : List Entry) (name : String) :
    (ofTimeline timeline).isAtWork name
      = ((timeline.foldl step start).agent name).watch.isRunning := by
  rw [isAtWork, ofTimeline, agents_settle, agent]
  cases (timeline.foldl step start).timers.agents.get? name <;> rfl

/-- What is shown after all of a timeline is the outlook after its first part. -/
theorem toInt_elapsed_append (before rest : List Entry) (name : String) (now : Instant) :
    ((((before ++ rest).foldl step start).agent name).watch.elapsed now).toInt
      = min Instant.greatest
        (((before.foldl step start).agent name).watch.outlook now (marks name before rest)) := by
  have hsum := accumulated_nonneg before name
  induction rest generalizing before with
  | nil =>
    rw [List.append_nil, Stopwatch.toInt_elapsed hsum]
    exact congrArg _ (Int.add_zero _).symm
  | cons e rest ih =>
    have ih := ih (before ++ [e]) (accumulated_nonneg _ name)
    rw [List.append_assoc, List.cons_append, List.nil_append] at ih
    rw [ih, marks, isAtWork_ofTimeline, List.foldl_concat, agent_step]
    rcases AgentTimer.watch_heed ((before.foldl step start).agent name) e.time
      ((before.foldl step start).signal? e name) with h | h | h
    · rw [h, Stopwatch.outlook_keep]
    · rw [h, Stopwatch.isRunning_start, Stopwatch.outlook_start]
    · rw [h, Stopwatch.isRunning_pause, Stopwatch.outlook_pause _ _ _ _ hsum]

end Replay

private theorem toInt_elapsedOf_eq (timeline : List Entry) (name : String) (now : Instant) :
    ((ofTimeline timeline).elapsedOf name now).toInt
      = min Instant.greatest ((periods timeline name now).map Period.length).sum := by
  have h := Replay.toInt_elapsed_append [] timeline name now
  rw [List.nil_append, List.foldl_nil] at h
  rw [elapsedOf_ofTimeline, h]
  exact congrArg _ (Int.zero_add _)

/-- **What a timer shows.** At any moment the time of an agent is the sum of its periods as a whole
number, each as long as it is and none negative, cut off once at the greatest instant. So whatever
the times are, it is not negative either. -/
theorem toInt_elapsedOf (timeline : List Entry) (name : String) (now : Instant) :
    ((ofTimeline timeline).elapsedOf name now).toInt
        = min Instant.greatest ((periods timeline name now).map Period.length).sum ∧
      0 ≤ (ofTimeline timeline).elapsedOf name now := by
  have hsum := sum_length_nonneg (periods timeline name now)
  refine ⟨toInt_elapsedOf_eq timeline name now, Int64.le_iff_toInt_le.mpr ?_⟩
  rw [toInt_elapsedOf_eq, Int64.toInt_zero, Instant.greatest]
  omega

end SessionTimers

end SessionReplay
