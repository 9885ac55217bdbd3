import Mathlib.Data.Int.Range
import SessionReplay.Proofs.Timer.Periods
import SessionReplay.Proofs.Timer.Releases

/-!
# Delegated time

From a prompt until an agent hands back, the agent is at work except while it waits. So its timer
shows the time from the prompt to the handing back less the time in which some delegation was open,
however many there were and however they lay in each other:
`SessionTimers.toInt_elapsedOf_of_isSoloTurn`.

## Time as a count

Delegations overlap, so their times must not be added up. `Timeline.openTime` counts the
milliseconds at which some delegation is open, and a millisecond counts once for all that are open
at it.

## What is compared at every moment

A period is cut off when it is closed, so the sum that a timer holds is compared with nothing. What
the timer would show at any later moment is: that is the time since the prompt less the open time,
as long as nothing else comes in, `SessionTimers.Replay.toInt_elapsed_of_isUnderway`.
-/

namespace SessionReplay

/-! ## Open time -/

namespace Timeline

/-- The number of milliseconds, from an instant to another, at which some delegation is open. -/
def openTime (timeline : List Entry) (start stop : Instant) : Int :=
  (Int.range start.toInt stop.toInt).countP fun now ↦
    isAnyOpen (timeline.filter fun e ↦ e.time.toInt ≤ now)

variable {timeline : List Entry} {e : Entry} {start stop : Instant}

private theorem range_append_range {a b c : Int} (hab : a ≤ b) (hbc : b ≤ c) :
    Int.range a b ++ Int.range b c = Int.range a c := by
  have hlength : (c - a).toNat = (b - a).toNat + (c - b).toNat := by omega
  rw [Int.range, Int.range, Int.range, hlength, List.range_add, List.map_append, List.map_map]
  refine congrArg _ (List.map_congr_left fun n _ ↦ ?_)
  rw [Function.comp_apply]
  omega

theorem openTime_self (timeline : List Entry) (now : Instant) : openTime timeline now now = 0 := by
  rw [openTime, Int.range, Int.sub_self]
  rfl

/-- What comes in at the end or later does not count. -/
theorem openTime_concat_of_le (h : stop ≤ e.time) :
    openTime (timeline ++ [e]) start stop = openTime timeline start stop := by
  rw [openTime, openTime]
  refine congrArg Nat.cast (List.countP_congr fun now hnow ↦ ?_)
  have hlater : ¬e.time.toInt ≤ now := by
    have hstop := (Int.mem_range_iff.mp hnow).2
    rw [Int64.le_iff_toInt_le] at h
    omega
  rw [List.filter_append, List.filter_singleton, decide_eq_false hlater, cond_false,
    List.append_nil]

/-- **One more entry.** After the last entry, some delegation is open all the time or none is. -/
theorem openTime_concat (hbefore : ∀ x ∈ timeline, x.time ≤ e.time) (hstart : start ≤ e.time)
    (hstop : e.time ≤ stop) :
    openTime (timeline ++ [e]) start stop = openTime timeline start e.time
      + if isAnyOpen (timeline ++ [e]) then stop.toInt - e.time.toInt else 0 := by
  rw [Int64.le_iff_toInt_le] at hstart hstop
  have hlate : ∀ now ∈ Int.range e.time.toInt stop.toInt,
      (timeline ++ [e]).filter (fun x ↦ x.time.toInt ≤ now) = timeline ++ [e] := by
    intro now hnow
    have htime := (Int.mem_range_iff.mp hnow).1
    refine List.filter_eq_self.mpr fun x hx ↦ decide_eq_true ?_
    rcases List.mem_append.mp hx with hx | hx
    · exact Int.le_trans (Int64.le_iff_toInt_le.mp (hbefore x hx)) htime
    · rwa [List.mem_singleton.mp hx]
  have hcount : (Int.range e.time.toInt stop.toInt).countP (fun now ↦
      isAnyOpen ((timeline ++ [e]).filter fun x ↦ x.time.toInt ≤ now))
        = if isAnyOpen (timeline ++ [e]) then (stop.toInt - e.time.toInt).toNat else 0 := by
    rw [List.countP_congr fun now hnow ↦ by rw [hlate now hnow]]
    cases isAnyOpen (timeline ++ [e]) with
    | true => rw [List.countP_true, if_pos rfl, Int.range, List.length_map, List.length_range]
    | false => rw [List.countP_false, if_neg Bool.false_ne_true, Function.const_apply]
  rw [← openTime_concat_of_le (Int64.le_refl e.time), openTime, openTime,
    ← range_append_range hstart hstop, List.countP_append, hcount]
  split
  · omega
  · rfl

end Timeline

/-! ## Later readings -/

/-- A stopwatch that runs goes with the time. -/
theorem Stopwatch.toInt_elapsed_later {w : Stopwatch} {now later : Instant}
    (hsum : 0 ≤ w.accumulated.toInt) (hsince : ∀ since, w.runningSince = some since → since ≤ now)
    (hlater : now ≤ later) :
    (w.elapsed later).toInt = min Instant.greatest
      ((w.elapsed now).toInt + if w.isRunning then later.toInt - now.toInt else 0) := by
  rw [Int64.le_iff_toInt_le] at hlater
  rw [toInt_elapsed hsum, toInt_elapsed hsum]
  cases hruns : w.isRunning with
  | false =>
    rw [openLength_of_not_isRunning hruns, openLength_of_not_isRunning hruns,
      if_neg Bool.false_ne_true]
    omega
  | true =>
    obtain ⟨since, hsome⟩ := Option.isSome_iff_exists.mp hruns
    have hstart := Int64.le_iff_toInt_le.mp (hsince since hsome)
    rw [if_pos rfl]
    simp only [openLength, hsome, Period.length]
    omega

namespace SessionTimers.Replay

/-- A period that is open starts at an entry. -/
theorem exists_time_eq_of_runningSince {timeline : List Entry} {name : String} {since : Instant}
    (h : ((timeline.foldl step start).agent name).watch.runningSince = some since) :
    ∃ e ∈ timeline, e.time = since := by
  induction timeline using List.reverseRecOn with
  | nil => cases h
  | append_singleton before e ih =>
    rw [List.foldl_concat, agent_step] at h
    rcases AgentTimer.watch_heed ((before.foldl step start).agent name) e.time
      ((before.foldl step start).signal? e name) with hw | hw | hw
    · rw [hw] at h
      obtain ⟨x, hx, htime⟩ := ih h
      exact ⟨x, List.mem_append_left _ hx, htime⟩
    · rw [hw, Stopwatch.start, Option.or_eq_some_iff] at h
      rcases h with h | ⟨-, h⟩
      · obtain ⟨x, hx, htime⟩ := ih h
        exact ⟨x, List.mem_append_left _ hx, htime⟩
      · exact ⟨e, List.mem_append_right _ List.mem_cons_self, Option.some.inj h⟩
    · rw [hw] at h
      cases h

theorem runningSince_le {timeline : List Entry} {now : Instant}
    (hnow : ∀ e ∈ timeline, e.time ≤ now) (name : String) :
    ∀ since, ((timeline.foldl step start).agent name).watch.runningSince = some since →
      since ≤ now := by
  intro since hsince
  obtain ⟨e, he, rfl⟩ := exists_time_eq_of_runningSince hsince
  exact hnow e he

end SessionTimers.Replay

/-! ## An agent at work -/

namespace AgentTimer

/-- The agent is at work exactly if it does not wait. -/
def GoesOn (t : AgentTimer) : Prop := t.watch.isRunning = !t.isDelegating

theorem GoesOn.rests {t : AgentTimer} (h : t.GoesOn) : t.Rests := fun hwaits ↦ by
  rw [h, hwaits, Bool.not_true]

theorem Rests.goesOn_work {t : AgentTimer} (h : t.Rests) (now : Instant) : (t.work now).GoesOn := by
  rw [AgentTimer.work]
  split
  · next hwaits => rw [GoesOn, h hwaits, hwaits, Bool.not_true]
  · next hfree =>
    have hstill : isDelegating { t with watch := t.watch.start now } = false :=
      Bool.eq_false_iff.mpr hfree
    rw [GoesOn, hstill, t.watch.isRunning_start now, Bool.not_false]

/-- **One signal.** Only an error or handing back stops an agent that does not wait. -/
theorem GoesOn.heed {t : AgentTimer} (h : t.GoesOn) (now : Instant) (s : Option Signal)
    (hrest : s ≠ some .rest) (hhandBack : s ≠ some .handBack) : (t.heed now s).GoesOn := by
  match s with
  | some .work => exact h.rests.goesOn_work now
  | some .rest => exact absurd rfl hrest
  | some .handBack => exact absurd rfl hhandBack
  | some (.delegate id) =>
    have hwaits : (t.delegate id now).isDelegating = true :=
      isDelegating_iff.mpr ⟨id, (Table.contains_insert_iff _ _ _ _).mpr (Or.inl rfl)⟩
    rw [GoesOn, AgentTimer.heed, hwaits]
    exact t.watch.isRunning_pause now
  | some (.release id) =>
    rw [AgentTimer.heed, release]
    split
    · next hid =>
      -- the agent waited for this one, so it is not at work yet
      have hrest : t.watch.isRunning = false := h.rests (isDelegating_iff.mpr ⟨id, hid⟩)
      have hrests : Rests { t with waitingFor := t.waitingFor.erase id } := fun _ ↦ hrest
      exact hrests.goesOn_work now
    · exact h
  | none => exact h

end AgentTimer

namespace SessionTimers

/-- The entries from a prompt on, by its agent and in the order of their times, without an error and
without handing back. -/
structure IsUnderway (name : String) (first : Entry) (between : List Entry) : Prop where
  agent_eq : ∀ e ∈ first :: between, e.agent = name
  ordered : (first :: between).Pairwise fun x y ↦ x.time ≤ y.time
  isPrompt : first.isPrompt = true
  goesOn : ∀ e ∈ between, e.isError = false ∧ e.isHandBack = false

/-- The entries from a prompt on until its agent hands back, while no delegation is open. -/
structure IsSoloTurn (name : String) (first : Entry) (between : List Entry) (last : Entry) :
    Prop extends IsUnderway name first between where
  agent_last : last.agent = name
  time_le_last : ∀ e ∈ first :: between, e.time ≤ last.time
  isHandBack_last : last.isHandBack = true
  isAnyOpen_eq : Timeline.isAnyOpen (first :: between) = false

variable {name : String} {first last e : Entry} {before between : List Entry}

theorem IsUnderway.of_concat (h : IsUnderway name first (before ++ [e])) :
    IsUnderway name first before := by
  obtain ⟨hagent, hordered, hprompt, hgoesOn⟩ := h
  rw [← List.cons_append] at hagent hordered
  exact ⟨fun x hx ↦ hagent x (List.mem_append_left _ hx), (List.pairwise_append.mp hordered).1,
    hprompt, fun x hx ↦ hgoesOn x (List.mem_append_left _ hx)⟩

theorem IsUnderway.time_le (h : IsUnderway name first (before ++ [e])) :
    ∀ x ∈ first :: before, x.time ≤ e.time := by
  have hordered := h.ordered
  rw [← List.cons_append] at hordered
  exact fun x hx ↦ (List.pairwise_append.mp hordered).2.2 x hx e List.mem_cons_self

namespace Replay

theorem signal?_of_isPrompt (r : Replay) (h : e.isPrompt = true) (hagent : e.agent = name) :
    r.signal? e name = some .work := by
  rw [Entry.isPrompt] at h
  rw [signal?]
  generalize e.payload = payload at h
  cases payload with
  | userPrompt _ => exact if_pos hagent
  | _ => cases h

/-- **Any number of entries.** An agent under way is at work exactly if it does not wait. -/
theorem goesOn_foldl (h : IsUnderway name first between) :
    (((first :: between).foldl step start).agent name).GoesOn := by
  induction between using List.reverseRecOn with
  | nil =>
    rw [List.foldl_cons, List.foldl_nil, agent_step,
      signal?_of_isPrompt _ h.isPrompt (h.agent_eq first List.mem_cons_self)]
    rfl
  | append_singleton before e ih =>
    obtain ⟨herror, hhandBack⟩ := h.goesOn e (List.mem_append_right _ List.mem_cons_self)
    rw [← List.cons_append, List.foldl_concat, agent_step]
    refine (ih h.of_concat).heed e.time _ (fun hrest ↦ ?_) fun hback ↦ ?_
    · exact Bool.false_ne_true (herror.symm.trans (signal?_eq_rest_iff.mp hrest).1)
    · exact Bool.false_ne_true (hhandBack.symm.trans (signal?_eq_handBack_iff.mp hback).1)

/-- **Any number of entries.** At any later moment the timer of an agent under way would show the
time since the prompt, less the time in which some delegation was open. -/
theorem toInt_elapsed_of_isUnderway (h : IsUnderway name first between) {later : Instant}
    (hlater : ∀ e ∈ first :: between, e.time ≤ later) :
    ((((first :: between).foldl step start).agent name).watch.elapsed later).toInt
      = min Instant.greatest (later.toInt - first.time.toInt
        - Timeline.openTime (first :: between) first.time later) := by
  induction between using List.reverseRecOn generalizing later with
  | nil =>
    have hle := Int64.le_iff_toInt_le.mp (hlater first List.mem_cons_self)
    have htimer : ([first].foldl step start).agent name = ⟨⟨0, some first.time⟩, .empty⟩ := by
      rw [List.foldl_cons, List.foldl_nil, agent_step,
        signal?_of_isPrompt _ h.isPrompt (h.agent_eq first List.mem_cons_self)]
      rfl
    have hclosed : Timeline.isAnyOpen [first] = false := by
      rw [← isDelegating_eq_isAnyOpen h.agent_eq, htimer]
      rfl
    have hopen : Timeline.openTime [first] first.time later = 0 := by
      rw [← List.nil_append [first], Timeline.openTime_concat (List.forall_mem_nil _)
        (Int64.le_refl _) (hlater first List.mem_cons_self), Timeline.openTime_self,
        List.nil_append, hclosed]
      rfl
    have hread := Stopwatch.toInt_elapsed (w := ⟨0, some first.time⟩) (Int.le_refl 0) later
    rw [htimer, hopen, hread]
    simp only [Stopwatch.openLength, Period.length, Int64.toInt_zero]
    omega
  | append_singleton before e ih =>
    rw [← List.cons_append, List.forall_mem_append, List.forall_mem_singleton] at hlater
    have hle := Int64.le_iff_toInt_le.mp hlater.2
    have hruns : (((first :: before ++ [e]).foldl step start).agent name).watch.isRunning
        = !Timeline.isAnyOpen (first :: before ++ [e]) :=
      (goesOn_foldl h).trans (congrArg _ (isDelegating_eq_isAnyOpen h.agent_eq))
    have hsince : ∀ since,
        (((first :: before ++ [e]).foldl step start).agent name).watch.runningSince = some since →
          since ≤ e.time := by
      intro since hsome
      obtain ⟨x, hx, rfl⟩ := exists_time_eq_of_runningSince hsome
      rcases List.mem_append.mp hx with hx | hx
      · exact h.time_le x hx
      · exact List.mem_singleton.mp hx ▸ Int64.le_refl _
    -- the entry itself changes no reading, so what is shown at it is known from the entries before
    have hread :
        ((((first :: before ++ [e]).foldl step start).agent name).watch.elapsed e.time).toInt =
          min Instant.greatest (e.time.toInt - first.time.toInt
            - Timeline.openTime (first :: before) first.time e.time) := by
      rw [List.foldl_concat, agent_step, AgentTimer.elapsed_heed]
      exact ih h.of_concat h.time_le
    have hfirst := h.time_le first List.mem_cons_self
    rw [← List.cons_append, Stopwatch.toInt_elapsed_later (accumulated_nonneg _ _) hsince hlater.2,
      hread, hruns, Timeline.openTime_concat h.time_le hfirst hlater.2]
    cases Timeline.isAnyOpen (first :: before ++ [e]) with
    | false =>
      rw [Bool.not_false, if_pos rfl, if_neg Bool.false_ne_true]
      omega
    | true =>
      rw [Bool.not_true, if_neg Bool.false_ne_true, if_pos rfl]
      omega

end Replay

/-- **Delegated time is left out.** From a prompt until it hands back, an agent's timer shows the
time that passed less the time in which some delegation was open, cut off at the greatest
instant. -/
theorem toInt_elapsedOf_of_isSoloTurn (h : IsSoloTurn name first between last) (now : Instant) :
    ((ofTimeline (first :: (between ++ [last]))).elapsedOf name now).toInt
      = min Instant.greatest (last.time.toInt - first.time.toInt
        - Timeline.openTime (first :: (between ++ [last])) first.time last.time) := by
  have hfree : (((first :: between).foldl Replay.step .start).agent name).isDelegating = false := by
    rw [Replay.isDelegating_eq_isAnyOpen h.agent_eq, h.isAnyOpen_eq]
  rw [elapsedOf_ofTimeline, ← List.cons_append, List.foldl_concat, Replay.agent_step,
    Replay.signal?_eq_handBack_iff.mpr ⟨h.isHandBack_last, h.agent_last⟩, AgentTimer.heed,
    AgentTimer.handBack, hfree, if_neg Bool.false_ne_true, AgentTimer.rest,
    Stopwatch.elapsed_pause, Replay.toInt_elapsed_of_isUnderway h.toIsUnderway h.time_le_last,
    Timeline.openTime_concat_of_le (Int64.le_refl _)]

/-- An entry of one agent. -/
def mainEntry (n : UInt64) (time : Instant) (payload : Payload) : Entry :=
  ⟨⟨n, "s1", some "main", some time, payload⟩, "main", time⟩

/-- Two delegations that overlap. One is requested again while it is open and once more when both
are over, another one is over before anything is requested, and there is a prompt in between. -/
def overlapping : List Entry :=
  [mainEntry 2 2 .requestStart,
   mainEntry 3 3 (.delegationCompleted "d0" none),
   mainEntry 4 4 (.delegationRequested "d1" (some "worker") none),
   mainEntry 5 5 (.delegationRequested "d2" (some "worker") none),
   mainEntry 6 6 (.delegationRequested "d1" none none),
   mainEntry 7 7 (.delegationCompleted "d1" (some "done")),
   mainEntry 8 8 (.userPrompt "well?"),
   mainEntry 9 10 (.delegationFailed "d2" none),
   mainEntry 10 11 (.requestEnd "tool_calls"),
   mainEntry 11 12 (.delegationRequested "d1" none none),
   mainEntry 12 13 (.delegationFailed "d1" none)]

theorem toInt_elapsedOf_overlapping :
    IsSoloTurn "main" (mainEntry 1 1 (.userPrompt "go")) overlapping
        (mainEntry 13 15 (.requestEnd "stop")) ∧
      Timeline.openTime (mainEntry 1 1 (.userPrompt "go") ::
        (overlapping ++ [mainEntry 13 15 (.requestEnd "stop")])) 1 15 = 7 ∧
      ((ofTimeline (mainEntry 1 1 (.userPrompt "go") ::
        (overlapping ++ [mainEntry 13 15 (.requestEnd "stop")]))).elapsedOf "main" 99).toInt =
          7 := by
  have hturn : IsSoloTurn "main" (mainEntry 1 1 (.userPrompt "go")) overlapping
      (mainEntry 13 15 (.requestEnd "stop")) :=
    ⟨⟨by decide, by decide, by decide, by decide⟩, by decide, by decide, by decide, by decide⟩
  have hopen : Timeline.openTime (mainEntry 1 1 (.userPrompt "go") ::
      (overlapping ++ [mainEntry 13 15 (.requestEnd "stop")])) 1 15 = 7 := by decide
  refine ⟨hturn, hopen, (toInt_elapsedOf_of_isSoloTurn hturn 99).trans ?_⟩
  exact (congrArg (fun n : Int ↦ min Instant.greatest (14 - n)) hopen).trans (by decide)

end SessionTimers

end SessionReplay
