import SessionReplay.Proofs.Timer.DelegatedTime

/-!
# The session's time

The session's stopwatch is started by the first prompt, started again to no effect by every other
one, and not stopped before the end of the timeline. So it holds one period and no sum, and what it
shows is one span: from the first prompt to now while some agent is at work, and else to the last
event, idle or not, `SessionTimers.elapsed_ofTimeline`.

## No agent works longer than the session

An agent's time is a sum of periods. It can be compared with one span since a reading does not jump:
between two events it goes on at most as fast as the time, `SessionTimers.Replay.toInt_elapsed_le`.
That takes times that do not run backwards, and a timeline that starts with a prompt, for an agent
may be set to work before the first prompt and the session's stopwatch may not.
-/

namespace SessionReplay

theorem Instant.zero_plus (t : Instant) : plus 0 t = t := by
  rw [plus, Int64.toInt_zero, Int.zero_add, clamp_toInt]

namespace SessionTimers

namespace Replay

variable (r : Replay) (e : Entry)

/-! ## The stopwatch -/

/-- **One entry** starts the session's stopwatch if it is a prompt. -/
theorem total_step : (r.step e).timers.total
    = if e.isPrompt then r.timers.total.start e.time else r.timers.total := by
  rw [step, act, Entry.isPrompt]
  cases e.payload with
  | requestEnd reason => dsimp only; split <;> rfl
  | systemError _ => dsimp only; split <;> rfl
  | _ => rfl

/-- **Any number of entries.** The session's stopwatch runs from the first prompt on. -/
theorem total_foldl_step (timeline : List Entry) : (timeline.foldl step start).timers.total
    = ⟨0, (timeline.find? Entry.isPrompt).map Entry.time⟩ := by
  induction timeline using List.reverseRecOn with
  | nil => rfl
  | append_singleton before e ih =>
    rw [List.foldl_concat, total_step, ih, List.find?_append, List.find?_singleton]
    cases e.isPrompt with
    | false => rw [if_neg Bool.false_ne_true, if_neg Bool.false_ne_true, Option.or_none]
    | true => cases before.find? Entry.isPrompt <;> rfl

private theorem lastEvent_foldl_step (timeline : List Entry) :
    (timeline.foldl step start).timers.lastEvent = timeline.getLast?.map Entry.time := by
  rcases List.eq_nil_or_concat timeline with rfl | ⟨before, e, rfl⟩
  · rfl
  · rw [List.concat_eq_append, List.foldl_concat, lastEvent_step, List.getLast?_concat,
      Option.map_some]

end Replay

private theorem elapsed_settle (t : SessionTimers) (now : Instant) : t.settle.elapsed now
    = t.total.elapsed (if t.isAnyRunning then now else t.lastEvent.getD now) := by
  rw [settle]
  split
  · rfl
  · cases t.lastEvent <;> rfl

variable {timeline : List Entry}

theorem elapsed_ofTimeline (timeline : List Entry) (now : Instant) :
    (ofTimeline timeline).elapsed now =
      match timeline.find? Entry.isPrompt, timeline.getLast? with
      | some first, some last =>
        Instant.span first.time (if (ofTimeline timeline).isAnyRunning then now else last.time)
      | _, _ => 0 := by
  rw [ofTimeline, elapsed_settle, Replay.total_foldl_step, Replay.lastEvent_foldl_step,
    isAnyRunning_settle]
  cases hfirst : timeline.find? Entry.isPrompt with
  | none => rfl
  | some first =>
    cases hlast : timeline.getLast? with
    | none =>
      rw [List.getLast?_eq_none_iff.mp hlast] at hfirst
      cases hfirst
    | some last => exact Instant.zero_plus _

/-! ## Agents -/

/-- **Any number of entries.** If times do not run backwards, no agent's time goes faster. -/
theorem Replay.toInt_elapsed_le {origin later : Instant}
    (hordered : timeline.Pairwise fun x y ↦ x.time ≤ y.time)
    (horigin : ∀ e ∈ timeline, origin ≤ e.time) (hlater : ∀ e ∈ timeline, e.time ≤ later)
    (hle : origin ≤ later) (name : String) :
    (((timeline.foldl step start).agent name).watch.elapsed later).toInt
      ≤ later.toInt - origin.toInt := by
  induction timeline using List.reverseRecOn generalizing later with
  | nil =>
    have hzero : (([].foldl step start).agent name).watch.elapsed later = 0 := rfl
    rw [hzero, Int64.toInt_zero]
    exact Int.sub_nonneg_of_le (Int64.le_iff_toInt_le.mp hle)
  | append_singleton before e ih =>
    obtain ⟨hbefore, -, hlast⟩ := List.pairwise_append.mp hordered
    rw [List.forall_mem_append, List.forall_mem_singleton] at horigin hlater
    have htimes : ∀ x ∈ before, x.time ≤ e.time := fun x hx ↦ hlast x hx e List.mem_cons_self
    have hsince := runningSince_le (List.forall_mem_append.mpr
      ⟨htimes, List.forall_mem_singleton.mpr (Int64.le_refl e.time)⟩) name
    -- the entry itself changes no reading, so what is shown at it is known from the entries before
    have hread : (((before ++ [e]).foldl step start).agent name).watch.elapsed e.time
        = ((before.foldl step start).agent name).watch.elapsed e.time := by
      rw [List.foldl_concat, agent_step, AgentTimer.elapsed_heed]
    have hshown := ih hbefore horigin.1 htimes horigin.2
    have hpassed := Int64.le_iff_toInt_le.mp hlater.2
    rw [Stopwatch.toInt_elapsed_later (accumulated_nonneg _ _) hsince hlater.2, hread]
    split <;> omega

private theorem isAnyRunning_of_isAtWork {t : SessionTimers} {name : String}
    (h : t.isAtWork name = true) :
    t.isAnyRunning = true := by
  obtain ⟨a, ha, hruns⟩ := (Option.any_eq_true _ _).mp h
  exact isAnyRunning_iff.mpr ⟨name, a, ha, hruns⟩

/-- The time of an agent is what its timer shows at the last event, unless some agent is at work. -/
theorem elapsedOf_ofTimeline_of_not_isAnyRunning (h : (ofTimeline timeline).isAnyRunning = false)
    (name : String) (now now' : Instant) :
    (ofTimeline timeline).elapsedOf name now = (ofTimeline timeline).elapsedOf name now' := by
  have hrest : ((timeline.foldl Replay.step .start).agent name).watch.isRunning = false := by
    rw [← Replay.isAtWork_ofTimeline, Bool.eq_false_iff]
    intro hwork
    rw [isAnyRunning_of_isAtWork hwork] at h
    cases h
  rw [elapsedOf_ofTimeline, elapsedOf_ofTimeline, Stopwatch.elapsed_eq_accumulated hrest,
    Stopwatch.elapsed_eq_accumulated hrest]

/-- From a prompt on, no agent has worked longer than the time that passed. -/
theorem elapsedOf_le_span {first last : Entry} {now : Instant}
    (hordered : timeline.Pairwise fun x y ↦ x.time ≤ y.time) (hfirst : timeline.head? = some first)
    (hlast : timeline.getLast? = some last) (hnow : last.time ≤ now) (name : String) :
    (ofTimeline timeline).elapsedOf name now ≤ Instant.span first.time now := by
  have horigin : ∀ e ∈ timeline, first.time ≤ e.time := by
    obtain ⟨rest, rfl⟩ := List.head?_eq_some_iff.mp hfirst
    exact List.forall_mem_cons.mpr ⟨Int64.le_refl _, (List.pairwise_cons.mp hordered).1⟩
  have hlater : ∀ e ∈ timeline, e.time ≤ last.time := by
    obtain ⟨before, rfl⟩ := List.getLast?_eq_some_iff.mp hlast
    refine List.forall_mem_append.mpr
      ⟨fun e he ↦ ?_, List.forall_mem_singleton.mpr (Int64.le_refl _)⟩
    exact (List.pairwise_append.mp hordered).2.2 e he last List.mem_cons_self
  have hle : first.time ≤ now :=
    Int64.le_trans (horigin last (List.mem_of_getLast? hlast)) hnow
  have hgreatest := Instant.toInt_le_greatest ((ofTimeline timeline).elapsedOf name now)
  have hpassed := Replay.toInt_elapsed_le hordered horigin
    (fun e he ↦ Int64.le_trans (hlater e he) hnow) hle name
  rw [← elapsedOf_ofTimeline] at hpassed
  rw [Int64.le_iff_toInt_le, Instant.toInt_span]
  omega

/-! ## The session and its agents -/

/-- What the session's stopwatch shows. -/
structure KeepsTotal (timeline : List Entry) (t : SessionTimers) : Prop where
  /-- The span from the first prompt, to now if some agent is at work and else to the last event. -/
  elapsed_eq : ∀ now, t.elapsed now =
    match timeline.find? Entry.isPrompt, timeline.getLast? with
    | some first, some last => Instant.span first.time (if t.isAnyRunning then now else last.time)
    | _, _ => 0
  /-- From a prompt on, and while times do not run backwards, no agent works longer. -/
  elapsedOf_le : timeline.Pairwise (fun x y ↦ x.time ≤ y.time) →
    (∃ first ∈ timeline.head?, first.isPrompt = true) →
    ∀ last ∈ timeline.getLast?, ∀ now, last.time ≤ now →
      ∀ name, t.elapsedOf name now ≤ t.elapsed now

/-- **The session's time** is one span, and it is no shorter than the time of any agent. -/
theorem keepsTotal_ofTimeline (timeline : List Entry) :
    (ofTimeline timeline).KeepsTotal timeline where
  elapsed_eq := elapsed_ofTimeline timeline
  elapsedOf_le := by
    rintro hordered ⟨first, hfirst, hprompt⟩ last hlast now hnow name
    have hfind : timeline.find? Entry.isPrompt = some first := by
      obtain ⟨rest, rfl⟩ := List.head?_eq_some_iff.mp hfirst
      exact List.find?_cons_of_pos hprompt
    have helapsed : (ofTimeline timeline).elapsed now = Instant.span first.time
        (if (ofTimeline timeline).isAnyRunning then now else last.time) := by
      rw [elapsed_ofTimeline, hfind, Option.mem_def.mp hlast]
    cases hany : (ofTimeline timeline).isAnyRunning with
    | true =>
      rw [helapsed, hany, if_pos rfl]
      exact elapsedOf_le_span hordered hfirst hlast hnow name
    | false =>
      rw [helapsed, hany, if_neg Bool.false_ne_true,
        elapsedOf_ofTimeline_of_not_isAnyRunning hany name now last.time]
      exact elapsedOf_le_span hordered hfirst hlast (Int64.le_refl _) name

/-- An entry of a second agent. -/
def workerEntry (n : UInt64) (time : Instant) (payload : Payload) : Entry :=
  ⟨⟨n, "s1", some "worker", some time, payload⟩, "worker", time⟩

/-- Two agents in turn. The first one is at work again at the end. -/
def handedOver : List Entry :=
  [mainEntry 1 1 (.userPrompt "go"),
   mainEntry 2 3 (.delegationRequested "d1" (some "worker") none),
   workerEntry 3 4 .requestStart,
   workerEntry 4 8 (.requestEnd "stop"),
   mainEntry 5 9 (.delegationCompleted "d1" none)]

theorem elapsedOf_le_handedOver :
    handedOver.Pairwise (fun x y ↦ x.time ≤ y.time) ∧
      (∃ first ∈ handedOver.head?, first.isPrompt = true) ∧
      (∃ last ∈ handedOver.getLast?, last.time ≤ 12) ∧
      (ofTimeline handedOver).elapsed 12 = 11 ∧
      (ofTimeline handedOver).elapsedOf "main" 12 ≤ (ofTimeline handedOver).elapsed 12 ∧
      (ofTimeline handedOver).elapsedOf "worker" 12 ≤ (ofTimeline handedOver).elapsed 12 := by
  have hordered : handedOver.Pairwise (fun x y ↦ x.time ≤ y.time) := by decide
  have hprompt : ∃ first ∈ handedOver.head?, first.isPrompt = true := ⟨_, rfl, rfl⟩
  have hlast : (12 : Instant) ≥ 9 := by decide
  have hle := (keepsTotal_ofTimeline handedOver).elapsedOf_le hordered hprompt _ rfl 12 hlast
  refine ⟨hordered, hprompt, ⟨_, rfl, hlast⟩, ?_, hle "main", hle "worker"⟩
  exact ((keepsTotal_ofTimeline handedOver).elapsed_eq 12).trans (by decide)

end SessionTimers

end SessionReplay
