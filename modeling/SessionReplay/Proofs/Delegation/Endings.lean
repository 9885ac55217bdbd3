import SessionReplay.Proofs.Delegation.FirstCome
import SessionReplay.Proofs.Delegation.Parts
import SessionReplay.Proofs.Delegation.Settling

/-!
# Which ending counts

A delegation ends once, so of several endings for its identifier the first should count. After the
pairing it does: the later ones find the delegation ended. Before the pairing it does not: an ending
that comes early is kept, and one more takes its place. What counts in the end is the last of those
before the pairing, or else the first of those after it:
`Tracker.exists_pairsAt_endsWith_head?_iff`.

## Why the delegation remembers the moment of its pairing

Its ending depends on where in the run it was paired, and the tracker forgets this. But there is one
such moment only, since an identifier stays with its call. So the run is cut there, and what is
known of each part is an induction of its own: `Tracker.keptEndings_run` of the first, where the
identifier is unpaired, and `Tracker.exists_pairsAt` of the second, where every report for the
identifier goes to the delegation.
-/

namespace SessionReplay

/-- A delegation stands as an ending has left it. Without one it is in progress. -/
structure Delegation.EndsWith (d : Delegation) (e : Option Ending) : Prop where
  status_eq : d.status = e.elim .inProgress Ending.status
  stop_eq : d.stop = e.map Ending.time
  outcome_eq : d.outcome = e.bind Ending.outcome

namespace Delegation

variable {d d' : Delegation} {e e' : Ending} {x : Option Ending}

theorem EndsWith.of_eq (h : d.EndsWith x)
    (heq : d'.status = d.status ∧ d'.stop = d.stop ∧ d'.outcome = d.outcome) : d'.EndsWith x :=
  ⟨heq.1.trans h.status_eq, heq.2.1.trans h.stop_eq, heq.2.2.trans h.outcome_eq⟩

/-- One more ending counts if it is the first. -/
theorem EndsWith.finish (h : d.EndsWith x) (hx : ∀ e' ∈ x, e'.status.isTerminal = true)
    (he : e.status.isTerminal = true) : (d.finish e).EndsWith (x.or (some e)) := by
  cases x with
  | some e' =>
    rw [finish_of_isTerminal e (h.status_eq ▸ hx e' rfl)]
    exact h
  | none =>
    rw [Delegation.finish, h.status_eq, he]
    exact ⟨rfl, rfl, by rw [h.outcome_eq]; exact Option.or_none⟩

theorem EndsWith.after {y : Option Ending} (h : d.EndsWith x)
    (hx : ∀ e ∈ x, e.status.isTerminal = true) (hy : ∀ e ∈ y, e.status.isTerminal = true)
    (r : Option Request) (child : Option String) : (d.after r child y).EndsWith (x.or y) := by
  have hunended := h.of_eq (d.ending_after_none r child)
  cases y with
  | none => rwa [Option.or_none]
  | some e => exact hunended.finish hx (hy e rfl)

/-- A delegation tells with which ending it ended. -/
theorem EndsWith.eq (h : d.EndsWith (some e)) (h' : d.EndsWith (some e')) : e = e' := by
  have hstatus := h.status_eq.symm.trans h'.status_eq
  have htime := Option.some.inj (h.stop_eq.symm.trans h'.stop_eq)
  have houtcome := h.outcome_eq.symm.trans h'.outcome_eq
  obtain ⟨status, time, outcome⟩ := e
  obtain ⟨status', time', outcome'⟩ := e'
  obtain rfl : status = status' := hstatus
  obtain rfl : time = time' := htime
  obtain rfl : outcome = outcome' := houtcome
  rfl

end Delegation

namespace Tracker

variable {t : Tracker} {reports : List Report} {r : Report} {call id : String} {d : Delegation}

/-! ## The endings of an identifier -/

/-- The endings that were reported for an identifier, in the order in which they came. -/
def endingsOf (id : String) (reports : List Report) : List Ending := under id (endings reports)

theorem endingsOf_append (id : String) (before after : List Report) :
    endingsOf id (before ++ after) = endingsOf id before ++ endingsOf id after := by
  rw [endingsOf, endings_append, under, List.filterMap_append]
  rfl

theorem endingsOf_singleton (id : String) (r : Report) :
    endingsOf id [r] = (partFor id r.ending?).toList := by
  rw [endingsOf, endings, List.filterMap_cons, List.filterMap_nil]
  cases r.ending? with
  | none => rfl
  | some p =>
    dsimp only
    rw [under, List.filterMap_cons, List.filterMap_nil, partFor_some]
    split <;> simp_all

theorem endingsOf_concat (id : String) (before : List Report) (r : Report) :
    endingsOf id (before ++ [r]) = endingsOf id before ++ (partFor id r.ending?).toList := by
  rw [endingsOf_append, endingsOf_singleton]

private theorem mem_endingsOf_iff {e : Ending} :
    e ∈ endingsOf id reports ↔ .finished id e ∈ reports := by
  rw [endingsOf, under, endings, List.filterMap_filterMap, List.mem_filterMap]
  constructor
  · rintro ⟨r, hr, he⟩
    cases r with
    | finished id' e' =>
      obtain ⟨rfl, heq⟩ := Option.ite_none_right_eq_some.mp he
      cases heq
      exact hr
    | _ => cases he
  · exact fun h ↦ ⟨_, h, if_pos rfl⟩

/-! ## Before the pairing -/

/-- An ending is kept if its identifier is not paired. -/
theorem get?_keptEndings_receive (hunpaired : t.paired.get? id = none) (r : Report) :
    (t.receive r).keptEndings.get? id = (partFor id r.ending?).or (t.keptEndings.get? id) := by
  cases r with
  | opened o =>
    rw [receive]
    split
    · rfl
    · split <;> rfl
  | requested q =>
    rw [receive]
    split
    · rfl
    · split <;> rfl
  | forked _ _ => rw [receive]; split <;> rfl
  | finished id' e =>
    rw [receive, Report.ending?, partFor_some]
    by_cases hid : id' = id
    · subst hid
      rw [Table.contains_eq_false_iff.mpr hunpaired, if_neg Bool.false_ne_true, if_pos rfl]
      exact Table.get?_insert_self _ _ _
    · rw [if_neg hid, Option.none_or]
      split
      · rfl
      · exact Table.get?_insert_of_ne _ _ (Ne.symm hid)
  | finishGroup _ _ => rfl

/-- **What is kept for an unpaired identifier** is the last of its endings. -/
theorem keptEndings_run (hunpaired : ∀ call, ¬ Carries (run reports).groups id call) :
    (run reports).keptEndings.get? id = (endingsOf id reports).getLast? := by
  induction reports using List.reverseRecOn with
  | nil => rfl
  | append_singleton before r ih =>
    have horderly := orderly_run before
    obtain ⟨asked, -, hreaches⟩ := reaches_run fun x (_ : x ∈ before) ↦ x.allows_true
    rw [run_concat] at hunpaired ⊢
    have hbefore : ∀ call, ¬ Carries (run before).groups id call := fun call hc ↦
      hunpaired call ((horderly.carries_step_iff r).mpr (Or.inl hc))
    have hnone : (run before).paired.get? id = none :=
      Option.eq_none_iff_forall_ne_some.mpr fun call hc ↦ hbefore call (hreaches.carries hc)
    have hkept : ((run before).step r).keptEndings.get? id
        = ((run before).receive r).keptEndings.get? id := by
      rw [horderly.apply_step (fun _ _ _ ↦ rfl) (fun u c e ↦ u.keptEndings_finishGroup c e)]
      rcases horderly.coupled_cases r with ⟨-, heq⟩ | ⟨call, q, d, hpairs, -, -, heq⟩
      · rw [heq]
      · -- what the pairing lets go of was kept for another identifier
        rw [heq, keptEndings_couple, Table.get?_erase_of_ne]
        rintro rfl
        exact hunpaired call ((horderly.carries_step_iff r).mpr (Or.inr ⟨q, hpairs, rfl⟩))
    rw [hkept, get?_keptEndings_receive hnone, ih hbefore, endingsOf_concat, List.getLast?_append]
    cases partFor id r.ending? <;> rfl

/-- A delegation that is not paired is in progress, unless it was ended by its call. -/
theorem endsWith_none_run (hgroup : ∀ e, .finishGroup call e ∉ reports)
    (hd : (run reports).groups.get? call = some d) (hnone : d.delegation = none) :
    d.EndsWith none := by
  induction reports using List.reverseRecOn generalizing d with
  | nil => cases hd
  | append_singleton before r ih =>
    have horderly := orderly_run before
    obtain ⟨asked, -, hreaches⟩ := reaches_run fun x (_ : x ∈ before) ↦ x.allows_true
    rw [run_concat] at hd
    have hcarries : ∀ id, ¬ Carries ((run before).step r).groups id call := by
      rintro id ⟨d', hd', hid⟩
      rw [Option.some.inj (hd.symm.trans hd'), hid] at hnone
      cases hnone
    have hends : partFor call ((run before).ends? r) = none := by
      refine Option.eq_none_iff_forall_ne_some.mpr fun e he ↦ ?_
      rcases ends?_eq_some_iff.mp (partFor_eq_some_iff.mp he) with
        rfl | ⟨id, rfl, hpaired⟩ | ⟨q, hpairs, -⟩
      · exact hgroup e (List.mem_append_right _ List.mem_cons_self)
      · exact hcarries id ((horderly.carries_step_iff _).mpr (Or.inl (hreaches.carries hpaired)))
      · exact hcarries q.delegation ((horderly.carries_step_iff r).mpr (Or.inr ⟨q, hpairs, rfl⟩))
    rw [horderly.get?_groups_step, hends] at hd
    obtain ⟨d₀, hd₀, rfl⟩ := Option.map_eq_some_iff.mp hd
    refine Delegation.EndsWith.of_eq ?_ (d₀.ending_after_none _ _)
    rcases get?_entered hd₀ with hold | ⟨-, o, -, -, rfl⟩
    · refine ih (fun e he ↦ hgroup e (List.mem_append_left _ he)) hold ?_
      rw [Delegation.delegation_after] at hnone
      cases hpairs : partFor call ((run before).pairs? r) with
      | none => rwa [hpairs] at hnone
      | some q =>
        rw [hpairs] at hnone
        cases hnone
    · exact ⟨rfl, rfl, rfl⟩

/-! ## After the pairing -/

/-- A report ends a delegation that is paired already if it is an ending of its identifier. -/
theorem Orderly.partFor_ends? (h : t.Orderly)
    (hpaired : ∀ id', t.paired.get? id' = some call ↔ id' = id)
    (hcarries : Carries t.groups id call) (hgroup : ∀ e, r ≠ .finishGroup call e) :
    partFor call (t.ends? r) = partFor id r.ending? := by
  refine Option.ext fun e ↦ ?_
  rw [partFor_eq_some_iff, partFor_eq_some_iff, ends?_eq_some_iff]
  constructor
  · rintro (rfl | ⟨id', rfl, hid⟩ | ⟨q, hpairs, -⟩)
    · exact absurd rfl (hgroup e)
    · rw [(hpaired id').mp hid]
      rfl
    · exact absurd hpairs (h.pairs?_ne_of_carries hcarries q)
  · intro he
    cases r with
    | finished id' e' =>
      cases he
      exact Or.inr (Or.inl ⟨id, rfl, (hpaired id).mpr rfl⟩)
    | _ => cases he

/-- A pairing ends a delegation with the last of the endings that came before. -/
theorem endsWith_of_pairing (hcount : (requests (reports ++ [r])).count id ≤ 1)
    (hfinal : ∀ e ∈ endingsOf id reports, e.status.isTerminal = true)
    (hgroup : ∀ e, .finishGroup call e ∉ reports)
    (hunpaired : ¬ Carries (run reports).groups id call)
    (hd : (run (reports ++ [r])).groups.get? call = some d) (hid : d.delegation = some id) :
    d.EndsWith (endingsOf id reports).getLast? := by
  have horderly := orderly_run reports
  have hcarries : ∀ {c}, Carries (run (reports ++ [r])).groups id c ↔
      Carries (run reports).groups id c ∨
        ∃ q, (run reports).pairs? r = some (c, q) ∧ q.delegation = id := by
    intro c
    rw [run_concat]
    exact horderly.carries_step_iff r
  have hnobody : ∀ c, ¬ Carries (run reports).groups id c := fun c hc ↦
    hunpaired (eq_of_count_requests hcount (hcarries.mpr (Or.inl hc)) ⟨d, hd, hid⟩ ▸ hc)
  obtain ⟨q, hpairs, rfl⟩ := (hcarries.mp ⟨d, hd, hid⟩).resolve_left hunpaired
  rw [run_concat, horderly.get?_groups_step, partFor_ends?_of_pairs hpairs,
    keptEndings_run hnobody] at hd
  obtain ⟨d₀, hd₀, rfl⟩ := Option.map_eq_some_iff.mp hd
  have hbefore : d₀.EndsWith none := by
    rcases get?_entered hd₀ with hold | ⟨-, o, -, -, rfl⟩
    · obtain ⟨d', hd', hnone⟩ := horderly.exists_of_pairs? hpairs
      rw [groups_receive, hd₀] at hd'
      exact endsWith_none_run hgroup hold (Option.some.inj hd' ▸ hnone)
    · exact ⟨rfl, rfl, rfl⟩
  exact hbefore.after (fun e he ↦ by cases he)
    (fun e he ↦ hfinal e (List.mem_of_mem_getLast? he)) _ _

/-- After the pairing every ending of the identifier goes to the delegation. -/
theorem exists_endsWith_of_paired (hcount : (requests reports).count id ≤ 1)
    (hgroup : ∀ e, r ≠ .finishGroup call e) (hcarries : Carries (run reports).groups id call)
    (hd : (run (reports ++ [r])).groups.get? call = some d) :
    ∃ d₀, (run reports).groups.get? call = some d₀ ∧ d₀.delegation = some id ∧
      ∀ x, d₀.EndsWith x → (∀ e ∈ x, e.status.isTerminal = true) →
        (∀ e ∈ endingsOf id [r], e.status.isTerminal = true) →
        d.EndsWith (x.or (endingsOf id [r]).head?) := by
  have horderly := orderly_run reports
  have hpaired := paired_iff_of_count_requests hcount hcarries
  have hends := horderly.partFor_ends? hpaired hcarries hgroup
  obtain ⟨d₀, hd₀, hid⟩ := hcarries
  rw [run_concat, horderly.get?_groups_step, get?_entered_of_get? hd₀, hends] at hd
  obtain rfl := Option.some.inj hd
  rw [endingsOf_singleton, Option.head?_toList]
  exact ⟨d₀, hd₀, hid, fun x hx hfinal hlast ↦
    hx.after hfinal (fun e he ↦ hlast e (Option.mem_toList.mpr he)) _ _⟩

/-- A report pairs a call with an identifier, after some others. -/
structure PairsAt (id call : String) (before : List Report) (r : Report) : Prop where
  unpaired : ¬ Carries (run before).groups id call
  paired : Carries (run (before ++ [r])).groups id call

/-- The report that pairs a call is no ending. -/
theorem PairsAt.endingsOf_eq {before after : List Report} (h : PairsAt id call before r) :
    endingsOf id (before ++ r :: after) = endingsOf id before ++ endingsOf id after := by
  have hpaired := h.paired
  rw [run_concat, (orderly_run before).carries_step_iff, or_iff_right h.unpaired] at hpaired
  obtain ⟨q, hpairs, -⟩ := hpaired
  rw [← List.singleton_append, endingsOf_append, endingsOf_append, endingsOf_singleton]
  cases r with
  | finished _ _ => cases hpairs
  | _ => rfl

theorem exists_pairsAt (hcount : (requests reports).count id ≤ 1)
    (hfinal : ∀ e ∈ endingsOf id reports, e.status.isTerminal = true)
    (hgroup : ∀ e, .finishGroup call e ∉ reports) (hd : (run reports).groups.get? call = some d)
    (hid : d.delegation = some id) :
    ∃ before r after, reports = before ++ r :: after ∧ PairsAt id call before r ∧
      d.EndsWith ((endingsOf id before).getLast?.or (endingsOf id after).head?) := by
  induction reports using List.reverseRecOn generalizing d with
  | nil => cases hd
  | append_singleton reports r ih =>
    rw [endingsOf_append, List.forall_mem_append] at hfinal
    have hcount' : (requests reports).count id ≤ 1 := by
      rw [requests_append, List.count_append] at hcount
      exact Nat.le_of_add_right_le hcount
    have hgroup' : ∀ e, .finishGroup call e ∉ reports := fun e he ↦
      hgroup e (List.mem_append_left _ he)
    by_cases hcarries : Carries (run reports).groups id call
    · obtain ⟨d₀, hd₀, hid₀, hends⟩ := exists_endsWith_of_paired hcount'
        (fun e he ↦ hgroup e (he ▸ List.mem_append_right _ List.mem_cons_self)) hcarries hd
      obtain ⟨before, r', after, rfl, hpairs, hended⟩ := ih hcount' hfinal.1 hgroup' hd₀ hid₀
      refine ⟨before, r', after ++ [r], by rw [List.append_assoc, List.cons_append], hpairs, ?_⟩
      rw [endingsOf_append, List.head?_append, ← Option.or_assoc]
      refine hends _ hended (fun e he ↦ hfinal.1 e ?_) hfinal.2
      rw [hpairs.endingsOf_eq, List.mem_append]
      exact (Option.or_eq_some_iff.mp he).imp List.mem_of_mem_getLast? fun h ↦
        List.mem_of_mem_head? h.2
    · refine ⟨reports, r, [], rfl, ⟨hcarries, d, hd, hid⟩, ?_⟩
      have hended := endsWith_of_pairing hcount hfinal.1 hgroup' hcarries hd hid
      rwa [show (endingsOf id []).head? = none from rfl, Option.or_none]

/-- **Which ending counts.** An identifier that is asked for once is paired at one moment of the
run. The delegation ends with the last of the endings before this moment, or, if there is none, with
the first of those after it. So it ends with the first of all exactly if those before begin and end
alike. -/
theorem exists_pairsAt_endsWith_head?_iff (hcount : (requests reports).count id ≤ 1)
    (hfinal : ∀ e, .finished id e ∈ reports → e.status.isTerminal = true)
    (hgroup : ∀ e, .finishGroup call e ∉ reports) (hd : (run reports).groups.get? call = some d)
    (hid : d.delegation = some id) :
    ∃ before r after, reports = before ++ r :: after ∧ PairsAt id call before r ∧
      d.EndsWith ((endingsOf id before).getLast?.or (endingsOf id after).head?) ∧
      (d.EndsWith (endingsOf id reports).head? ↔
        (endingsOf id before).head? = (endingsOf id before).getLast?) := by
  obtain ⟨before, r, after, rfl, hpairs, hended⟩ := exists_pairsAt hcount
    (fun e he ↦ hfinal e (mem_endingsOf_iff.mp he)) hgroup hd hid
  refine ⟨before, r, after, rfl, hpairs, hended, ?_⟩
  rw [hpairs.endingsOf_eq, List.head?_append]
  cases hbefore : endingsOf id before with
  | nil =>
    rw [hbefore] at hended
    exact iff_of_true hended rfl
  | cons first rest =>
    rw [hbefore, List.getLast?_cons, Option.some_or] at hended
    rw [List.head?_cons, List.getLast?_cons, Option.some_or]
    constructor
    · intro h
      rw [← h.eq hended]
    · intro h
      rwa [h]

/-- Two endings for an identifier, and then its call and its request. -/
def endedTwiceEarly : List Report := [
  .finished "d1" ⟨.completed, ⟨1000⟩, some "done"⟩,
  .finished "d1" ⟨.failed, ⟨2000⟩, some "late"⟩,
  .opened ⟨"tc1", "main", some "worker", none, 0, ⟨3000⟩⟩,
  .requested ⟨"d1", some "worker", none⟩]

/-- The delegation ends with the second. -/
theorem not_endsWith_head?_endedTwiceEarly :
    (requests endedTwiceEarly).count "d1" ≤ 1 ∧
      (∀ e, .finished "d1" e ∈ endedTwiceEarly → e.status.isTerminal = true) ∧
      (∀ e, .finishGroup "tc1" e ∉ endedTwiceEarly) ∧
      ∃ d, (run endedTwiceEarly).groups.get? "tc1" = some d ∧ d.delegation = some "d1" ∧
        ¬ d.EndsWith (endingsOf "d1" endedTwiceEarly).head? := by
  have hrun : (run endedTwiceEarly).groups.get? "tc1" = some ⟨"tc1", "main", some "d1",
      some "worker", none, none, .failed, ⟨3000⟩, some ⟨2000⟩, some "late", 0⟩ := by decide
  refine ⟨by decide, ?_, by simp [endedTwiceEarly], _, hrun, rfl, fun h ↦ ?_⟩
  · simp [endedTwiceEarly, Status.isTerminal]
  · cases h.status_eq

/-- An ending before the pairing, and one after it. -/
def endedEarlyAndLate : List Report := [
  .finished "d1" ⟨.completed, ⟨1000⟩, some "done"⟩,
  .opened ⟨"tc1", "main", some "worker", none, 0, ⟨3000⟩⟩,
  .requested ⟨"d1", some "worker", none⟩,
  .finished "d1" ⟨.failed, ⟨4000⟩, some "late"⟩]

theorem exists_pairsAt_endedEarlyAndLate :
    (requests endedEarlyAndLate).count "d1" ≤ 1 ∧
      (∀ e, .finished "d1" e ∈ endedEarlyAndLate → e.status.isTerminal = true) ∧
      (∀ e, .finishGroup "tc1" e ∉ endedEarlyAndLate) ∧
      ∃ d, (run endedEarlyAndLate).groups.get? "tc1" = some d ∧ d.delegation = some "d1" ∧
        ∃ before r after, endedEarlyAndLate = before ++ r :: after ∧ PairsAt "d1" "tc1" before r ∧
          d.EndsWith ((endingsOf "d1" before).getLast?.or (endingsOf "d1" after).head?) ∧
          (d.EndsWith (endingsOf "d1" endedEarlyAndLate).head? ↔
            (endingsOf "d1" before).head? = (endingsOf "d1" before).getLast?) := by
  have hcount : (requests endedEarlyAndLate).count "d1" ≤ 1 := by decide
  have hfinal : ∀ e, .finished "d1" e ∈ endedEarlyAndLate → e.status.isTerminal = true := by
    simp [endedEarlyAndLate, Status.isTerminal]
  have hgroup : ∀ e, .finishGroup "tc1" e ∉ endedEarlyAndLate := by simp [endedEarlyAndLate]
  have hrun : (run endedEarlyAndLate).groups.get? "tc1" = some ⟨"tc1", "main", some "d1",
      some "worker", none, none, .completed, ⟨3000⟩, some ⟨1000⟩, some "done", 0⟩ := by decide
  exact ⟨hcount, hfinal, hgroup, _, hrun, rfl,
    exists_pairsAt_endsWith_head?_iff hcount hfinal hgroup hrun rfl⟩

end Tracker

end SessionReplay
