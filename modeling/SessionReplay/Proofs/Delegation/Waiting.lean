import SessionReplay.Proofs.Delegation.Evolution

/-!
# Calls that wait

A call waits in one queue, once, exactly as long as it is not paired. This is the invariant
`Tracker.Orderly`. It is what makes a pairing final: the call that a request takes from a queue has
no identifier yet, and no queue holds it any more.

## Queues without their names

Which queue a call stands in decides with which request it is paired, but not whether it waits. So
the queues are thrown together, `waitingIn`, and taking from one and adding to one are permutations:
`perm_waitingIn_of_takeFor?` and `perm_waitingIn_putLast`.

## The gap in the middle of a step

Between leaving its queue and being paired a call is neither waiting nor paired. `OrderlyBut` is the
invariant with this one gap; a pairing closes it, and so does putting the call back in a queue.
-/

namespace SessionReplay

/-! ## Queues -/

section Queues

variable {α : Type} {queues queues' : Table (List α)} {key : String} {x : α}

/-- All that waits in one of some queues. -/
def waitingIn (queues : Table (List α)) : List α := queues.values.flatten

private theorem perm_waitingIn_of_takeFirst? (h : takeFirst? queues key = some (x, queues')) :
    (waitingIn queues).Perm (x :: waitingIn queues') := by
  rw [takeFirst?] at h
  split at h
  · next y rest hget =>
    cases h
    obtain ⟨others, hbefore, hafter⟩ := Table.exists_perm_values_insert hget rest
    calc (waitingIn queues).Perm ((x :: rest) :: others).flatten := hbefore.flatten
      _ = x :: (rest :: others).flatten := rfl
      _ |>.Perm (x :: waitingIn (queues.insert key rest)) := hafter.symm.flatten.cons x
  · cases h

theorem perm_waitingIn_of_takeFor? (h : takeFor? queues key = some (x, queues')) :
    (waitingIn queues).Perm (x :: waitingIn queues') := by
  rw [takeFor?, Option.or_eq_some_iff] at h
  rcases h with h | ⟨-, h⟩
  · exact perm_waitingIn_of_takeFirst? h
  · exact perm_waitingIn_of_takeFirst? h

theorem perm_waitingIn_putLast (queues : Table (List α)) (key : String) (x : α) :
    (waitingIn (putLast queues key x)).Perm (x :: waitingIn queues) := by
  rw [putLast]
  cases hget : queues.get? key with
  | none => exact (Table.perm_values_insert_of_eq_none hget [x]).flatten
  | some queue =>
    obtain ⟨others, hbefore, hafter⟩ := Table.exists_perm_values_insert hget (queue ++ [x])
    have hmiddle : ((queue ++ [x]) :: others).flatten.Perm (x :: (queue :: others).flatten) := by
      rw [List.flatten_cons, List.flatten_cons, List.append_assoc, List.singleton_append]
      exact List.perm_middle
    exact hafter.flatten.trans (hmiddle.trans (hbefore.symm.flatten.cons x))

end Queues

namespace Tracker

open Delegation (Advances Evolves IsProgress)

/-! ## The invariant -/

/-- The calls that wait for a request. -/
def waiting (t : Tracker) : List String := waitingIn t.waitingCalls

/-- Delegations are held under their calls, and exactly the unpaired ones wait, each once. -/
structure Orderly (t : Tracker) : Prop where
  call_eq : ∀ call d, t.groups.get? call = some d → d.call = call
  nodup_waiting : t.waiting.Nodup
  mem_waiting_iff : ∀ call,
    call ∈ t.waiting ↔ ∃ d, t.groups.get? call = some d ∧ d.delegation = none

/-- The same for all calls but one, which is not paired and does not wait. -/
structure OrderlyBut (t : Tracker) (gap : String) : Prop where
  call_eq : ∀ call d, t.groups.get? call = some d → d.call = call
  nodup_waiting : t.waiting.Nodup
  mem_waiting_iff : ∀ call,
    call ∈ t.waiting ↔ call ≠ gap ∧ ∃ d, t.groups.get? call = some d ∧ d.delegation = none
  unpaired : ∃ d, t.groups.get? gap = some d ∧ d.delegation = none

theorem orderly_empty : empty.Orderly where
  call_eq call d h := by
    rw [empty, Table.get?_empty] at h
    cases h
  nodup_waiting := List.nodup_nil
  mem_waiting_iff call := by
    simp [waiting, waitingIn, empty, Table.values, Table.empty, Table.get?]

/-! ## What leaves the queues alone -/

@[simp] theorem waitingCalls_finishGroup (t : Tracker) (group : String) (e : Ending) :
    (t.finishGroup group e).waitingCalls = t.waitingCalls := by
  rw [finishGroup]
  split <;> rfl

@[simp] theorem waitingCalls_activate (t : Tracker) (id group : String) (d : Delegation) :
    (t.activate id group d).waitingCalls = t.waitingCalls := by
  rw [activate]
  split <;> rfl

@[simp] theorem waitingCalls_releaseFork (t : Tracker) (id group : String) :
    (t.releaseFork id group).waitingCalls = t.waitingCalls := by
  rw [releaseFork]
  split <;> rfl

@[simp] theorem waitingCalls_releaseEnding (t : Tracker) (id group : String) :
    (t.releaseEnding id group).waitingCalls = t.waitingCalls := by
  rw [releaseEnding]
  split <;> simp

@[simp] theorem waitingCalls_pair (t : Tracker) (group : String) (r : Request) :
    (t.pair group r).waitingCalls = t.waitingCalls := by
  rw [pair]
  split
  · rfl
  · simp

/-! ## Preservation -/

variable {t u : Tracker} {gap : String}

/-- Endings and child sessions keep the invariant. -/
theorem Orderly.of_related (h : t.Orderly) (hgroups : t.groups.Related Advances u.groups)
    (hwaiting : u.waitingCalls = t.waitingCalls) : u.Orderly where
  call_eq call d hd := by
    obtain ⟨d₀, hd₀, hadvances⟩ := hgroups.exists_of_get?_eq_some hd
    rw [hadvances.call_eq, h.call_eq call d₀ hd₀]
  nodup_waiting := by
    rw [waiting, hwaiting]
    exact h.nodup_waiting
  mem_waiting_iff call := by
    rw [waiting, hwaiting]
    refine (h.mem_waiting_iff call).trans ⟨?_, ?_⟩
    · rintro ⟨d, hd, hnone⟩
      obtain ⟨d', hd', hadvances⟩ := hgroups.get?_eq_some hd
      exact ⟨d', hd', hadvances.delegation_eq.trans hnone⟩
    · rintro ⟨d', hd', hnone⟩
      obtain ⟨d, hd, hadvances⟩ := hgroups.exists_of_get?_eq_some hd'
      exact ⟨d, hd, hadvances.delegation_eq.symm.trans hnone⟩

/-- A pairing closes the gap: the call is paired and does not wait. -/
theorem OrderlyBut.pair (h : t.OrderlyBut gap) (r : Request) : (t.pair gap r).Orderly := by
  -- `hrelated` compares the end with the tracker in which nothing but the gap was paired
  obtain ⟨d, hd, hnone⟩ := h.unpaired
  have hrelated := t.related_pair hd r
  refine ⟨fun call d' hd' ↦ ?_, ?_, fun call ↦ ?_⟩
  · obtain ⟨d₀, hd₀, hadvances⟩ := hrelated.exists_of_get?_eq_some hd'
    rw [hadvances.call_eq]
    rw [Table.get?_insert] at hd₀
    split at hd₀
    · next hcall =>
      rw [← Option.some.inj hd₀, hcall]
      exact h.call_eq gap d hd
    · exact h.call_eq call d₀ hd₀
  · rw [waiting, waitingCalls_pair]
    exact h.nodup_waiting
  · rw [waiting, waitingCalls_pair]
    refine (h.mem_waiting_iff call).trans ⟨?_, ?_⟩
    · rintro ⟨hne, d₀, hd₀, hnone₀⟩
      rw [← Table.get?_insert_of_ne t.groups (d.pair r) hne] at hd₀
      obtain ⟨d', hd', hadvances⟩ := hrelated.get?_eq_some hd₀
      exact ⟨d', hd', hadvances.delegation_eq.trans hnone₀⟩
    · rintro ⟨d', hd', hnone'⟩
      obtain ⟨d₀, hd₀, hadvances⟩ := hrelated.exists_of_get?_eq_some hd'
      have hnone₀ : d₀.delegation = none := hadvances.delegation_eq.symm.trans hnone'
      rw [Table.get?_insert] at hd₀
      split at hd₀
      · rw [← Option.some.inj hd₀] at hnone₀
        cases hnone₀
      · next hne => exact ⟨hne, d₀, hd₀, hnone₀⟩

/-- Putting the call in a queue closes the gap too. -/
theorem OrderlyBut.putLast (h : t.OrderlyBut gap) (key : String) :
    ({ t with waitingCalls := putLast t.waitingCalls key gap } : Tracker).Orderly := by
  have hperm := perm_waitingIn_putLast t.waitingCalls key gap
  refine ⟨h.call_eq, ?_, fun call ↦ ?_⟩
  · refine hperm.nodup_iff.mpr (List.nodup_cons.mpr ⟨fun hmem ↦ ?_, h.nodup_waiting⟩)
    exact ((h.mem_waiting_iff gap).mp hmem).1 rfl
  · refine hperm.mem_iff.trans (List.mem_cons.trans ?_)
    constructor
    · rintro (rfl | hmem)
      · exact h.unpaired
      · exact ((h.mem_waiting_iff call).mp hmem).2
    · intro hunpaired
      by_cases hcall : call = gap
      · exact Or.inl hcall
      · exact Or.inr ((h.mem_waiting_iff call).mpr ⟨hcall, hunpaired⟩)

/-- The tracker with the delegation of a new call, which neither waits nor is paired yet. -/
def enter (t : Tracker) (o : Opening) : Tracker :=
  { t with
    groups := t.groups.insert o.call o.delegation
    openCalls := t.openCalls.insert o.agent (o.call :: t.stack o.agent) }

theorem opened_eq (t : Tracker) (o : Opening) :
    t.opened o = if t.groups.contains o.call then t else
      match takeFor? t.waitingRequests (queueKey o.target) with
      | some (r, queues) => { t.enter o with waitingRequests := queues }.pair o.call r
      | none =>
        { t.enter o with waitingCalls := putLast t.waitingCalls (queueKey o.target) o.call } :=
  rfl

/-- A call that was just entered is a gap until it waits or is paired. -/
theorem Orderly.orderlyBut_enter (h : t.Orderly) {o : Opening}
    (hnew : t.groups.get? o.call = none) (waitingRequests : Table (List Request)) :
    ({ t.enter o with waitingRequests } : Tracker).OrderlyBut o.call where
  call_eq call d hd := by
    have hd : (t.groups.insert o.call o.delegation).get? call = some d := hd
    rw [Table.get?_insert] at hd
    split at hd
    · next hcall => rw [← Option.some.inj hd, hcall]; rfl
    · exact h.call_eq call d hd
  nodup_waiting := h.nodup_waiting
  mem_waiting_iff call := by
    refine (h.mem_waiting_iff call).trans ⟨?_, ?_⟩
    · rintro ⟨d, hd, hnone⟩
      have hne : call ≠ o.call := by
        rintro rfl
        rw [hnew] at hd
        cases hd
      exact ⟨hne, d, (Table.get?_insert_of_ne _ _ hne).trans hd, hnone⟩
    · rintro ⟨hne, d, hd, hnone⟩
      exact ⟨d, (Table.get?_insert_of_ne _ _ hne).symm.trans hd, hnone⟩
  unpaired := ⟨o.delegation, Table.get?_insert_self _ _ _, rfl⟩

/-- A call that was taken from a queue is a gap until it is paired. -/
theorem Orderly.orderlyBut_take (h : t.Orderly) {key call : String}
    {queues : Table (List String)} (htake : takeFor? t.waitingCalls key = some (call, queues)) :
    ({ t with waitingCalls := queues } : Tracker).OrderlyBut call := by
  have hperm := perm_waitingIn_of_takeFor? htake
  have hnodup := List.nodup_cons.mp (hperm.nodup_iff.mp h.nodup_waiting)
  refine ⟨h.call_eq, hnodup.2, fun c ↦ ?_, ?_⟩
  · have hmem : c ∈ t.waiting ↔ c = call ∨ c ∈ waitingIn queues :=
      hperm.mem_iff.trans List.mem_cons
    constructor
    · intro hc
      refine ⟨?_, (h.mem_waiting_iff c).mp (hmem.mpr (Or.inr hc))⟩
      rintro rfl
      exact hnodup.1 hc
    · rintro ⟨hne, hunpaired⟩
      exact (hmem.mp ((h.mem_waiting_iff c).mpr hunpaired)).resolve_left hne
  · exact (h.mem_waiting_iff call).mp (hperm.mem_iff.mpr List.mem_cons_self)

/-! ## Steps and runs -/

/-- The delegations before a report, with the one that the report enters. -/
def entered (t : Tracker) : Report → Table Delegation
  | .opened o => t.groups.insertNew o.call o.delegation
  | _ => t.groups

variable {R : Delegation → Delegation → Prop}

theorem Orderly.opened (h : t.Orderly) (hR : IsProgress R) (o : Opening) :
    (t.opened o).Orderly ∧
      (t.groups.insertNew o.call o.delegation).Related R (t.opened o).groups := by
  rw [opened_eq, Table.insertNew]
  by_cases hcontains : t.groups.contains o.call = true
  · rw [if_pos hcontains, if_pos hcontains]
    exact ⟨h, Table.Related.refl hR.refl _⟩
  · -- the call is new, so no queue can hold it yet
    rw [if_neg hcontains, if_neg hcontains]
    have hnew : t.groups.get? o.call = none := by
      rw [Table.contains, Bool.not_eq_true, Option.isSome_eq_false_iff, Option.isNone_iff_eq_none]
        at hcontains
      exact hcontains
    split
    · next r queues _ =>
      have hentered : (t.enter o).groups.get? o.call = some o.delegation :=
        Table.get?_insert_self _ _ _
      exact ⟨(h.orderlyBut_enter hnew queues).pair r,
        related_pair_of_unpaired { t.enter o with waitingRequests := queues } hR hentered rfl r⟩
    · exact ⟨(h.orderlyBut_enter hnew t.waitingRequests).putLast _,
        Table.Related.refl hR.refl _⟩

theorem Orderly.requested (h : t.Orderly) (hR : IsProgress R) (r : Request) :
    (t.requested r).Orderly ∧ t.groups.Related R (t.requested r).groups := by
  rw [Tracker.requested]
  split
  · exact ⟨h, Table.Related.refl hR.refl _⟩
  · split
    · next call queues htake =>
      have hgap := h.orderlyBut_take htake
      obtain ⟨d, hd, hnone⟩ := hgap.unpaired
      exact ⟨hgap.pair r, related_pair_of_unpaired _ hR hd hnone r⟩
    · exact ⟨⟨h.call_eq, h.nodup_waiting, h.mem_waiting_iff⟩, Table.Related.refl hR.refl _⟩

theorem Orderly.finishGroup (h : t.Orderly) (group : String) (e : Ending) :
    (t.finishGroup group e).Orderly :=
  h.of_related (t.related_finishGroup group e) (waitingCalls_finishGroup t group e)

theorem Orderly.attachChild (h : t.Orderly) (group child : String) :
    (t.attachChild group child).Orderly :=
  h.of_related (t.related_attachChild group child) rfl

/-- **One report.** It keeps the invariant, and what it does to a delegation is progress. -/
theorem Orderly.step_of (h : t.Orderly) (hR : IsProgress R) (r : Report) :
    (t.step r).Orderly ∧ (t.entered r).Related R (t.step r).groups := by
  cases r with
  | opened o => exact h.opened hR o
  | requested r => exact h.requested hR r
  | forked id child =>
    rw [Tracker.step, forked]
    split
    · next group _ =>
      exact ⟨h.attachChild group child, (t.related_attachChild group child).mono hR.of_advances⟩
    · exact ⟨⟨h.call_eq, h.nodup_waiting, h.mem_waiting_iff⟩, Table.Related.refl hR.refl _⟩
  | finished id e =>
    rw [Tracker.step, finished]
    split
    · next group _ =>
      exact ⟨h.finishGroup group e, (t.related_finishGroup group e).mono hR.of_advances⟩
    · exact ⟨⟨h.call_eq, h.nodup_waiting, h.mem_waiting_iff⟩, Table.Related.refl hR.refl _⟩
  | finishGroup group e =>
    exact ⟨h.finishGroup group e, (t.related_finishGroup group e).mono hR.of_advances⟩

/-- Every delegation is still there, in its old state or a later one. -/
theorem Orderly.step (h : t.Orderly) (r : Report) :
    (t.step r).Orderly ∧ (t.entered r).Related Evolves (t.step r).groups :=
  h.step_of Delegation.isProgress_evolves r

private theorem keeps_entered (hR : IsProgress R) (t : Tracker) (r : Report) :
    t.groups.Keeps R (t.entered r) := by
  cases r with
  | opened o => exact Table.Keeps.insertNew hR.refl _ _ _
  | _ => exact Table.Keeps.refl hR.refl _

theorem Orderly.keeps_step_of (h : t.Orderly) (hR : IsProgress R) (r : Report) :
    t.groups.Keeps R (t.step r).groups :=
  (keeps_entered hR t r).trans hR.trans (h.step_of hR r).2.keeps

/-- No report loses a delegation or turns it back. -/
theorem Orderly.keeps_step (h : t.Orderly) (r : Report) :
    t.groups.Keeps Evolves (t.step r).groups :=
  h.keeps_step_of Delegation.isProgress_evolves r

/-- **Any number of reports.** -/
theorem orderly_run (reports : List Report) : (run reports).Orderly := by
  suffices hs : ∀ t : Tracker, t.Orderly → (reports.foldl Tracker.step t).Orderly from
    hs empty orderly_empty
  induction reports with
  | nil => exact fun t ht ↦ ht
  | cons r rest ih => exact fun t ht ↦ ih _ (ht.step r).1

end Tracker

end SessionReplay
