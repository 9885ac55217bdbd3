import SessionReplay.Proofs.Delegation.Agreement

/-!
# Whose an identifier is

A request is passed over when its identifier is paired. A request whose identifier is not paired yet
is taken in, even if another one for the same identifier is waiting for its call; then two calls can
get one identifier. `Tracker.length_bearers_add_length_asking_le_one_iff` says that this is the only
way: an identifier has one delegation or one waiting request at most, unless it was asked for again
while a request for it was waiting.

## Every request that was taken in is somewhere

A request that was taken in waits, or it gave its identifier to a delegation, and delegations keep
their identifiers. So the identifiers that delegations carry and those of the waiting requests are
together the identifiers that were asked for: `Tracker.Reaches.perm_asked`. How often one of them
stands there is then a matter of how often it was taken in.
-/

namespace SessionReplay

namespace Tracker

open Delegation (Advances)

variable {allowed : Ending → Prop} {cs asked : List String} {t : Tracker} {call id : String}
  {d d' : Delegation}

/-- The delegations that have an identifier. -/
def bearers (t : Tracker) (id : String) : List Delegation :=
  t.groups.values.filter fun d ↦ d.delegation == some id

/-- The requests for an identifier that wait for a call. -/
def asking (t : Tracker) (id : String) : List Request :=
  (waitingIn t.waitingRequests).filter fun r ↦ r.delegation == id

/-- An identifier was asked for while a request for it was waiting. -/
def AskedAgain (reports : List Report) (id : String) : Prop :=
  ∃ before r after, reports = before ++ .requested r :: after ∧ r.delegation = id ∧
    (run before).asking id ≠ []

/-! ## The identifiers in the tables -/

/-- The identifiers that delegations carry. -/
def carried (groups : Table Delegation) : List String :=
  groups.values.filterMap Delegation.delegation

/-- The identifiers of the requests that wait. -/
def wanted (queues : Table (List Request)) : List String :=
  (waitingIn queues).map Request.delegation

theorem length_bearers (t : Tracker) (id : String) :
    (t.bearers id).length = (carried t.groups).count id := by
  rw [bearers, carried, List.count_filterMap, List.countP_eq_length_filter]

private theorem length_asking (t : Tracker) (id : String) :
    (t.asking id).length = (wanted t.waitingRequests).count id := by
  rw [asking, wanted, List.count, List.countP_map, List.countP_eq_length_filter]
  rfl

theorem mem_carried_iff {groups : Table Delegation} :
    id ∈ carried groups ↔ ∃ call, Carries groups id call := by
  rw [carried, List.mem_filterMap]
  constructor
  · rintro ⟨d, hd, hid⟩
    obtain ⟨call, hcall⟩ := Table.mem_values_iff.mp hd
    exact ⟨call, d, hcall, hid⟩
  · rintro ⟨call, d, hcall, hid⟩
    exact ⟨d, Table.mem_values_iff.mpr ⟨call, hcall⟩, hid⟩

theorem filterMap_delegation_cons (d : Delegation) (ds : List Delegation) :
    (d :: ds).filterMap Delegation.delegation
      = d.delegation.toList ++ ds.filterMap Delegation.delegation := by
  rw [List.filterMap_cons]
  cases d.delegation <;> rfl

private theorem perm_carried_insert_of_eq_none {groups : Table Delegation}
    (hnew : groups.get? call = none) (d : Delegation) :
    (carried (groups.insert call d)).Perm (d.delegation.toList ++ carried groups) := by
  have hperm := (Table.perm_values_insert_of_eq_none hnew d).filterMap Delegation.delegation
  rwa [filterMap_delegation_cons] at hperm

/-- A change of a delegation exchanges its old identifier for its new one. -/
theorem perm_carried_insert {groups : Table Delegation} (hd : groups.get? call = some d)
    (d' : Delegation) :
    (d.delegation.toList ++ carried (groups.insert call d')).Perm
      (d'.delegation.toList ++ carried groups) := by
  obtain ⟨rest, hbefore, hafter⟩ := Table.exists_perm_values_insert hd d'
  have hbefore' := hbefore.filterMap Delegation.delegation
  have hafter' := hafter.filterMap Delegation.delegation
  rw [filterMap_delegation_cons] at hbefore' hafter'
  calc
    d.delegation.toList ++ carried (groups.insert call d')
      |>.Perm (d.delegation.toList ++ (d'.delegation.toList ++ _)) := hafter'.append_left _
    _ |>.Perm (d'.delegation.toList ++ (d.delegation.toList ++ _)) :=
        List.perm_append_comm_assoc _ _ _
    _ |>.Perm (d'.delegation.toList ++ carried groups) := hbefore'.symm.append_left _

private theorem perm_carried_insert_of_eq {groups : Table Delegation} (d' : Delegation)
    (hd : groups.get? call = some d) (heq : d'.delegation = d.delegation) :
    (carried (groups.insert call d')).Perm (carried groups) := by
  have hinsert := perm_carried_insert hd d'
  rwa [heq, List.perm_append_left_iff] at hinsert

theorem perm_wanted_of_takeFor? {queues queues' : Table (List Request)} {key : String} {r : Request}
    (h : takeFor? queues key = some (r, queues')) :
    (wanted queues).Perm (r.delegation :: wanted queues') :=
  (perm_waitingIn_of_takeFor? h).map _

private theorem perm_wanted_putLast (queues : Table (List Request)) (key : String) (r : Request) :
    (wanted (putLast queues key r)).Perm (r.delegation :: wanted queues) :=
  (perm_waitingIn_putLast queues key r).map _

/-- **Every request that was taken in** waits or gave its identifier to a delegation. -/
theorem Reaches.perm_asked (h : Reaches allowed cs asked t) :
    (carried t.groups ++ wanted t.waitingRequests).Perm asked := by
  induction h with
  | start => exact List.Perm.refl _
  | @wait _ _ t o _ hnew _ ih =>
    exact ((perm_carried_insert_of_eq_none hnew o.delegation).append_right _).trans ih
  | @meet _ asked t o r queues _ hnew htake ih =>
    rw [groups_couple, waitingRequests_couple]
    dsimp only [enter]
    rw [Table.insert_insert]
    calc
      carried (t.groups.insert o.call (o.delegation.pair r)) ++ wanted queues
        |>.Perm (r.delegation :: carried t.groups ++ wanted queues) :=
          (perm_carried_insert_of_eq_none hnew _).append_right _
      _ |>.Perm (carried t.groups ++ r.delegation :: wanted queues) := List.perm_middle.symm
      _ |>.Perm (carried t.groups ++ wanted t.waitingRequests) :=
          (perm_wanted_of_takeFor? htake).symm.append_left _
      _ |>.Perm asked := ih
  | @ask _ asked t r _ _ _ ih =>
    calc
      carried t.groups ++ wanted (putLast t.waitingRequests (queueKey r.target) r)
        |>.Perm (carried t.groups ++ r.delegation :: wanted t.waitingRequests) :=
          (perm_wanted_putLast _ _ r).append_left _
      _ |>.Perm (r.delegation :: (carried t.groups ++ wanted t.waitingRequests)) :=
          List.perm_middle
      _ |>.Perm (r.delegation :: asked) := ih.cons _
      _ |>.Perm (asked ++ [r.delegation]) := (List.perm_append_singleton _ _).symm
  | @answer _ asked t r call _ d _ _ _ hd hnone ih =>
    have hpair := perm_carried_insert hd (d.pair r)
    rw [hnone, Option.toList_none, List.nil_append] at hpair
    rw [groups_couple, waitingRequests_couple]
    calc
      carried (t.groups.insert call (d.pair r)) ++ wanted t.waitingRequests
        |>.Perm (r.delegation :: carried t.groups ++ wanted t.waitingRequests) :=
          hpair.append_right _
      _ |>.Perm (r.delegation :: asked) := ih.cons _
      _ |>.Perm (asked ++ [r.delegation]) := (List.perm_append_singleton _ _).symm
  | @attach _ _ t call child _ ih =>
    refine List.Perm.trans (List.Perm.append_right _ ?_) ih
    rw [attachChild, Table.modify]
    split
    · next d hd => exact perm_carried_insert_of_eq { d with child := some child } hd rfl
    · exact List.Perm.refl _
  | @finish _ _ t call e _ _ ih =>
    rw [waitingRequests_finishGroup]
    refine List.Perm.trans (List.Perm.append_right _ ?_) ih
    rw [finishGroup]
    split
    · exact List.Perm.refl _
    · next d hd =>
      exact perm_carried_insert_of_eq (d.finish e) hd (Delegation.advances_finish d e).delegation_eq
  | keepFork _ _ _ _ ih => exact ih
  | keepEnding _ _ _ _ _ ih => exact ih

/-- An identifier was taken in as often as it has delegations and waiting requests. -/
theorem Reaches.count_asked (h : Reaches allowed cs asked t) (id : String) :
    asked.count id = (t.bearers id).length + (t.asking id).length := by
  rw [length_bearers, length_asking, ← List.count_append, h.perm_asked.count_eq]

/-! ## What is paired -/

theorem carries_insert_iff {groups : Table Delegation} {c : String} :
    Carries (groups.insert call d) id c ↔
      (c = call ∧ d.delegation = some id) ∨ c ≠ call ∧ Carries groups id c := by
  rw [Carries, Carries, Table.get?_insert]
  split
  · next hc => simp [hc]
  · next hc => simp [hc]

/-- A call that was just entered carries no identifier. -/
theorem Carries.of_enter {o : Opening} {c : String} (h : Carries (t.enter o).groups id c) :
    Carries t.groups id c := by
  rcases carries_insert_iff.mp h with ⟨-, hid⟩ | ⟨-, hold⟩
  · cases hid
  · exact hold

theorem Carries.of_related {groups groups' : Table Delegation} {c : String}
    (h : Carries groups' id c) (hrelated : groups.Related Advances groups') :
    Carries groups id c := by
  obtain ⟨d', hd', hid⟩ := h
  obtain ⟨d, hd, hadvances⟩ := hrelated.exists_of_get?_eq_some hd'
  exact ⟨d, hd, hadvances.delegation_eq.symm.trans hid⟩

private theorem exists_paired_couple {r : Request} {c : String}
    (ih : ∀ c, Carries t.groups id c → ∃ c', t.paired.get? id = some c')
    (h : Carries (t.couple call d r).groups id c) :
    ∃ c', (t.couple call d r).paired.get? id = some c' := by
  rw [groups_couple, carries_insert_iff] at h
  rw [paired_couple, Table.get?_insert]
  split
  · exact ⟨call, rfl⟩
  · next hne =>
    rcases h with ⟨-, hid⟩ | ⟨-, hold⟩
    · exact absurd (Option.some.inj hid).symm hne
    · exact ih c hold

/-- The identifier of a delegation is paired. -/
theorem Reaches.exists_paired (h : Reaches allowed cs asked t) {c : String}
    (hcarries : Carries t.groups id c) : ∃ c', t.paired.get? id = some c' := by
  induction h generalizing c with
  | start =>
    obtain ⟨d, hd, -⟩ := hcarries
    cases hd
  | wait o _ _ _ ih => exact ih hcarries.of_enter
  | meet o _ _ _ ih => exact exists_paired_couple (fun _ hc ↦ ih hc.of_enter) hcarries
  | ask _ _ _ _ ih => exact ih hcarries
  | answer r _ _ _ _ _ ih => exact exists_paired_couple (fun _ hc ↦ ih hc) hcarries
  | @attach _ _ t call child _ ih =>
    exact ih (hcarries.of_related (t.related_attachChild call child))
  | @finish _ _ t call e _ _ ih =>
    rw [paired_finishGroup]
    exact ih (hcarries.of_related (t.related_finishGroup call e))
  | keepFork _ _ _ _ ih => exact ih hcarries
  | keepEnding _ _ _ _ _ ih => exact ih hcarries

/-- An identifier is paired if it has a delegation. -/
theorem Reaches.length_bearers_pos_iff (h : Reaches allowed cs asked t) :
    0 < (t.bearers id).length ↔ t.paired.contains id = true := by
  rw [length_bearers, List.count_pos_iff, mem_carried_iff, Table.contains_iff]
  exact ⟨fun ⟨_, hcarries⟩ ↦ h.exists_paired hcarries, fun ⟨c, hc⟩ ↦ ⟨c, h.carries hc⟩⟩

/-- Where an identifier has one delegation at most, that is the only one to carry it. -/
theorem Orderly.eq_of_carries (h : t.Orderly) (hle : (t.bearers id).length ≤ 1) {c c' : String}
    (hc : Carries t.groups id c) (hc' : Carries t.groups id c') : c = c' := by
  have hmem : ∀ {c d}, t.groups.get? c = some d → d.delegation = some id → d ∈ t.bearers id :=
    fun hget hid ↦ List.mem_filter.mpr ⟨Table.mem_values_iff.mpr ⟨_, hget⟩, beq_iff_eq.mpr hid⟩
  obtain ⟨d, hd, hid⟩ := hc
  obtain ⟨d', hd', hid'⟩ := hc'
  obtain ⟨b, hb⟩ := List.length_eq_one_iff.mp
    (Nat.le_antisymm hle (List.length_pos_of_mem (hmem hd hid)))
  have heq := hmem hd hid
  have heq' := hmem hd' hid'
  rw [hb, List.mem_singleton] at heq heq'
  rw [← h.call_eq c d hd, ← h.call_eq c' d' hd', heq, heq']

/-! ## Requests that come again -/

private theorem askedAgain_concat_iff {before : List Report} {r : Report} :
    AskedAgain (before ++ [r]) id ↔
      AskedAgain before id ∨ (r.request? = some id ∧ (run before).asking id ≠ []) := by
  constructor
  · rintro ⟨before', r', after, heq, hid, hasking⟩
    rcases List.eq_nil_or_concat' after with rfl | ⟨after, last, rfl⟩
    · obtain ⟨rfl, hr⟩ := List.append_inj' heq rfl
      obtain rfl := List.singleton_inj.mp hr
      exact Or.inr ⟨congrArg some hid, hasking⟩
    · rw [← List.cons_append, ← List.append_assoc] at heq
      obtain ⟨rfl, -⟩ := List.append_inj' heq rfl
      exact Or.inl ⟨before', r', after, rfl, hid, hasking⟩
  · rintro (⟨before', r', after, rfl, hid, hasking⟩ | ⟨hr, hasking⟩)
    · exact ⟨before', r', after ++ [r], by rw [List.append_assoc, List.cons_append], hid, hasking⟩
    · cases r with
      | requested r' => exact ⟨before, r', [], rfl, Option.some.inj hr, hasking⟩
      | opened _ => cases hr
      | forked _ _ => cases hr
      | finished _ _ => cases hr
      | finishGroup _ _ => cases hr

private theorem count_newRequests (t : Tracker) (r : Report) (id : String) :
    (t.newRequests r).count id
      = if r.request? = some id ∧ t.paired.contains id = false then 1 else 0 := by
  rw [newRequests]
  cases hr : r.request? with
  | none => simp
  | some id' =>
    rw [Option.filter_some]
    by_cases hid : id' = id
    · subst hid
      cases t.paired.contains id' <;> simp
    · split <;> simp [hid]

/-- An identifier was taken in twice if and only if it was asked for again while a request for it
was waiting. -/
theorem exists_reaches_run_askedAgain (reports : List Report) (id : String) :
    ∃ asked, Reaches (fun _ ↦ True) (calls reports) asked (run reports) ∧
      (2 ≤ asked.count id ↔ AskedAgain reports id) := by
  induction reports using List.reverseRecOn with
  | nil =>
    refine ⟨[], .start, iff_of_false (by simp) ?_⟩
    rintro ⟨before, r, after, heq, -⟩
    exact List.append_ne_nil_of_right_ne_nil _ (List.cons_ne_nil _ _) heq.symm
  | append_singleton before r ih =>
    obtain ⟨asked, hbefore, hiff⟩ := ih
    refine ⟨asked ++ (run before).newRequests r, ?_, ?_⟩
    · rw [run_concat, hbefore.calls_concat]
      exact hbefore.step (orderly_run before) r.allows_true
    · have hcount := hbefore.count_asked id
      have hasking : (run before).asking id ≠ [] ↔ 0 < ((run before).asking id).length :=
        List.length_pos_iff.symm
      have hbearers : 0 < ((run before).bearers id).length ↔
          (run before).paired.contains id = true := hbefore.length_bearers_pos_iff
      rw [askedAgain_concat_iff, ← hiff, List.count_append, count_newRequests, hasking]
      by_cases hr : r.request? = some id
      · -- what is waiting makes two with what is carried, or with the request that comes
        cases hpaired : (run before).paired.contains id with
        | true =>
          have hpos := hbearers.mpr hpaired
          simp only [hr, true_and, Bool.true_eq_false, if_false]
          omega
        | false =>
          have hzero : ((run before).bearers id).length = 0 :=
            Nat.eq_zero_of_not_pos fun hpos ↦ Bool.false_ne_true (hpaired ▸ hbearers.mp hpos)
          simp only [hr, true_and, if_true]
          omega
      · simp only [hr, false_and, if_false, or_false, Nat.add_zero]

/-- **Whose an identifier is.** It has one delegation or one waiting request at most, unless it was
asked for again while a request for it was waiting. -/
theorem length_bearers_add_length_asking_le_one_iff (reports : List Report) (id : String) :
    ((run reports).bearers id).length + ((run reports).asking id).length ≤ 1 ↔
      ¬ AskedAgain reports id := by
  obtain ⟨asked, hreaches, hiff⟩ := exists_reaches_run_askedAgain reports id
  rw [← hreaches.count_asked, ← hiff, Nat.not_le, Nat.lt_succ_iff]

/-- An identifier that was not asked for again belongs to one delegation. -/
theorem eq_of_not_askedAgain {reports : List Report} (h : ¬ AskedAgain reports id) {c c' : String}
    (hc : Carries (run reports).groups id c) (hc' : Carries (run reports).groups id c') :
    c = c' := by
  obtain ⟨asked, hreaches, hiff⟩ := exists_reaches_run_askedAgain reports id
  have hcount := hreaches.count_asked id
  rw [← hiff] at h
  exact (orderly_run reports).eq_of_carries (by omega) hc hc'

/-! ## Identifiers that are asked for once -/

/-- An identifier that is asked for once belongs to one call. -/
theorem eq_of_count_requests {reports : List Report} (h : (requests reports).count id ≤ 1)
    {c c' : String} (hc : Carries (run reports).groups id c)
    (hc' : Carries (run reports).groups id c') : c = c' := by
  obtain ⟨asked, hasked, hreaches⟩ := reaches_run fun x (_ : x ∈ reports) ↦ x.allows_true
  have hcount := hreaches.count_asked id
  have hle := hasked.count_le id
  exact (orderly_run reports).eq_of_carries (by omega) hc hc'

/-- And the table of pairs leads to this call. -/
theorem paired_iff_of_count_requests {reports : List Report} (h : (requests reports).count id ≤ 1)
    (hcarries : Carries (run reports).groups id call) (id' : String) :
    (run reports).paired.get? id' = some call ↔ id' = id := by
  obtain ⟨asked, -, hreaches⟩ := reaches_run fun x (_ : x ∈ reports) ↦ x.allows_true
  constructor
  · intro hpaired
    obtain ⟨d, hd, hid⟩ := hreaches.carries hpaired
    obtain ⟨d', hd', hid'⟩ := hcarries
    obtain rfl : d = d' := Option.some.inj (hd.symm.trans hd')
    exact Option.some.inj (hid.symm.trans hid')
  · rintro rfl
    obtain ⟨c, hc⟩ := hreaches.exists_paired hcarries
    rwa [eq_of_count_requests h hcarries (hreaches.carries hc)]

end Tracker

end SessionReplay
