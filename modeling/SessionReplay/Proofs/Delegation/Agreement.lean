import SessionReplay.Proofs.Delegation.Reach

/-!
# The tables of a tracker agree

A tracker keeps eight tables, and most facts stand in several of them: a delegation in progress has
no end and stands on the stack of its agent, an identifier stands in a delegation and leads to it, a
route leads to a delegation that has its identifier and its target. `Tracker.Agree` says that the
tables never contradict each other, and `Tracker.agree_run` that this holds after any reports whose
endings are final.

## Which parts lean on each other

Nothing here needs that an identifier is paired once. A second pairing with an identifier turns
`paired` and the route to the new call, and both are then right of the new call. The stacks do need
that endings are final: an ending that is none takes a call from its stack and leaves it in
progress.
-/

namespace SessionReplay

namespace Tracker

open Delegation (Advances Evolves)

/-- A delegation of an agent that is in progress. -/
def IsOpen (groups : Table Delegation) (agent call : String) : Prop :=
  ∃ d, groups.get? call = some d ∧ d.agent = agent ∧ d.isInProgress = true

/-- What a route leads to: a delegation in progress, with the identifier and the target of the
route. -/
def Leads (groups : Table Delegation) (id : String) (route : Route) : Prop :=
  ∃ d, groups.get? route.group = some d ∧ d.isInProgress = true ∧ d.delegation = some id ∧
    d.target = some route.target

/-- A delegation that has an identifier. -/
def Carries (groups : Table Delegation) (id call : String) : Prop :=
  ∃ d, groups.get? call = some d ∧ d.delegation = some id

/-- What the tables of a tracker say of each other, after some calls. -/
structure Agree (cs : List String) (t : Tracker) : Prop where
  /-- A delegation is in progress exactly if it has no end. -/
  isInProgress_iff : ∀ call d, t.groups.get? call = some d →
    (d.isInProgress = true ↔ d.stop = none)
  /-- The stack of an agent holds its delegations in progress. -/
  mem_stack_iff : ∀ agent call, call ∈ t.stack agent ↔ IsOpen t.groups agent call
  nodup_stack : ∀ agent, (t.stack agent).Nodup
  /-- From the outermost to the innermost, the calls on a stack are in the order in which they
  came. -/
  sublist_stack : ∀ agent, (t.stack agent).reverse.Sublist cs
  leads : ∀ id route, t.routes.get? id = some route → Leads t.groups id route
  /-- All queues together hold an unpaired call once and a paired one never. -/
  count_waiting : ∀ call d, t.groups.get? call = some d →
    t.waiting.count call = if d.delegation = none then 1 else 0
  /-- A paired identifier leads to a delegation that carries it. -/
  carries : ∀ id call, t.paired.get? id = some call → Carries t.groups id call
  /-- Nothing is kept for a paired identifier. -/
  kept : ∀ id call, t.paired.get? id = some call →
    t.keptForks.get? id = none ∧ t.keptEndings.get? id = none

variable {allowed : Ending → Prop} {cs asked : List String} {t : Tracker} {call : String}
  {d : Delegation}

/-! ## Every delegation -/

/-- What is true of a new delegation, and stays true, is true of all. -/
theorem Reaches.forall_groups {P : Delegation → Prop} (hnew : ∀ o : Opening, P o.delegation)
    (hpair : ∀ d r, P d → P (d.pair r)) (hchild : ∀ d child, P d → P { d with child := some child })
    (hfinish : ∀ d e, allowed e → P d → P (d.finish e)) (h : Reaches allowed cs asked t)
    (hd : t.groups.get? call = some d) : P d := by
  induction h generalizing d with
  | start => cases hd
  | wait o _ _ _ ih =>
    dsimp only [enter] at hd
    rw [Table.get?_insert] at hd
    split at hd
    · exact Option.some.inj hd ▸ hnew o
    · exact ih hd
  | @meet _ _ _ o r _ _ _ _ ih =>
    rw [groups_couple, Table.get?_insert] at hd
    split at hd
    · exact Option.some.inj hd ▸ hpair _ r (hnew o)
    · next hne =>
      dsimp only [enter] at hd
      rw [Table.get?_insert_of_ne _ _ hne] at hd
      exact ih hd
  | ask _ _ _ _ ih => exact ih hd
  | answer r _ _ _ hd₀ _ ih =>
    rw [groups_couple, Table.get?_insert] at hd
    split at hd
    · next hc => exact Option.some.inj hd ▸ hpair _ r (ih (hc ▸ hd₀))
    · exact ih hd
  | attach c child _ ih =>
    rw [attachChild, Table.get?_modify] at hd
    split at hd
    · next hc =>
      obtain ⟨d₀, hd₀, rfl⟩ := Option.map_eq_some_iff.mp hd
      exact hchild d₀ child (ih (hc ▸ hd₀))
    · exact ih hd
  | finish c e _ he ih =>
    rw [get?_groups_finishGroup] at hd
    split at hd
    · next hc =>
      obtain ⟨d₀, hd₀, rfl⟩ := Option.map_eq_some_iff.mp hd
      exact hfinish d₀ e he (ih (hc ▸ hd₀))
    · exact ih hd
  | keepFork _ _ _ _ ih => exact ih hd
  | keepEnding _ _ _ _ _ ih => exact ih hd

private theorem isInProgress_finish_iff (e : Ending) (h : d.isInProgress = true ↔ d.stop = none) :
    (d.finish e).isInProgress = true ↔ (d.finish e).stop = none := by
  rw [Delegation.finish]
  split
  · exact h
  · next hfinal =>
    rw [Bool.or_eq_true, not_or, Bool.not_eq_true', Bool.not_eq_false] at hfinal
    refine iff_of_false (fun hprogress ↦ ?_) (Option.some_ne_none _)
    have hstatus : e.status = .inProgress := beq_iff_eq.mp hprogress
    rw [hstatus] at hfinal
    exact Bool.false_ne_true hfinal.2

theorem Reaches.isInProgress_iff (h : Reaches allowed cs asked t)
    (hd : t.groups.get? call = some d) : d.isInProgress = true ↔ d.stop = none :=
  h.forall_groups (P := fun d ↦ d.isInProgress = true ↔ d.stop = none)
    (fun _ ↦ iff_of_true rfl rfl) (fun _ _ hd ↦ hd) (fun _ _ hd ↦ hd)
    (fun _ e _ hd ↦ isInProgress_finish_iff e hd) hd

/-! ## Stacks -/

section IsOpen

variable {groups : Table Delegation} {agent c : String}

private theorem isOpen_insert_of_eq_none (hnew : groups.get? call = none) :
    IsOpen (groups.insert call d) agent c ↔
      (c = call ∧ d.agent = agent ∧ d.isInProgress = true) ∨ IsOpen groups agent c := by
  rw [IsOpen, IsOpen, Table.get?_insert]
  split
  · next hc => simp [hc, hnew]
  · next hc => simp [hc]

/-- A change that is no ending leaves open what was open. -/
theorem isOpen_insert_of_eq (d' : Delegation) (hd : groups.get? call = some d)
    (hagent : d'.agent = d.agent) (hstatus : d'.status = d.status) :
    IsOpen (groups.insert call d') agent c ↔ IsOpen groups agent c := by
  rw [IsOpen, IsOpen, Table.get?_insert]
  split
  · next hc => simp [hc, hd, hagent, hstatus, Delegation.isInProgress]
  · rfl

private theorem isOpen_insert_of_ended (hended : d.isInProgress = false) :
    IsOpen (groups.insert call d) agent c ↔ c ≠ call ∧ IsOpen groups agent c := by
  rw [IsOpen, IsOpen, Table.get?_insert]
  split
  · next hc => simp [hc, hended]
  · next hc => simp [hc]

end IsOpen

theorem isInProgress_finish {e : Ending} (he : e.status.isTerminal = true) :
    (d.finish e).isInProgress = false := by
  rw [Delegation.finish, he, Bool.not_true, Bool.or_false]
  split
  · next hfinal =>
    cases hstatus : d.status with
    | inProgress => rw [hstatus] at hfinal; cases hfinal
    | completed => rw [Delegation.isInProgress, hstatus]; rfl
    | failed => rw [Delegation.isInProgress, hstatus]; rfl
  · cases hstatus : e.status with
    | inProgress => rw [hstatus] at he; cases he
    | completed => rfl
    | failed => rfl

private theorem mem_stack_enter_iff {o : Opening} {agent c : String}
    (hnew : t.groups.get? o.call = none) (h : c ∈ t.stack agent ↔ IsOpen t.groups agent c) :
    c ∈ (t.enter o).stack agent ↔ IsOpen (t.enter o).groups agent c := by
  rw [stack_enter]
  refine Iff.trans ?_ (isOpen_insert_of_eq_none hnew).symm
  split
  · next hagent =>
    rw [List.mem_cons, h, hagent]
    exact or_congr_left ⟨fun hc ↦ ⟨hc, rfl, rfl⟩, fun hc ↦ hc.1⟩
  · next hagent =>
    rw [h]
    exact ⟨Or.inr, fun hc ↦ hc.resolve_left fun hc ↦ hagent hc.2.1.symm⟩

/-- The stacks hold what is in progress. This needs that endings are final. -/
theorem Reaches.mem_stack_iff (h : Reaches (·.status.isTerminal = true) cs asked t)
    (agent c : String) : c ∈ t.stack agent ↔ IsOpen t.groups agent c := by
  induction h with
  | start => simp [empty, stack, IsOpen]
  | wait o _ hnew _ ih => exact mem_stack_enter_iff hnew ih
  | @meet _ _ t o r _ _ hnew _ ih =>
    have hentered : (t.enter o).groups.get? o.call = some o.delegation :=
      Table.get?_insert_self _ _ _
    rw [stack_couple, groups_couple]
    exact (mem_stack_enter_iff hnew ih).trans
      (isOpen_insert_of_eq (o.delegation.pair r) hentered rfl rfl).symm
  | ask _ _ _ _ ih => exact ih
  | @answer _ _ _ r _ _ d _ _ _ hd _ ih =>
    rw [stack_couple, groups_couple]
    exact ih.trans (isOpen_insert_of_eq (d.pair r) hd rfl rfl).symm
  | @attach _ _ t call child _ ih =>
    refine ih.trans ?_
    rw [attachChild, Table.modify]
    split
    · next d hd => exact (isOpen_insert_of_eq { d with child := some child } hd rfl rfl).symm
    · rfl
  | @finish _ _ t call e _ he ih =>
    cases hd : t.groups.get? call with
    | none => rwa [finishGroup, hd]
    | some d =>
      rw [stack_finishGroup hd]
      have hgroups : (t.finishGroup call e).groups = t.groups.insert call (d.finish e) := by
        rw [finishGroup, hd]
      rw [hgroups, isOpen_insert_of_ended (isInProgress_finish he), ← ih]
      split
      · rw [List.mem_filter, bne_iff_ne, and_comm]
      · next hagent =>
        -- the call is on the stack of its own agent only
        refine (and_iff_right_of_imp fun hc ↦ ?_).symm
        rintro rfl
        obtain ⟨d', hd', hagent', -⟩ := ih.mp hc
        rw [hd] at hd'
        exact hagent (Option.some.inj hd' ▸ hagent'.symm)
  | keepFork _ _ _ _ ih => exact ih
  | keepEnding _ _ _ _ _ ih => exact ih

private theorem sublist_stack_enter {o : Opening} {agent : String}
    (h : (t.stack agent).reverse.Sublist cs) :
    ((t.enter o).stack agent).reverse.Sublist (cs ++ [o.call]) := by
  rw [stack_enter]
  split
  · rw [List.reverse_cons]
    exact h.append (List.Sublist.refl _)
  · exact h.trans (List.sublist_append_left _ _)

/-- New calls come to the top of a stack, and the others keep their order. -/
theorem Reaches.sublist_stack (h : Reaches allowed cs asked t) (agent : String) :
    (t.stack agent).reverse.Sublist cs := by
  induction h with
  | start => exact List.Sublist.refl _
  | wait _ _ _ _ ih => exact sublist_stack_enter ih
  | meet _ _ _ _ ih =>
    rw [stack_couple]
    exact sublist_stack_enter ih
  | ask _ _ _ _ ih => exact ih
  | answer _ _ _ _ _ _ ih =>
    rw [stack_couple]
    exact ih
  | attach _ _ _ ih => exact ih
  | @finish _ _ t call e _ _ ih =>
    refine List.Sublist.trans (List.Sublist.reverse ?_) ih
    cases hd : t.groups.get? call with
    | none => rw [finishGroup, hd]
    | some d =>
      rw [stack_finishGroup hd]
      split
      · exact List.filter_sublist
      · exact List.Sublist.refl _
  | keepFork _ _ _ _ ih => exact ih
  | keepEnding _ _ _ _ _ ih => exact ih

theorem Reaches.nodup_calls (h : Reaches allowed cs asked t) : cs.Nodup := by
  have hconcat : ∀ {cs asked t} {o : Opening}, Reaches allowed cs asked t → cs.Nodup →
      t.groups.get? o.call = none → (cs ++ [o.call]).Nodup := by
    intro cs asked t o h hcs hnew
    refine List.nodup_append.mpr ⟨hcs, List.nodup_singleton _, fun c hc c' hc' ↦ ?_⟩
    rintro rfl
    obtain ⟨d, hd⟩ := Table.contains_iff.mp (h.mem_calls_iff.mp hc)
    rw [List.mem_singleton.mp hc', hnew] at hd
    cases hd
  induction h with
  | start => exact List.nodup_nil
  | wait _ h hnew _ ih => exact hconcat h ih hnew
  | meet _ h hnew _ ih => exact hconcat h ih hnew
  | ask _ _ _ _ ih => exact ih
  | answer _ _ _ _ _ _ ih => exact ih
  | attach _ _ _ ih => exact ih
  | finish _ _ _ _ ih => exact ih
  | keepFork _ _ _ _ ih => exact ih
  | keepEnding _ _ _ _ _ ih => exact ih

/-! ## Identifiers -/

section Identifiers

variable {id : String} {route : Route} {o : Opening}

theorem Leads.of_get?_eq {groups groups' : Table Delegation} (h : Leads groups id route)
    (hget : groups'.get? route.group = groups.get? route.group) : Leads groups' id route := by
  rwa [Leads, hget]

theorem Leads.enter (h : Leads t.groups id route) (hnew : t.groups.get? o.call = none) :
    Leads (t.enter o).groups id route := by
  refine h.of_get?_eq (Table.get?_insert_of_ne _ _ ?_)
  rintro hcall
  obtain ⟨d, hd, -⟩ := h
  rw [hcall, hnew] at hd
  cases hd

private theorem leads_couple (r : Request) (hd : t.groups.get? call = some d)
    (hnone : d.delegation = none)
    (ih : ∀ route, t.routes.get? id = some route → Leads t.groups id route)
    (h : (t.couple call d r).routes.get? id = some route) :
    Leads (t.couple call d r).groups id route := by
  rw [groups_couple]
  rcases get?_routes_couple _ _ _ _ h with hold | ⟨rfl, hcall, hprogress, htarget⟩
  · -- an older route does not lead to the call, which had no identifier until now
    refine (ih route hold).of_get?_eq (Table.get?_insert_of_ne _ _ ?_)
    rintro hcall
    obtain ⟨d', hd', -, hid, -⟩ := ih route hold
    rw [hcall, hd] at hd'
    rw [← Option.some.inj hd', hnone] at hid
    cases hid
  · exact ⟨d.pair r, by rw [hcall, Table.get?_insert_self], hprogress, rfl, htarget⟩

theorem Reaches.leads (h : Reaches allowed cs asked t) (hroute : t.routes.get? id = some route) :
    Leads t.groups id route := by
  induction h generalizing route with
  | start => cases hroute
  | wait o _ hnew _ ih => exact (ih hroute).enter hnew
  | @meet _ _ t o r queues _ hnew _ ih =>
    exact leads_couple (t := { t.enter o with waitingRequests := queues }) r
      (Table.get?_insert_self _ _ _) rfl (fun _ hroute ↦ (ih hroute).enter hnew) hroute
  | ask _ _ _ _ ih => exact ih hroute
  | @answer _ _ t r _ queues _ _ _ _ hd hnone ih =>
    exact leads_couple (t := { t with waitingCalls := queues }) r hd hnone
      (fun _ hroute ↦ ih hroute) hroute
  | attach call child _ ih =>
    obtain ⟨d, hd, hprogress, hid, htarget⟩ := ih hroute
    rw [Leads, attachChild, Table.get?_modify]
    split
    · next hcall =>
      rw [← hcall, hd]
      exact ⟨_, rfl, hprogress, hid, htarget⟩
    · exact ⟨d, hd, hprogress, hid, htarget⟩
  | finish call e _ _ ih =>
    -- the route of the call's own identifier is gone, so what is left leads to another call
    obtain ⟨hold, hother⟩ := get?_routes_finishGroup _ _ _ hroute
    refine (ih hold).of_get?_eq ?_
    rw [get?_groups_finishGroup, if_neg]
    rintro hcall
    obtain ⟨d, hd, -, hid, -⟩ := ih hold
    exact hother d (hcall ▸ hd) hid
  | keepFork _ _ _ _ ih => exact ih hroute
  | keepEnding _ _ _ _ _ ih => exact ih hroute

theorem Carries.of_keeps {groups groups' : Table Delegation} (h : Carries groups id call)
    (hkeeps : groups.Keeps Evolves groups') : Carries groups' id call := by
  obtain ⟨d, hd, hid⟩ := h
  obtain ⟨d', hd', hevolves⟩ := hkeeps call d hd
  exact ⟨d', hd', hevolves.delegation_eq id hid⟩

theorem keeps_enter (hnew : t.groups.get? o.call = none) :
    t.groups.Keeps Evolves (t.enter o).groups :=
  Table.Keeps.insert_of_eq_none Evolves.refl hnew _

private theorem keeps_couple (r : Request) (hd : t.groups.get? call = some d)
    (hnone : d.delegation = none) :
    t.groups.Keeps Evolves (t.couple call d r).groups := by
  rw [groups_couple]
  exact (Table.Related.insert Evolves.refl hd (Delegation.evolves_pair r hnone)).keeps

private theorem carries_couple {c : String} (r : Request) (hd : t.groups.get? call = some d)
    (hnone : d.delegation = none) (ih : ∀ c, t.paired.get? id = some c → Carries t.groups id c)
    (h : (t.couple call d r).paired.get? id = some c) :
    Carries (t.couple call d r).groups id c := by
  rw [paired_couple, Table.get?_insert] at h
  split at h
  · next hid =>
    obtain rfl := Option.some.inj h
    exact ⟨d.pair r, by rw [groups_couple, Table.get?_insert_self], by rw [hid]; rfl⟩
  · exact (ih c h).of_keeps (keeps_couple r hd hnone)

theorem Reaches.carries (h : Reaches allowed cs asked t) {c : String}
    (hpaired : t.paired.get? id = some c) : Carries t.groups id c := by
  induction h generalizing c with
  | start => cases hpaired
  | wait _ _ hnew _ ih => exact (ih hpaired).of_keeps (keeps_enter hnew)
  | @meet _ _ t o r queues _ hnew _ ih =>
    exact carries_couple (t := { t.enter o with waitingRequests := queues }) r
      (Table.get?_insert_self _ _ _) rfl (fun _ hc ↦ (ih hc).of_keeps (keeps_enter hnew)) hpaired
  | ask _ _ _ _ ih => exact ih hpaired
  | @answer _ _ t r _ queues _ _ _ _ hd hnone ih =>
    exact carries_couple (t := { t with waitingCalls := queues }) r hd hnone (fun _ hc ↦ ih hc)
      hpaired
  | @attach _ _ t call child _ ih =>
    exact (ih hpaired).of_keeps ((t.related_attachChild call child).mono Advances.evolves).keeps
  | @finish _ _ t call e _ _ ih =>
    rw [paired_finishGroup] at hpaired
    exact (ih hpaired).of_keeps ((t.related_finishGroup call e).mono Advances.evolves).keeps
  | keepFork _ _ _ _ ih => exact ih hpaired
  | keepEnding _ _ _ _ _ ih => exact ih hpaired

/-- Nothing is kept for an identifier after its pairing. -/
theorem kept_couple {c : String} (r : Request)
    (ih : ∀ c, t.paired.get? id = some c →
      t.keptForks.get? id = none ∧ t.keptEndings.get? id = none)
    (h : (t.couple call d r).paired.get? id = some c) :
    (t.couple call d r).keptForks.get? id = none ∧
      (t.couple call d r).keptEndings.get? id = none := by
  rw [keptForks_couple, keptEndings_couple, Table.get?_erase, Table.get?_erase]
  rw [paired_couple, Table.get?_insert] at h
  split
  · exact ⟨rfl, rfl⟩
  · next hid =>
    rw [if_neg hid] at h
    exact ih c h

theorem Reaches.kept (h : Reaches allowed cs asked t) {c : String}
    (hpaired : t.paired.get? id = some c) :
    t.keptForks.get? id = none ∧ t.keptEndings.get? id = none := by
  induction h generalizing c with
  | start => cases hpaired
  | wait _ _ _ _ ih => exact ih hpaired
  | @meet _ _ t o r queues _ _ _ ih =>
    exact kept_couple (t := { t.enter o with waitingRequests := queues }) r (fun _ hc ↦ ih hc)
      hpaired
  | ask _ _ _ _ ih => exact ih hpaired
  | @answer _ _ t r _ queues _ _ _ _ _ _ ih =>
    exact kept_couple (t := { t with waitingCalls := queues }) r (fun _ hc ↦ ih hc) hpaired
  | attach _ _ _ ih => exact ih hpaired
  | finish call e _ _ ih =>
    rw [paired_finishGroup] at hpaired
    rw [keptForks_finishGroup, keptEndings_finishGroup]
    exact ih hpaired
  | keepFork id' child _ hunpaired ih =>
    -- what is kept is kept for another identifier, one that is not paired
    refine ⟨?_, (ih hpaired).2⟩
    rw [Table.get?_insert_of_ne _ _ ?_]
    · exact (ih hpaired).1
    · rintro rfl
      rw [hunpaired] at hpaired
      cases hpaired
  | keepEnding id' e _ _ hunpaired ih =>
    refine ⟨(ih hpaired).1, ?_⟩
    rw [Table.get?_insert_of_ne _ _ ?_]
    · exact (ih hpaired).2
    · rintro rfl
      rw [hunpaired] at hpaired
      cases hpaired

end Identifiers

/-! ## All tables together -/

theorem Orderly.count_waiting (h : t.Orderly) (hd : t.groups.get? call = some d) :
    t.waiting.count call = if d.delegation = none then 1 else 0 := by
  rw [h.nodup_waiting.count]
  refine if_congr ((h.mem_waiting_iff call).trans ?_) rfl rfl
  rw [hd]
  exact ⟨fun ⟨_, hd', hnone⟩ ↦ Option.some.inj hd' ▸ hnone, fun hnone ↦ ⟨d, rfl, hnone⟩⟩

/-- **The tables agree** after any reports whose endings are final. -/
theorem agree_run {reports : List Report}
    (h : ∀ r ∈ reports, r.Allows (·.status.isTerminal = true)) :
    (run reports).Agree (calls reports) := by
  obtain ⟨asked, -, hreaches⟩ := reaches_run h
  exact {
    isInProgress_iff := fun _ _ hd ↦ hreaches.isInProgress_iff hd
    mem_stack_iff := hreaches.mem_stack_iff
    nodup_stack := fun agent ↦
      List.nodup_reverse.mp (hreaches.nodup_calls.sublist (hreaches.sublist_stack agent))
    sublist_stack := hreaches.sublist_stack
    leads := fun _ _ hroute ↦ hreaches.leads hroute
    count_waiting := fun _ _ hd ↦ (orderly_run reports).count_waiting hd
    carries := fun _ _ hpaired ↦ hreaches.carries hpaired
    kept := fun _ _ hpaired ↦ hreaches.kept hpaired }

/-- An ending that is there before its request, and two calls for one target after both. -/
def endedEarly : List Report := [
  .finished "d1" ⟨.completed, ⟨4000⟩, some "done"⟩,
  .requested ⟨"d1", some "worker", none⟩,
  .opened ⟨"tc1", "main", some "worker", none, 0, ⟨1000⟩⟩,
  .opened ⟨"tc2", "main", some "worker", none, 1, ⟨2000⟩⟩]

theorem agree_endedEarly :
    (∀ r ∈ endedEarly, r.Allows (·.status.isTerminal = true)) ∧
      (run endedEarly).Agree (calls endedEarly) ∧ (run endedEarly).stack "main" = ["tc2"] := by
  have hfinal : ∀ r ∈ endedEarly, r.Allows (·.status.isTerminal = true) := by
    simp [endedEarly, Report.Allows, Status.isTerminal]
  exact ⟨hfinal, agree_run hfinal, by decide⟩

end Tracker

end SessionReplay
