import SessionReplay.Delegation.Tracker
import SessionReplay.Proofs.Table

/-!
# How delegations change

A delegation is entered by its call and never leaves the tracker. What can still happen to it is
little: it is paired once, it gets a child session, and it ends once.

## Two relations

`Delegation.Advances` is what every report does to a delegation that is already paired: nothing but
a child session or an ending. `Delegation.Evolves` also allows the pairing. That a pairing never
replaces an older one needs to be known of the waiting calls, so the pairing step is stated here
for a call that is not paired yet (`Delegation.evolves_pair`), and put to use where waiting calls
are understood. What is put to use there is not special to the second relation:
`Delegation.IsProgress` is all that has to be known of a relation.
-/

namespace SessionReplay

namespace Delegation

/-- The second state differs by a child session or an ending at most, and an ending stays. -/
structure Advances (d d' : Delegation) : Prop where
  call_eq : d'.call = d.call
  agent_eq : d'.agent = d.agent
  delegation_eq : d'.delegation = d.delegation
  target_eq : d'.target = d.target
  start_eq : d'.start = d.start
  depth_eq : d'.depth = d.depth
  ending_eq : d.status.isTerminal = true →
    d'.status = d.status ∧ d'.stop = d.stop ∧ d'.outcome = d.outcome

/-- The second state is a later one of the same delegation: it may be paired meanwhile, and its
identifier and its ending stay once they are there. -/
structure Evolves (d d' : Delegation) : Prop where
  call_eq : d'.call = d.call
  agent_eq : d'.agent = d.agent
  start_eq : d'.start = d.start
  depth_eq : d'.depth = d.depth
  delegation_eq : ∀ id, d.delegation = some id → d'.delegation = some id
  ending_eq : d.status.isTerminal = true →
    d'.status = d.status ∧ d'.stop = d.stop ∧ d'.outcome = d.outcome

variable {d d' d'' : Delegation}

theorem Advances.refl (d : Delegation) : d.Advances d :=
  ⟨rfl, rfl, rfl, rfl, rfl, rfl, fun _ ↦ ⟨rfl, rfl, rfl⟩⟩

theorem Advances.trans (h : d.Advances d') (h' : d'.Advances d'') : d.Advances d'' where
  call_eq := h'.call_eq.trans h.call_eq
  agent_eq := h'.agent_eq.trans h.agent_eq
  delegation_eq := h'.delegation_eq.trans h.delegation_eq
  target_eq := h'.target_eq.trans h.target_eq
  start_eq := h'.start_eq.trans h.start_eq
  depth_eq := h'.depth_eq.trans h.depth_eq
  ending_eq hd := by
    obtain ⟨hstatus, hstop, houtcome⟩ := h.ending_eq hd
    obtain ⟨hstatus', hstop', houtcome'⟩ := h'.ending_eq (hstatus ▸ hd)
    exact ⟨hstatus'.trans hstatus, hstop'.trans hstop, houtcome'.trans houtcome⟩

theorem Advances.evolves (h : d.Advances d') : d.Evolves d' where
  call_eq := h.call_eq
  agent_eq := h.agent_eq
  start_eq := h.start_eq
  depth_eq := h.depth_eq
  delegation_eq _ hid := h.delegation_eq.trans hid
  ending_eq := h.ending_eq

theorem Evolves.refl (d : Delegation) : d.Evolves d := (Advances.refl d).evolves

theorem Evolves.trans (h : d.Evolves d') (h' : d'.Evolves d'') : d.Evolves d'' where
  call_eq := h'.call_eq.trans h.call_eq
  agent_eq := h'.agent_eq.trans h.agent_eq
  start_eq := h'.start_eq.trans h.start_eq
  depth_eq := h'.depth_eq.trans h.depth_eq
  delegation_eq id hid := h'.delegation_eq id (h.delegation_eq id hid)
  ending_eq hd := by
    obtain ⟨hstatus, hstop, houtcome⟩ := h.ending_eq hd
    obtain ⟨hstatus', hstop', houtcome'⟩ := h'.ending_eq (hstatus ▸ hd)
    exact ⟨hstatus'.trans hstatus, hstop'.trans hstop, houtcome'.trans houtcome⟩

theorem advances_finish (d : Delegation) (e : Ending) : d.Advances (d.finish e) := by
  by_cases hd : d.status.isTerminal = true
  · rw [finish_of_isTerminal e hd]
    exact Advances.refl d
  · rw [finish]
    split
    · exact Advances.refl d
    · exact ⟨rfl, rfl, rfl, rfl, rfl, rfl, fun h ↦ absurd h hd⟩

private theorem advances_child (d : Delegation) (child : String) :
    d.Advances { d with child := some child } :=
  ⟨rfl, rfl, rfl, rfl, rfl, rfl, fun _ ↦ ⟨rfl, rfl, rfl⟩⟩

theorem evolves_pair (r : Request) (h : d.delegation = none) : d.Evolves (d.pair r) where
  call_eq := rfl
  agent_eq := rfl
  start_eq := rfl
  depth_eq := rfl
  delegation_eq id hid := by rw [h] at hid; cases hid
  ending_eq _ := ⟨rfl, rfl, rfl⟩

/-- A relation that holds of all that may happen to a delegation: child sessions and endings, and
the pairing of a delegation that is not paired yet. -/
structure IsProgress (R : Delegation → Delegation → Prop) : Prop where
  of_advances {d d' : Delegation} (h : d.Advances d') : R d d'
  of_pair {d : Delegation} (r : Request) (h : d.delegation = none) : R d (d.pair r)
  trans {d d' d'' : Delegation} (h : R d d') (h' : R d' d'') : R d d''

theorem IsProgress.refl {R : Delegation → Delegation → Prop} (hR : IsProgress R)
    (d : Delegation) : R d d :=
  hR.of_advances (Advances.refl d)

theorem isProgress_evolves : IsProgress Evolves := ⟨Advances.evolves, evolves_pair, Evolves.trans⟩

end Delegation

namespace Tracker

open Delegation (Advances Evolves IsProgress)

variable (t : Tracker)

/-! ## What each operation does to the delegations -/

theorem related_finishGroup (group : String) (e : Ending) :
    t.groups.Related Advances (t.finishGroup group e).groups := by
  rw [finishGroup]
  split
  · exact Table.Related.refl Advances.refl _
  · next d hd => exact Table.Related.insert Advances.refl hd (Delegation.advances_finish d e)

theorem related_attachChild (group child : String) :
    t.groups.Related Advances (t.attachChild group child).groups :=
  Table.Related.modify Advances.refl (fun d ↦ Delegation.advances_child d child) _ _

@[simp] theorem groups_activate (id group : String) (d : Delegation) :
    (t.activate id group d).groups = t.groups := by
  rw [activate]
  split <;> rfl

private theorem related_releaseFork (id group : String) :
    t.groups.Related Advances (t.releaseFork id group).groups := by
  rw [releaseFork]
  split
  · next child _ =>
    exact related_attachChild { t with keptForks := t.keptForks.erase id } group child
  · exact Table.Related.refl Advances.refl _

private theorem related_releaseEnding (id group : String) :
    t.groups.Related Advances (t.releaseEnding id group).groups := by
  rw [releaseEnding]
  split
  · next e _ =>
    exact related_finishGroup { t with keptEndings := t.keptEndings.erase id } group e
  · exact Table.Related.refl Advances.refl _

/-- A pairing changes the paired delegation, and then it may get what was kept for it. -/
theorem related_pair {group : String} {d : Delegation} (hd : t.groups.get? group = some d)
    (r : Request) :
    (t.groups.insert group (d.pair r)).Related Advances (t.pair group r).groups := by
  simp only [pair, hd]
  refine Table.Related.trans Advances.trans ?_ (related_releaseEnding _ _ _)
  refine Table.Related.trans Advances.trans ?_ (related_releaseFork _ _ _)
  rw [groups_activate]
  exact Table.Related.refl Advances.refl _

theorem related_pair_of_unpaired {R : Delegation → Delegation → Prop} (hR : IsProgress R)
    {group : String} {d : Delegation} (hd : t.groups.get? group = some d)
    (hnone : d.delegation = none) (r : Request) :
    t.groups.Related R (t.pair group r).groups :=
  (Table.Related.insert hR.refl hd (hR.of_pair r hnone)).trans hR.trans
    ((t.related_pair hd r).mono hR.of_advances)

end Tracker

end SessionReplay
