import Mathlib.Data.List.Induction
import SessionReplay.Proofs.Delegation.Reach
import SessionReplay.Proofs.Row.Parts
import SessionReplay.Proofs.Transcript.Order
import SessionReplay.View

/-!
# Where child sessions come from

A delegation gets its child session from a fork, now or when it is paired: what a tracker knows of
children, it was told. So the sessions that a tree may lead to are named in the events of the
session whose rows they are the children of: `RowSet.mem_forkedSessions_of_mem_children`.
-/

namespace SessionReplay

namespace Tracker

/-- The child sessions a tracker knows of are among those allowed. -/
structure ForksFrom (allowed : String → Prop) (t : Tracker) : Prop where
  groups : ∀ call d, t.groups.get? call = some d → ∀ child, d.child = some child → allowed child
  keptForks : ∀ id child, t.keptForks.get? id = some child → allowed child

/-- The child session that a report names. -/
def Report.child? : Report → Option String
  | .forked _ child => some child
  | _ => none

variable {allowed : String → Prop} {t : Tracker} {call : String} {d : Delegation}

theorem forksFrom_empty : empty.ForksFrom allowed where
  groups _ _ h := by cases h
  keptForks _ _ h := by cases h

theorem ForksFrom.congr (h : t.ForksFrom allowed) {u : Tracker} (hgroups : u.groups = t.groups)
    (hforks : u.keptForks = t.keptForks) : u.ForksFrom allowed where
  groups := hgroups ▸ h.groups
  keptForks := hforks ▸ h.keptForks

/-- A delegation is entered or changed. -/
theorem ForksFrom.insert (h : t.ForksFrom allowed) {u : Tracker}
    (hgroups : u.groups = t.groups.insert call d) (hforks : u.keptForks = t.keptForks)
    (hd : ∀ child, d.child = some child → allowed child) : u.ForksFrom allowed where
  groups c x hx := by
    rw [hgroups, Table.get?_insert] at hx
    split at hx
    · exact Option.some.inj hx ▸ hd
    · exact h.groups c x hx
  keptForks := hforks ▸ h.keptForks

theorem ForksFrom.attachChild (h : t.ForksFrom allowed) (call : String) {child : String}
    (hchild : allowed child) : (t.attachChild call child).ForksFrom allowed := by
  rw [Tracker.attachChild, Table.modify]
  split
  · exact h.insert rfl rfl fun c hc ↦ Option.some.inj hc ▸ hchild
  · exact h

private theorem child_finish (d : Delegation) (e : Ending) : (d.finish e).child = d.child := by
  rw [Delegation.finish]
  split <;> rfl

theorem ForksFrom.finishGroup (h : t.ForksFrom allowed) (call : String) (e : Ending) :
    (t.finishGroup call e).ForksFrom allowed := by
  rw [Tracker.finishGroup]
  split
  · exact h
  · next d hd =>
    refine h.insert rfl rfl ?_
    rw [child_finish]
    exact h.groups call d hd

/-- A pairing, and then what was kept for the identifier. -/
theorem ForksFrom.pair (h : t.ForksFrom allowed) (call : String) (r : Request) :
    (t.pair call r).ForksFrom allowed := by
  cases hd : t.groups.get? call with
  | none =>
    rw [Tracker.pair, hd]
    exact h
  | some d =>
    have hcouple : (t.couple call d r).ForksFrom allowed := by
      refine ⟨fun c x hx ↦ ?_, fun id child hchild ↦ ?_⟩
      · rw [groups_couple, Table.get?_insert] at hx
        split at hx
        · exact Option.some.inj hx ▸ h.groups call d hd
        · exact h.groups c x hx
      · rw [keptForks_couple, Table.get?_erase] at hchild
        split at hchild
        · cases hchild
        · exact h.keptForks id child hchild
    have hattach : ((t.couple call d r).attachAny call
        (t.keptForks.get? r.delegation)).ForksFrom allowed := by
      cases hkept : t.keptForks.get? r.delegation with
      | none => exact hcouple
      | some child => exact hcouple.attachChild call (h.keptForks _ child hkept)
    rw [pair_eq hd]
    cases t.keptEndings.get? r.delegation with
    | none => exact hattach
    | some e => exact hattach.finishGroup call e

/-- **One report** tells of the child session that it names, and of no other. -/
theorem ForksFrom.step (h : t.ForksFrom allowed) {r : Report}
    (hr : ∀ child, r.child? = some child → allowed child) : (t.step r).ForksFrom allowed := by
  cases r with
  | opened o =>
    rw [Tracker.step, opened_eq]
    split
    · exact h
    · have henter : (t.enter o).ForksFrom allowed := h.insert rfl rfl fun _ hc ↦ by cases hc
      split
      · next r queues _ =>
        exact ForksFrom.pair (t := { t.enter o with waitingRequests := queues })
          (henter.congr rfl rfl) o.call r
      · exact henter.congr rfl rfl
  | requested r =>
    rw [Tracker.step, requested]
    split
    · exact h
    · split
      · next call queues _ =>
        exact ForksFrom.pair (t := { t with waitingCalls := queues }) (h.congr rfl rfl) call r
      · exact h.congr rfl rfl
  | forked id child =>
    rw [Tracker.step, forked]
    split
    · next call _ => exact h.attachChild call (hr child rfl)
    · refine ⟨h.groups, fun id' child' hchild ↦ ?_⟩
      rw [Table.get?_insert] at hchild
      split at hchild
      · exact Option.some.inj hchild ▸ hr child rfl
      · exact h.keptForks id' child' hchild
  | finished id e =>
    rw [Tracker.step, finished]
    split
    · next call _ => exact h.finishGroup call e
    · exact h.congr rfl rfl
  | finishGroup call e => exact h.finishGroup call e

end Tracker

namespace RowBuilder

variable {allowed : String → Prop}

/-- **Any number of things.** -/
theorem forksFrom_foldl_step (session : String) (options : Options) {items : List Item}
    (h : ∀ e, .event e ∈ items → ∀ child, e.payload.child? = some child → allowed child) :
    (items.foldl step (.start session options)).tracker.ForksFrom allowed := by
  induction items using List.reverseRecOn with
  | nil => exact Tracker.forksFrom_empty
  | append_singleton before i ih =>
    have hbefore := ih fun e he ↦ h e (List.mem_append_left _ he)
    rw [List.foldl_concat, tracker_step_eq]
    cases hreport : report? (before.foldl step (.start session options)) i with
    | none => exact hbefore
    | some r =>
      refine hbefore.step fun child hchild ↦ ?_
      -- a fork tells of the child session that its event names, all other reports of none
      cases reports_of_report? hreport with
      | @forked e _ id he =>
        refine h e (List.mem_append_right _ List.mem_cons_self) child ?_
        rw [he]
        exact hchild
      | _ => cases hchild

end RowBuilder

namespace RowSet

variable {session child : String} {events : List Event} {options : Options}

/-- **Children.** A session leads to the children that its own events name, and to no others. -/
theorem mem_forkedSessions_of_mem_children
    (h : child ∈ (ofEvents session events options).children) :
    child ∈ forkedSessions (Timeline.admitted session events) := by
  rw [children, List.mem_eraseDups, List.mem_filterMap] at h
  obtain ⟨g, hg, hchild⟩ := h
  obtain ⟨call, hcall⟩ := Table.mem_values_iff.mp hg
  have hforks : ((Transcript.ofTimeline (Timeline.ofEvents session events options)).foldl
      RowBuilder.step (.start session options)).tracker.ForksFrom
        (· ∈ forkedSessions (Timeline.admitted session events)) := by
    refine RowBuilder.forksFrom_foldl_step session options fun e he c hc ↦ ?_
    have hpassed : e ∈ (Transcript.ofTimeline (Timeline.ofEvents session events options)).filterMap
        Item.event? := List.mem_filterMap.mpr ⟨.event e, he, rfl⟩
    rw [Transcript.filterMap_event?_ofTimeline] at hpassed
    have hevent := Timeline.event_mem_admitted (List.mem_filter.mp hpassed).1
    exact List.mem_filterMap.mpr ⟨e.event, hevent, hc⟩
  rw [ofEvents, ofTimeline, ofTranscript, RowBuilder.finish, Table.get?_map] at hcall
  obtain ⟨d, hd, rfl⟩ := Option.map_eq_some_iff.mp hcall
  exact hforks.groups call d hd child hchild

end RowSet

end SessionReplay
