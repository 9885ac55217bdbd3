import SessionReplay.Proofs.Delegation.Pairing

/-!
# Where an agent is sent, and whether that stays right

While a delegation is in progress its target's rows go into its group. The tracker decides this when
a row is made, and the group is shown when everything is over. What it says of its target must still
be what sent the row there: `Tracker.serves_of_route?` says what is known when an agent is sent to a
group, and `Tracker.Orderly.serves_step` that it remains true.

## Why a target stays

The request of a delegation may replace the target that the call gave it. So a target can change,
but not after the pairing, `Delegation.KeepsTarget`, and an agent is sent only to groups that are
paired. That no group is paired twice is what `Tracker.Orderly` knows of the waiting calls.

## Who is sent nowhere

A paired delegation that came from a request with a target has that target. So an agent whom no
request names does no delegation's work if all requests name somebody: `Tracker.AsksFor.of_serves`.
-/

namespace SessionReplay

/-! ## The latest route -/

theorem Route.mem_of_latest? {routes : List Route} {r : Route} (h : latest? routes = some r) :
    r ∈ routes := by
  induction routes using List.reverseRecOn with
  | nil => cases h
  | append_singleton before x ih =>
    rw [latest?, List.foldl_concat, ← latest?] at h
    cases hbefore : latest? before with
    | none =>
      rw [hbefore] at h
      exact List.mem_append_right _ (List.mem_singleton.mpr (Option.some.inj h).symm)
    | some best =>
      rw [hbefore] at h
      dsimp only at h
      split at h
      · exact List.mem_append_right _ (List.mem_singleton.mpr (Option.some.inj h).symm)
      · exact List.mem_append_left _ (ih (hbefore.trans h))

/-! ## Targets -/

namespace Delegation

/-- The second state has the identifier and the target of the first, if the first was paired. -/
structure KeepsTarget (d d' : Delegation) : Prop where
  delegation_eq : ∀ id, d.delegation = some id → d'.delegation = some id
  target_eq : ∀ id, d.delegation = some id → d'.target = d.target

/-- A pairing may replace the target, but it comes to a delegation that had no identifier. -/
theorem isProgress_keepsTarget : IsProgress KeepsTarget where
  of_advances h := ⟨fun _ hid ↦ h.delegation_eq.trans hid, fun _ _ ↦ h.target_eq⟩
  of_pair r h := by
    constructor <;> intro id hid <;> rw [h] at hid <;> cases hid
  trans h h' :=
    ⟨fun id hid ↦ h'.delegation_eq id (h.delegation_eq id hid),
      fun id hid ↦ (h'.target_eq id (h.delegation_eq id hid)).trans (h.target_eq id hid)⟩

end Delegation

namespace Tracker

open Delegation (KeepsTarget)

variable {t : Tracker} {agent call : String} {d : Delegation}

/-- A paired delegation whose work an agent is to do. -/
def Serves (groups : Table Delegation) (agent call : String) : Prop :=
  ∃ d, groups.get? call = some d ∧ d.delegation.isSome = true ∧ d.target = some agent

theorem Serves.of_keeps {groups groups' : Table Delegation} (h : Serves groups agent call)
    (hkeeps : groups.Keeps KeepsTarget groups') : Serves groups' agent call := by
  obtain ⟨d, hd, hpaired, htarget⟩ := h
  obtain ⟨id, hid⟩ := Option.isSome_iff_exists.mp hpaired
  obtain ⟨d', hd', hkept⟩ := hkeeps call d hd
  exact ⟨d', hd', Option.isSome_of_eq_some (hkept.delegation_eq id hid),
    (hkept.target_eq id hid).trans htarget⟩

/-- **One report** leaves an agent with the delegations whose work it does. -/
theorem Orderly.serves_step (h : t.Orderly) (hserves : Serves t.groups agent call) (r : Report) :
    Serves (t.step r).groups agent call :=
  hserves.of_keeps (h.keeps_step_of Delegation.isProgress_keepsTarget r)

/-! ## Routes -/

private theorem exists_route_of_route? (h : t.route? agent = some d) :
    ∃ id route, t.routes.get? id = some route ∧ route.target = agent ∧
      t.groups.get? route.group = some d ∧ d.isInProgress = true := by
  rw [route?, Option.filter_eq_some_iff, Option.bind_eq_some_iff] at h
  obtain ⟨⟨route, hlatest, hd⟩, hprogress⟩ := h
  obtain ⟨hmem, htarget⟩ := List.mem_filter.mp (Route.mem_of_latest? hlatest)
  obtain ⟨id, hroute⟩ := Table.mem_values_iff.mp hmem
  exact ⟨id, route, hroute, beq_iff_eq.mp htarget, hd, hprogress⟩

/-- **A route** sends an agent to a delegation in progress whose work it is to do. -/
theorem serves_of_route? {reports : List Report} (h : (run reports).route? agent = some d) :
    (run reports).groups.get? d.call = some d ∧ d.isInProgress = true ∧
      Serves (run reports).groups agent d.call := by
  obtain ⟨asked, -, hreaches⟩ := reaches_run fun r (_ : r ∈ reports) ↦ r.allows_true
  obtain ⟨id, route, hroute, rfl, hd, hprogress⟩ := exists_route_of_route? h
  obtain ⟨d', hd', -, hid, htarget⟩ := hreaches.leads hroute
  obtain rfl : d = d' := Option.some.inj (hd.symm.trans hd')
  have hcall : d.call = route.group := (orderly_run reports).call_eq _ d hd
  rw [hcall]
  exact ⟨hd, hprogress, d, hd, Option.isSome_of_eq_some hid, htarget⟩

/-! ## Agents that nobody asks for -/

variable {P : String → Prop}

/-- Every request that waits, and every delegation that was paired with one, names a target of a
kind. -/
structure AsksFor (P : String → Prop) (t : Tracker) : Prop where
  waiting : ∀ r ∈ waitingIn t.waitingRequests, ∃ target, r.target = some target ∧ P target
  paired : ∀ call d, t.groups.get? call = some d → d.delegation.isSome = true →
    ∃ target, d.target = some target ∧ P target

theorem asksFor_empty (P : String → Prop) : empty.AsksFor P where
  waiting _ h := by cases h
  paired _ _ h := by cases h

/-- Who does the work of a delegation was asked for. -/
theorem AsksFor.of_serves (h : t.AsksFor P) (hserves : Serves t.groups agent call) : P agent := by
  obtain ⟨d, hd, hpaired, htarget⟩ := hserves
  obtain ⟨target, hsame, hP⟩ := h.paired call d hd hpaired
  obtain rfl : target = agent := Option.some.inj (hsame.symm.trans htarget)
  exact hP

/-- Endings and child sessions ask for nobody. -/
theorem AsksFor.of_related (h : t.AsksFor P) {u : Tracker}
    (hgroups : t.groups.Related Delegation.Advances u.groups)
    (hwaiting : u.waitingRequests = t.waitingRequests) : u.AsksFor P where
  waiting := hwaiting ▸ h.waiting
  paired call d hd hpaired := by
    obtain ⟨d₀, hd₀, hadvances⟩ := hgroups.exists_of_get?_eq_some hd
    rw [hadvances.target_eq]
    exact h.paired call d₀ hd₀ (hadvances.delegation_eq ▸ hpaired)

/-- A pairing gives a delegation the target of the request. -/
theorem AsksFor.pair (h : t.AsksFor P) (call : String) {r : Request}
    (hr : ∃ target, r.target = some target ∧ P target) : (t.pair call r).AsksFor P := by
  cases hd : t.groups.get? call with
  | none =>
    rw [Tracker.pair, hd]
    exact h
  | some d =>
    have hpaired : AsksFor P { t with groups := t.groups.insert call (d.pair r) } := by
      refine ⟨h.waiting, fun c d' hd' hsome ↦ ?_⟩
      rw [Table.get?_insert] at hd'
      split at hd'
      · obtain ⟨target, htarget, hP⟩ := hr
        rw [← Option.some.inj hd', Delegation.pair, htarget]
        exact ⟨target, rfl, hP⟩
      · exact h.paired c d' hd' hsome
    exact hpaired.of_related (t.related_pair hd r) (waitingRequests_pair t call r)

/-- **One report** asks for nobody else, unless it is a request that does. -/
theorem AsksFor.step (h : t.AsksFor P) {r : Report}
    (hr : ∀ q, r = .requested q → ∃ target, q.target = some target ∧ P target) :
    (t.step r).AsksFor P := by
  cases r with
  | opened o =>
    rw [Tracker.step, opened_eq]
    split
    · exact h
    · -- the delegation of a new call is not paired yet
      have hentered : (t.enter o).AsksFor P := by
        refine ⟨h.waiting, fun call d hd hpaired ↦ ?_⟩
        dsimp only [enter] at hd
        rw [Table.get?_insert] at hd
        split at hd
        · obtain rfl := Option.some.inj hd
          cases hpaired
        · exact h.paired call d hd hpaired
      split
      · next q queues htake =>
        have hmem : ∀ x, x ∈ waitingIn t.waitingRequests ↔ x = q ∨ x ∈ waitingIn queues :=
          fun x ↦ (perm_waitingIn_of_takeFor? htake).mem_iff.trans List.mem_cons
        have htaken : AsksFor P { t.enter o with waitingRequests := queues } :=
          ⟨fun x hx ↦ h.waiting x ((hmem x).mpr (Or.inr hx)), hentered.paired⟩
        exact htaken.pair o.call (h.waiting q ((hmem q).mpr (Or.inl rfl)))
      · exact ⟨hentered.waiting, hentered.paired⟩
  | requested q =>
    have hq := hr q rfl
    rw [Tracker.step, requested]
    split
    · exact h
    · split
      · next call queues _ =>
        exact AsksFor.pair (t := { t with waitingCalls := queues }) ⟨h.waiting, h.paired⟩ call hq
      · refine ⟨fun x hx ↦ ?_, h.paired⟩
        rcases List.mem_cons.mp ((perm_waitingIn_putLast _ _ _).mem_iff.mp hx) with rfl | hx
        · exact hq
        · exact h.waiting x hx
  | forked id child =>
    rw [Tracker.step, forked]
    split
    · next call _ => exact h.of_related (t.related_attachChild call child) rfl
    · exact ⟨h.waiting, h.paired⟩
  | finished id e =>
    rw [Tracker.step, finished]
    split
    · next call _ =>
      exact h.of_related (t.related_finishGroup call e) (waitingRequests_finishGroup ..)
    · exact ⟨h.waiting, h.paired⟩
  | finishGroup call e =>
    exact h.of_related (t.related_finishGroup call e) (waitingRequests_finishGroup ..)

end Tracker

end SessionReplay
