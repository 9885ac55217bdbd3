import SessionReplay.Proofs.Delegation.Identity

/-!
# Which call a request is paired with

A call looks for a request in the queue of its target and then in the queue without a name, and a
request looks for a call in the same way. Whoever comes first waits in the queue of its own target.
So a call without a target is found by every request that comes after it, but finds only requests
without a target among those that came before: `Tracker.orderFree_iff` says exactly when the order
of a call and its request does not matter, and `Tracker.not_orderFree_untargetedCall` shows a call
for which it does.

## Queues that have run empty

Which queues a tracker has ever used is no part of what it says. The two orders of a call and a
request leave different queues empty, so trackers are compared without their queues,
`Tracker.withoutQueues`, and a pairing does not read them: `Tracker.withoutQueues_pair`.
-/

namespace SessionReplay

/-! ## Queues by their names -/

section Queues

variable {α : Type} {queues : Table (List α)} {key : String} {x : α}

/-- The queue of a name. -/
def queueOf (queues : Table (List α)) (key : String) : List α := (queues.get? key).getD []

theorem queueOf_insert (queues : Table (List α)) (key j : String) (queue : List α) :
    queueOf (queues.insert key queue) j = if j = key then queue else queueOf queues j := by
  rw [queueOf, queueOf, Table.get?_insert]
  split <;> rfl

theorem queueOf_putLast (queues : Table (List α)) (key j : String) (x : α) :
    queueOf (putLast queues key x) j
      = if j = key then queueOf queues key ++ [x] else queueOf queues j :=
  queueOf_insert queues key j _

theorem takeFirst?_of_nil (h : queueOf queues key = []) : takeFirst? queues key = none := by
  rw [queueOf] at h
  rw [takeFirst?]
  split
  · next y rest hget =>
    rw [hget] at h
    cases h
  · rfl

theorem takeFirst?_of_cons {rest : List α} (h : queueOf queues key = x :: rest) :
    takeFirst? queues key = some (x, queues.insert key rest) := by
  rw [queueOf] at h
  rw [takeFirst?]
  cases hget : queues.get? key with
  | none =>
    rw [hget] at h
    cases h
  | some queue =>
    rw [hget, Option.getD_some] at h
    rw [h]

/-- If nothing waits, every queue is empty. -/
theorem queueOf_eq_nil (h : waitingIn queues = []) (key : String) : queueOf queues key = [] := by
  rw [queueOf]
  cases hget : queues.get? key with
  | none => rfl
  | some queue =>
    rw [waitingIn, List.flatten_eq_nil_iff] at h
    exact h queue (Table.mem_values_iff.mpr ⟨key, hget⟩)

theorem takeFor?_of_nil (h : queueOf queues key = []) (hunnamed : queueOf queues "" = []) :
    takeFor? queues key = none := by
  rw [takeFor?, takeFirst?_of_nil h, takeFirst?_of_nil hunnamed, Option.or_none]

theorem takeFor?_of_cons {rest : List α} (h : queueOf queues key = x :: rest) :
    takeFor? queues key = some (x, queues.insert key rest) := by
  rw [takeFor?, takeFirst?_of_cons h, Option.some_or]

theorem takeFor?_eq_none (h : waitingIn queues = []) (key : String) :
    takeFor? queues key = none :=
  takeFor?_of_nil (queueOf_eq_nil h key) (queueOf_eq_nil h "")

/-- What alone waits is found under the name of its queue, and under every name if its queue has
none. -/
theorem isSome_takeFor?_putLast (h : waitingIn queues = []) (key j : String) (x : α) :
    (takeFor? (putLast queues key x) j).isSome = true ↔ j = key ∨ key = "" := by
  have htake : ∀ i, (takeFirst? (putLast queues key x) i).isSome = true ↔ i = key := by
    intro i
    have hqueue := queueOf_putLast queues key i x
    rw [queueOf_eq_nil h, queueOf_eq_nil h, List.nil_append] at hqueue
    by_cases hi : i = key
    · rw [if_pos hi] at hqueue
      rw [takeFirst?_of_cons hqueue]
      exact iff_of_true rfl hi
    · rw [if_neg hi] at hqueue
      rw [takeFirst?_of_nil hqueue]
      exact iff_of_false Bool.false_ne_true hi
  rw [takeFor?, Option.isSome_or, Bool.or_eq_true, htake, htake, eq_comm (a := "")]

theorem fst_eq_of_takeFor?_putLast {queues' : Table (List α)} {key j : String} {y : α}
    (h : waitingIn queues = []) (htake : takeFor? (putLast queues key x) j = some (y, queues')) :
    y = x := by
  have hput := perm_waitingIn_putLast queues key x
  rw [h] at hput
  have htaken := (perm_waitingIn_of_takeFor? htake).symm.trans hput
  exact List.mem_singleton.mp (htaken.mem_iff.mp List.mem_cons_self)

end Queues

namespace Tracker

open Delegation (Advances)

variable {t : Tracker} {call id : String} {d : Delegation} {o : Opening} {r : Request}

/-! ## What a pairing says -/

theorem carries_iff_of_related {groups groups' : Table Delegation}
    (h : groups.Related Advances groups') : Carries groups' id call ↔ Carries groups id call := by
  refine ⟨fun hcarries ↦ hcarries.of_related h, ?_⟩
  rintro ⟨d, hd, hid⟩
  obtain ⟨d', hd', hadvances⟩ := h.get?_eq_some hd
  exact ⟨d', hd', hadvances.delegation_eq.trans hid⟩

/-- A pairing gives an unpaired call the identifier and changes no other identifier. -/
theorem carries_pair_iff (hd : t.groups.get? call = some d) (hnone : d.delegation = none)
    (r : Request) {c : String} :
    Carries (t.pair call r).groups id c ↔
      Carries t.groups id c ∨ (call = c ∧ r.delegation = id) := by
  have hunpaired : Carries t.groups id c → c ≠ call := by
    rintro ⟨d', hd', hid⟩ rfl
    obtain rfl : d = d' := Option.some.inj (hd.symm.trans hd')
    rw [hnone] at hid
    cases hid
  rw [carries_iff_of_related (t.related_pair hd r), carries_insert_iff, or_comm, eq_comm (a := c)]
  refine or_congr ⟨And.right, fun h ↦ ⟨hunpaired h, h⟩⟩ ?_
  exact and_congr_right fun _ ↦ Option.some_inj

theorem waitingRequests_pair (t : Tracker) (call : String) (r : Request) :
    (t.pair call r).waitingRequests = t.waitingRequests := by
  cases hd : t.groups.get? call with
  | none => rw [pair, hd]
  | some d =>
    rw [pair_eq hd]
    cases t.keptForks.get? r.delegation <;> cases t.keptEndings.get? r.delegation <;>
      simp [attachAny, finishAny, attachChild]

/-- A new call changes no identifier. -/
theorem carries_enter_iff (hnew : t.groups.get? o.call = none) {c : String} :
    Carries (t.enter o).groups id c ↔ Carries t.groups id c :=
  ⟨Carries.of_enter, fun h ↦ h.of_keeps (keeps_enter hnew)⟩

/-- The tracker with all queues forgotten. -/
def withoutQueues (t : Tracker) : Tracker :=
  { t with waitingCalls := .empty, waitingRequests := .empty }

private theorem withoutQueues_couple (t : Tracker) (call : String) (d : Delegation) (r : Request) :
    (t.couple call d r).withoutQueues = t.withoutQueues.couple call d r := by
  rw [couple, couple, activate, activate]
  split <;> rfl

private theorem withoutQueues_attachAny (t : Tracker) (call : String) (child : Option String) :
    (t.attachAny call child).withoutQueues = t.withoutQueues.attachAny call child := by
  cases child <;> rfl

private theorem withoutQueues_finishAny (t : Tracker) (call : String) (e : Option Ending) :
    (t.finishAny call e).withoutQueues = t.withoutQueues.finishAny call e := by
  cases e with
  | none => rfl
  | some e =>
    have hgroups : t.withoutQueues.groups = t.groups := rfl
    rw [finishAny, finishAny, finishGroup, finishGroup, hgroups]
    cases t.groups.get? call <;> rfl

/-- A pairing does not read the queues. -/
theorem withoutQueues_pair (hd : t.groups.get? call = some d) (r : Request) :
    (t.pair call r).withoutQueues = t.withoutQueues.pair call r := by
  have hd' : t.withoutQueues.groups.get? call = some d := hd
  rw [pair_eq hd, pair_eq hd', withoutQueues_finishAny, withoutQueues_attachAny,
    withoutQueues_couple]
  rfl

/-! ## What becomes of a call and of a request -/

section Outcome

variable {calls : Table (List String)} {queues : Table (List Request)}

theorem opened_of_waits (hnew : t.groups.get? o.call = none)
    (hnone : takeFor? t.waitingRequests (queueKey o.target) = none) :
    t.opened o
      = { t.enter o with waitingCalls := putLast t.waitingCalls (queueKey o.target) o.call } := by
  rw [opened_eq, Table.contains_eq_false_iff.mpr hnew, if_neg Bool.false_ne_true, hnone]

theorem opened_of_finds (hnew : t.groups.get? o.call = none)
    (htake : takeFor? t.waitingRequests (queueKey o.target) = some (r, queues)) :
    t.opened o = { t.enter o with waitingRequests := queues }.pair o.call r := by
  rw [opened_eq, Table.contains_eq_false_iff.mpr hnew, if_neg Bool.false_ne_true, htake]

theorem requested_of_waits (hunpaired : t.paired.get? r.delegation = none)
    (hnone : takeFor? t.waitingCalls (queueKey r.target) = none) :
    t.requested r
      = { t with waitingRequests := putLast t.waitingRequests (queueKey r.target) r } := by
  rw [requested, Table.contains_eq_false_iff.mpr hunpaired, if_neg Bool.false_ne_true, hnone]

theorem requested_of_finds (hunpaired : t.paired.get? r.delegation = none)
    (htake : takeFor? t.waitingCalls (queueKey r.target) = some (call, calls)) :
    t.requested r = { t with waitingCalls := calls }.pair call r := by
  rw [requested, Table.contains_eq_false_iff.mpr hunpaired, if_neg Bool.false_ne_true, htake]

end Outcome

/-! ## A call and a request -/

/-- No call and no request waits. -/
structure Idle (t : Tracker) : Prop where
  calls : waitingIn t.waitingCalls = []
  requests : waitingIn t.waitingRequests = []

/-- The delegation of a new call carries no identifier. -/
theorem not_carries_enter (t : Tracker) (o : Opening) (id : String) :
    ¬ Carries (t.enter o).groups id o.call := by
  rw [enter, carries_insert_iff]
  rintro (⟨-, hid⟩ | ⟨hne, -⟩)
  · cases hid
  · exact hne rfl

/-- What has become of a tracker by a call and a request: the call is paired with the request if it
was found, and is unpaired otherwise. -/
def PairsIf (t : Tracker) (o : Opening) (r : Request) (found : Prop) (u : Tracker) : Prop :=
  (found ∧ u.withoutQueues = (t.enter o).withoutQueues.pair o.call r) ∨
    (¬ found ∧ u.groups = (t.enter o).groups)

theorem PairsIf.carries_iff {found : Prop} {u : Tracker} (h : t.PairsIf o r found u) :
    Carries u.groups r.delegation o.call ↔ found := by
  rcases h with ⟨hfound, hpaired⟩ | ⟨hlost, hgroups⟩
  · have hentered : (t.enter o).withoutQueues.groups.get? o.call = some o.delegation :=
      Table.get?_insert_self _ _ _
    have hcarries := (carries_pair_iff hentered rfl r).mpr (Or.inr ⟨rfl, rfl⟩)
    rw [← hpaired] at hcarries
    exact iff_of_true hcarries hfound
  · rw [hgroups]
    exact iff_of_false (t.not_carries_enter o r.delegation) hlost

theorem PairsIf.withoutQueues_eq {found : Prop} {u : Tracker} (h : t.PairsIf o r found u)
    (hfound : found) : u.withoutQueues = (t.enter o).withoutQueues.pair o.call r := by
  rcases h with ⟨-, hpaired⟩ | ⟨hlost, -⟩
  · exact hpaired
  · exact absurd hfound hlost

/-- A request that comes after a call is paired with it if it looks in the call's queue. -/
theorem Idle.pairsIf_opened_requested (h : t.Idle) (hnew : t.groups.get? o.call = none)
    (hunpaired : t.paired.get? r.delegation = none) :
    t.PairsIf o r (queueKey r.target = queueKey o.target ∨ queueKey o.target = "")
      ((t.opened o).requested r) := by
  have hfound := isSome_takeFor?_putLast h.calls (queueKey o.target) (queueKey r.target) o.call
  rw [opened_of_waits hnew (takeFor?_eq_none h.requests _), PairsIf, ← hfound]
  cases htake : takeFor? (putLast t.waitingCalls (queueKey o.target) o.call)
      (queueKey r.target) with
  | none =>
    rw [requested_of_waits (t := { t.enter o with
      waitingCalls := putLast t.waitingCalls (queueKey o.target) o.call }) hunpaired htake]
    exact Or.inr ⟨Bool.false_ne_true, rfl⟩
  | some taken =>
    obtain ⟨call, calls⟩ := taken
    obtain rfl := fst_eq_of_takeFor?_putLast h.calls htake
    have hentered : (t.enter o).groups.get? o.call = some o.delegation :=
      Table.get?_insert_self _ _ _
    rw [requested_of_finds (t := { t.enter o with
      waitingCalls := putLast t.waitingCalls (queueKey o.target) o.call }) hunpaired htake]
    exact Or.inl ⟨rfl, withoutQueues_pair (t := { t.enter o with waitingCalls := calls })
      hentered r⟩

/-- A call that comes after a request is paired with it if it looks in the request's queue. -/
theorem Idle.pairsIf_requested_opened (h : t.Idle) (hnew : t.groups.get? o.call = none)
    (hunpaired : t.paired.get? r.delegation = none) :
    t.PairsIf o r (queueKey o.target = queueKey r.target ∨ queueKey r.target = "")
      ((t.requested r).opened o) := by
  have hfound := isSome_takeFor?_putLast h.requests (queueKey r.target) (queueKey o.target) r
  rw [requested_of_waits hunpaired (takeFor?_eq_none h.calls _), PairsIf, ← hfound]
  cases htake : takeFor? (putLast t.waitingRequests (queueKey r.target) r)
      (queueKey o.target) with
  | none =>
    rw [opened_of_waits (t := { t with
      waitingRequests := putLast t.waitingRequests (queueKey r.target) r }) hnew htake]
    exact Or.inr ⟨Bool.false_ne_true, rfl⟩
  | some taken =>
    obtain ⟨request, queues⟩ := taken
    obtain rfl := fst_eq_of_takeFor?_putLast h.requests htake
    have hentered : (t.enter o).groups.get? o.call = some o.delegation :=
      Table.get?_insert_self _ _ _
    rw [opened_of_finds (t := { t with
      waitingRequests := putLast t.waitingRequests (queueKey request.target) request }) hnew htake]
    exact Or.inl ⟨rfl, withoutQueues_pair (t := { t.enter o with waitingRequests := queues })
      hentered request⟩

/-- The order of a call and a request does not matter: they are paired in both orders or in
neither, and where they are paired the delegations and the routes are the same. -/
structure OrderFree (t : Tracker) (o : Opening) (r : Request) : Prop where
  paired_iff : Carries ((t.opened o).requested r).groups r.delegation o.call ↔
    Carries ((t.requested r).opened o).groups r.delegation o.call
  groups_eq : Carries ((t.opened o).requested r).groups r.delegation o.call →
    ((t.opened o).requested r).groups = ((t.requested r).opened o).groups
  route?_eq : Carries ((t.opened o).requested r).groups r.delegation o.call →
    ∀ agent, ((t.opened o).requested r).route? agent = ((t.requested r).opened o).route? agent

/-- Two queues are each looked in for the other, unless just one of them has a name. -/
private theorem looks_comm_iff {j k : String} :
    ((j = k ∨ k = "") ↔ (k = j ∨ j = "")) ↔ (k = "" ↔ j = "") := by
  constructor
  · intro hlooks
    constructor
    · intro hk
      rcases hlooks.mp (Or.inr hk) with heq | hj
      · exact heq.symm.trans hk
      · exact hj
    · intro hj
      rcases hlooks.mpr (Or.inr hj) with heq | hk
      · exact heq.symm.trans hj
      · exact hk
  · intro hnamed
    constructor
    · rintro (heq | hk)
      · exact Or.inl heq.symm
      · exact Or.inr (hnamed.mp hk)
    · rintro (heq | hj)
      · exact Or.inl heq.symm
      · exact Or.inr (hnamed.mpr hj)

/-- **In either order.** If nothing waits, the order of a new call and a new request does not matter
exactly if both have a target or both have none. -/
theorem orderFree_iff (h : t.Idle) (hnew : t.groups.get? o.call = none)
    (hunpaired : t.paired.get? r.delegation = none) :
    t.OrderFree o r ↔ (queueKey o.target = "" ↔ queueKey r.target = "") := by
  have hcallFirst := h.pairsIf_opened_requested hnew hunpaired
  have hrequestFirst := h.pairsIf_requested_opened hnew hunpaired
  have hpaired := hcallFirst.carries_iff
  have hpaired' := hrequestFirst.carries_iff
  rw [← looks_comm_iff, ← hpaired, ← hpaired']
  constructor
  · exact OrderFree.paired_iff
  · intro hiff
    have hagree : Carries ((t.opened o).requested r).groups r.delegation o.call →
        ((t.opened o).requested r).withoutQueues = ((t.requested r).opened o).withoutQueues := by
      intro hcarries
      rw [hcallFirst.withoutQueues_eq (hpaired.mp hcarries),
        hrequestFirst.withoutQueues_eq (hpaired'.mp (hiff.mp hcarries))]
    refine ⟨hiff, fun hcarries ↦ ?_, fun hcarries agent ↦ ?_⟩
    · have hgroups := congrArg Tracker.groups (hagree hcarries)
      exact hgroups
    · have hroute := congrArg (Tracker.route? · agent) (hagree hcarries)
      exact hroute

/-- A pair that was made before and has ended. -/
def earlierPair : List Report := [
  .requested ⟨"d0", some "worker", none⟩,
  .opened ⟨"tc0", "main", some "worker", none, 0, ⟨1000⟩⟩,
  .finished "d0" ⟨.completed, ⟨2000⟩, none⟩]

/-- A call that names its target, with a blank before it. -/
def targetedCall : Opening := ⟨"tc1", "main", some " worker", none, 0, ⟨3000⟩⟩

/-- A call that names no target. -/
def untargetedCall : Opening := ⟨"tc1", "main", none, none, 0, ⟨3000⟩⟩

/-- A request that names its target. -/
def targetedRequest : Request := ⟨"d1", some "worker", some "look it up"⟩

theorem orderFree_targetedCall :
    (run earlierPair).Idle ∧ (run earlierPair).groups.get? targetedCall.call = none ∧
      (run earlierPair).paired.get? targetedRequest.delegation = none ∧
      (run earlierPair).OrderFree targetedCall targetedRequest := by
  have hidle : (run earlierPair).Idle := ⟨by decide, by decide⟩
  have hnew : (run earlierPair).groups.get? targetedCall.call = none := by decide
  have hunpaired : (run earlierPair).paired.get? targetedRequest.delegation = none := by decide
  exact ⟨hidle, hnew, hunpaired, (orderFree_iff hidle hnew hunpaired).mpr (by decide)⟩

/-- A call without a target finds no request that names one, though that request, coming later,
would have found the call. -/
theorem not_orderFree_untargetedCall :
    empty.Idle ∧ empty.groups.get? untargetedCall.call = none ∧
      empty.paired.get? targetedRequest.delegation = none ∧
      ¬ empty.OrderFree untargetedCall targetedRequest := by
  refine ⟨⟨rfl, rfl⟩, rfl, rfl, fun h ↦ ?_⟩
  have hcallFirst : (((empty.opened untargetedCall).requested targetedRequest).groups.get?
      untargetedCall.call).map (·.delegation) = some (some "d1") := by decide
  have hrequestFirst : (((empty.requested targetedRequest).opened untargetedCall).groups.get?
      untargetedCall.call).map (·.delegation) = some none := by decide
  obtain ⟨d, hd, hid⟩ := Option.map_eq_some_iff.mp hcallFirst
  obtain ⟨d', hd', hid'⟩ := h.paired_iff.mp ⟨d, hd, hid⟩
  rw [hd', Option.map_some, hid'] at hrequestFirst
  cases hrequestFirst

end Tracker

end SessionReplay
