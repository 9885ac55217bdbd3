import SessionReplay.Proofs.Delegation.Pairing

/-!
# The parts of a report

A report does up to four things, and in this order: it finds its place in the tables, it pairs a
call with a request, it gives a delegation a child session, and it ends a delegation. What it will
pair, attach and end can be asked before it comes, `Tracker.pairs?`, `Tracker.attaches?` and
`Tracker.ends?`, and `Tracker.Orderly.step_eq_elim` says that the step does just that. What a step
does to one table is then read off part by part.

## Why a report ends one delegation at most

An ending comes with its report or was kept for the identifier of a pairing. A report pairs one call
at most, and what was kept is then for this call. So all that a report ends is one delegation, and
all others stand as they stood: `Tracker.Orderly.get?_groups_step` and
`Tracker.Orderly.endsAlone_step`.
-/

namespace SessionReplay

/-- What a part of a report has for a name, if it is this name that the part concerns. -/
def partFor {α : Type} (name : String) (part : Option (String × α)) : Option α :=
  part.bind fun p ↦ if p.1 = name then some p.2 else none

theorem partFor_some {α : Type} (name : String) (p : String × α) :
    partFor name (some p) = if p.1 = name then some p.2 else none := rfl

theorem partFor_eq_some_iff {α : Type} {name : String} {part : Option (String × α)} {x : α} :
    partFor name part = some x ↔ part = some (name, x) := by
  rw [partFor, Option.bind_eq_some_iff]
  constructor
  · rintro ⟨⟨n, y⟩, rfl, hy⟩
    obtain ⟨rfl, hsome⟩ := Option.ite_none_right_eq_some.mp hy
    cases hsome
    rfl
  · rintro rfl
    exact ⟨(name, x), rfl, if_pos rfl⟩

/-- A delegation after a report that pairs it, gives it a child session and ends it, or does some of
this. -/
def Delegation.after (d : Delegation) (r : Option Request) (child : Option String)
    (e : Option Ending) : Delegation :=
  let paired := r.elim d d.pair
  let attached := child.elim paired fun child ↦ { paired with child := some child }
  e.elim attached attached.finish

namespace Delegation

/-- What does not end a delegation leaves its ending as it is. -/
theorem ending_after_none (d : Delegation) (r : Option Request) (child : Option String) :
    (d.after r child none).status = d.status ∧ (d.after r child none).stop = d.stop ∧
      (d.after r child none).outcome = d.outcome := by
  cases r <;> cases child <;> exact ⟨rfl, rfl, rfl⟩

theorem delegation_after (d : Delegation) (r : Option Request) (child : Option String)
    (e : Option Ending) :
    (d.after r child e).delegation = r.elim d.delegation fun r ↦ some r.delegation := by
  have hunended : (d.after r child none).delegation
      = r.elim d.delegation fun r ↦ some r.delegation := by
    cases r <;> cases child <;> rfl
  cases e with
  | none => exact hunended
  | some e => exact (advances_finish _ e).delegation_eq.trans hunended

end Delegation

namespace Tracker

variable {t : Tracker} {call id : String} {d : Delegation}

/-! ## The parts -/

/-- The call that a report pairs, and the request with which. -/
def pairs? (t : Tracker) : Report → Option (String × Request)
  | .opened o =>
    if t.groups.contains o.call then none
    else (takeFor? t.waitingRequests (queueKey o.target)).map fun taken ↦ (o.call, taken.1)
  | .requested r =>
    if t.paired.contains r.delegation then none
    else (takeFor? t.waitingCalls (queueKey r.target)).map fun taken ↦ (taken.1, r)
  | _ => none

/-- What was kept for the identifier of a pairing, and for the call of the pairing. -/
def released? {α : Type} (kept : Table α) (pairing : Option (String × Request)) :
    Option (String × α) :=
  pairing.bind fun p ↦ (kept.get? p.2.delegation).map fun x ↦ (p.1, x)

/-- The call whose delegation a report gives a child session: that of its identifier, or the call
that it pairs, if a child session was kept for it. -/
def attaches? (t : Tracker) : Report → Option (String × String)
  | .forked id child => (t.paired.get? id).map fun call ↦ (call, child)
  | r => released? t.keptForks (t.pairs? r)

/-- The call whose delegation a report ends: that of its identifier, or the call that it pairs, if
an ending was kept for it. -/
def ends? (t : Tracker) : Report → Option (String × Ending)
  | .finishGroup call e => some (call, e)
  | .finished id e => (t.paired.get? id).map fun call ↦ (call, e)
  | r => released? t.keptEndings (t.pairs? r)

/-- What a report ends: the delegation of a call or of an identifier that it names, or the one that
it pairs, if an ending was kept for it. -/
theorem ends?_eq_some_iff {r : Report} {e : Ending} : t.ends? r = some (call, e) ↔
    r = .finishGroup call e ∨ (∃ id, r = .finished id e ∧ t.paired.get? id = some call) ∨
      ∃ q, t.pairs? r = some (call, q) ∧ t.keptEndings.get? q.delegation = some e := by
  have hreleased : released? t.keptEndings (t.pairs? r) = some (call, e) ↔
      ∃ q, t.pairs? r = some (call, q) ∧ t.keptEndings.get? q.delegation = some e := by
    simp [released?, Option.bind_eq_some_iff]
  cases r with
  | opened o => simpa [ends?] using hreleased
  | requested q => simpa [ends?] using hreleased
  | forked id child => simp [ends?, pairs?, released?]
  | finished id e' => simp [ends?, pairs?]; tauto
  | finishGroup c e' => simp [ends?, pairs?]

/-- A pairing ends a delegation if an ending was kept for it. -/
theorem partFor_ends?_of_pairs {r : Report} {q : Request} (hpairs : t.pairs? r = some (call, q)) :
    partFor call (t.ends? r) = t.keptEndings.get? q.delegation := by
  have hends : t.ends? r = released? t.keptEndings (t.pairs? r) := by
    cases r with
    | opened _ => rfl
    | requested _ => rfl
    | forked _ _ => cases hpairs
    | finished _ _ => cases hpairs
    | finishGroup _ _ => cases hpairs
  rw [hends, hpairs, released?, Option.bind_some]
  cases t.keptEndings.get? q.delegation with
  | none => rfl
  | some e => exact partFor_eq_some_iff.mpr rfl

/-- The tracker when a report has found its place: a new call is entered, who has no partner waits,
and what names an identifier without a call is kept. -/
def receive (t : Tracker) : Report → Tracker
  | .opened o =>
    if t.groups.contains o.call then t else
    match takeFor? t.waitingRequests (queueKey o.target) with
    | some (_, queues) => { t.enter o with waitingRequests := queues }
    | none => { t.enter o with waitingCalls := putLast t.waitingCalls (queueKey o.target) o.call }
  | .requested r =>
    if t.paired.contains r.delegation then t else
    match takeFor? t.waitingCalls (queueKey r.target) with
    | some (_, queues) => { t with waitingCalls := queues }
    | none => { t with waitingRequests := putLast t.waitingRequests (queueKey r.target) r }
  | .forked id child =>
    if t.paired.contains id then t else { t with keptForks := t.keptForks.insert id child }
  | .finished id e =>
    if t.paired.contains id then t else { t with keptEndings := t.keptEndings.insert id e }
  | .finishGroup _ _ => t

/-- A call that is there is paired with a request. -/
def coupleAt (t : Tracker) (call : String) (r : Request) : Tracker :=
  match t.groups.get? call with
  | some d => t.couple call d r
  | none => t

/-- The tracker when a report has found its place and has paired a call. -/
def coupled (t : Tracker) (r : Report) : Tracker :=
  (t.pairs? r).elim (t.receive r) fun p ↦ (t.receive r).coupleAt p.1 p.2

/-- The same when it has also given a delegation its child session. -/
def attached (t : Tracker) (r : Report) : Tracker :=
  (t.attaches? r).elim (t.coupled r) fun p ↦ (t.coupled r).attachChild p.1 p.2

/-- A call is its place and a pairing, if there is a request for it. -/
theorem opened_eq_elim (t : Tracker) (o : Opening) :
    t.opened o = (t.pairs? (.opened o)).elim (t.receive (.opened o)) fun p ↦
      (t.receive (.opened o)).pair p.1 p.2 := by
  rw [opened_eq, pairs?, receive]
  split
  · rfl
  · cases takeFor? t.waitingRequests (queueKey o.target) <;> rfl

/-- A request is its place and a pairing, if there is a call for it. -/
theorem requested_eq_elim (t : Tracker) (q : Request) :
    t.requested q = (t.pairs? (.requested q)).elim (t.receive (.requested q)) fun p ↦
      (t.receive (.requested q)).pair p.1 p.2 := by
  rw [requested, pairs?, receive]
  split
  · rfl
  · cases takeFor? t.waitingCalls (queueKey q.target) <;> rfl

/-- A call that is to be paired is there, and it was not paired before. -/
theorem Orderly.exists_of_pairs? (h : t.Orderly) {r : Report} {q : Request}
    (hpairs : t.pairs? r = some (call, q)) :
    ∃ d, (t.receive r).groups.get? call = some d ∧ d.delegation = none := by
  cases r with
  | opened o =>
    rw [pairs?] at hpairs
    split at hpairs
    · cases hpairs
    · next hnew =>
      obtain ⟨⟨q', queues⟩, htake, heq⟩ := Option.map_eq_some_iff.mp hpairs
      cases heq
      rw [receive, if_neg hnew, htake]
      exact ⟨o.delegation, Table.get?_insert_self _ _ _, rfl⟩
  | requested q' =>
    rw [pairs?] at hpairs
    split at hpairs
    · cases hpairs
    · next hunpaired =>
      obtain ⟨⟨c, queues⟩, htake, heq⟩ := Option.map_eq_some_iff.mp hpairs
      cases heq
      rw [receive, if_neg hunpaired, htake]
      exact (h.orderlyBut_take htake).unpaired
  | forked _ _ => cases hpairs
  | finished _ _ => cases hpairs
  | finishGroup _ _ => cases hpairs

/-- What is kept does not change when a call or a request finds its place. -/
theorem kept_receive {r : Report} {q : Request} (hpairs : t.pairs? r = some (call, q)) :
    (t.receive r).keptForks = t.keptForks ∧ (t.receive r).keptEndings = t.keptEndings := by
  cases r with
  | opened o =>
    rw [receive]
    split
    · exact ⟨rfl, rfl⟩
    · split <;> exact ⟨rfl, rfl⟩
  | requested q' =>
    rw [receive]
    split
    · exact ⟨rfl, rfl⟩
    · split <;> exact ⟨rfl, rfl⟩
  | forked _ _ => cases hpairs
  | finished _ _ => cases hpairs
  | finishGroup _ _ => cases hpairs

/-- A pairing is its parts: what was kept for the identifier takes effect after it. -/
theorem Orderly.elim_pair_eq (h : t.Orderly) {r : Report}
    (hattaches : t.attaches? r = released? t.keptForks (t.pairs? r))
    (hends : t.ends? r = released? t.keptEndings (t.pairs? r)) :
    ((t.pairs? r).elim (t.receive r) fun p ↦ (t.receive r).pair p.1 p.2)
      = (t.ends? r).elim (t.attached r) fun p ↦ (t.attached r).finishGroup p.1 p.2 := by
  rw [attached, hattaches, hends, coupled]
  cases hpairs : t.pairs? r with
  | none => rfl
  | some p =>
    obtain ⟨d, hd, -⟩ := h.exists_of_pairs? hpairs
    obtain ⟨hforks, hendings⟩ := kept_receive hpairs
    rw [released?, released?, Option.elim_some, Option.bind_some, Option.bind_some,
      Option.elim_some, pair_eq hd, hforks, hendings, coupleAt, hd]
    cases t.keptForks.get? p.2.delegation <;> cases t.keptEndings.get? p.2.delegation <;> rfl

/-- **One report** is its parts, one after the other. -/
theorem Orderly.step_eq_elim (h : t.Orderly) (r : Report) :
    t.step r = (t.ends? r).elim (t.attached r) fun p ↦ (t.attached r).finishGroup p.1 p.2 := by
  cases r with
  | opened o =>
    rw [← h.elim_pair_eq rfl rfl]
    exact t.opened_eq_elim o
  | requested q =>
    rw [← h.elim_pair_eq rfl rfl]
    exact t.requested_eq_elim q
  | forked id child =>
    have hends : t.ends? (.forked id child) = none := rfl
    have hplace : t.coupled (.forked id child) = t.receive (.forked id child) := rfl
    rw [hends, Option.elim_none, attached, attaches?, hplace, receive, Table.contains, Tracker.step,
      forked]
    cases t.paired.get? id <;> rfl
  | finished id e =>
    have hplace : t.attached (.finished id e) = t.receive (.finished id e) := rfl
    rw [hplace, ends?, receive, Table.contains, Tracker.step, finished]
    cases t.paired.get? id <;> rfl
  | finishGroup call e => rfl

/-- What neither an ending nor a child session touches is as the pairing has left it. -/
theorem Orderly.apply_step {α : Type} {f : Tracker → α}
    (hattach : ∀ u call child, f (u.attachChild call child) = f u)
    (hfinish : ∀ u call e, f (u.finishGroup call e) = f u) (h : t.Orderly) (r : Report) :
    f (t.step r) = f (t.coupled r) := by
  have hattached : f (t.attached r) = f (t.coupled r) := by
    rw [attached]
    cases t.attaches? r with
    | none => rfl
    | some p => exact hattach _ _ _
  rw [h.step_eq_elim, ← hattached]
  cases t.ends? r with
  | none => rfl
  | some p => exact hfinish _ _ _

/-- A report pairs nothing, or it pairs a call that is there and was not paired before. -/
theorem Orderly.coupled_cases (h : t.Orderly) (r : Report) :
    (t.pairs? r = none ∧ t.coupled r = t.receive r) ∨
      ∃ call q d, t.pairs? r = some (call, q) ∧ (t.receive r).groups.get? call = some d ∧
        d.delegation = none ∧ t.coupled r = (t.receive r).couple call d q := by
  rw [coupled]
  cases hpairs : t.pairs? r with
  | none => exact Or.inl ⟨rfl, rfl⟩
  | some p =>
    obtain ⟨d, hd, hnone⟩ := h.exists_of_pairs? hpairs
    exact Or.inr ⟨p.1, p.2, d, rfl, hd, hnone, by rw [Option.elim_some, coupleAt, hd]⟩

/-! ## Delegations after a report -/

/-- A report enters its call, if that is new, and otherwise changes who waits and what is kept at
most. -/
theorem receive_cases (t : Tracker) (r : Report) :
    (∃ o, r = .opened o ∧ t.groups.contains o.call = false ∧ ∃ calls requests,
      t.receive r = { t.enter o with waitingCalls := calls, waitingRequests := requests }) ∨
    ((∀ o, r = .opened o → t.groups.contains o.call = true) ∧ ∃ calls requests forks endings,
      t.receive r = { t with
        waitingCalls := calls
        waitingRequests := requests
        keptForks := forks
        keptEndings := endings }) := by
  cases r with
  | opened o =>
    rw [receive]
    cases hnew : t.groups.contains o.call with
    | true => exact Or.inr ⟨fun o' ho ↦ (by cases ho; exact hnew), _, _, _, _, rfl⟩
    | false =>
      refine Or.inl ⟨o, rfl, hnew, ?_⟩
      rw [if_neg Bool.false_ne_true]
      split <;> exact ⟨_, _, rfl⟩
  | requested q =>
    refine Or.inr ⟨nofun, ?_⟩
    rw [receive]
    split
    · exact ⟨_, _, _, _, rfl⟩
    · split <;> exact ⟨_, _, _, _, rfl⟩
  | forked id child =>
    refine Or.inr ⟨nofun, ?_⟩
    rw [receive]
    split <;> exact ⟨_, _, _, _, rfl⟩
  | finished id e =>
    refine Or.inr ⟨nofun, ?_⟩
    rw [receive]
    split <;> exact ⟨_, _, _, _, rfl⟩
  | finishGroup call e => exact Or.inr ⟨nofun, _, _, _, _, rfl⟩

theorem groups_receive (t : Tracker) (r : Report) : (t.receive r).groups = t.entered r := by
  rcases t.receive_cases r with ⟨o, rfl, hnew, _, _, heq⟩ | ⟨hold, _, _, _, _, heq⟩
  · rw [heq, entered, Table.insertNew, hnew, if_neg Bool.false_ne_true]
    rfl
  · rw [heq]
    cases r with
    | opened o => rw [entered, Table.insertNew, hold o rfl, if_pos rfl]
    | _ => rfl

theorem routes_receive (t : Tracker) (r : Report) :
    (t.receive r).routes = t.routes ∧ (t.receive r).ranks = t.ranks := by
  rcases t.receive_cases r with ⟨o, rfl, -, _, _, heq⟩ | ⟨-, _, _, _, _, heq⟩
  · rw [heq]
    exact ⟨rfl, rfl⟩
  · rw [heq]
    exact ⟨rfl, rfl⟩

theorem Orderly.get?_groups_coupled (h : t.Orderly) (r : Report) (c : String) :
    (t.coupled r).groups.get? c
      = ((t.entered r).get? c).map fun d ↦ (partFor c (t.pairs? r)).elim d d.pair := by
  rw [← groups_receive]
  rcases h.coupled_cases r with ⟨hpairs, heq⟩ | ⟨call, q, d, hpairs, hd, -, heq⟩
  · rw [heq, hpairs]
    exact Option.map_id'.symm
  · rw [heq, hpairs, groups_couple, Table.get?_insert, partFor_some]
    by_cases hc : c = call
    · rw [if_pos hc, if_pos hc.symm, hc, hd]
      rfl
    · rw [if_neg hc, if_neg (Ne.symm hc)]
      exact Option.map_id'.symm

private theorem get?_groups_attached (t : Tracker) (r : Report) (c : String) :
    (t.attached r).groups.get? c = ((t.coupled r).groups.get? c).map fun d ↦
      (partFor c (t.attaches? r)).elim d fun child ↦ { d with child := some child } := by
  rw [attached]
  cases t.attaches? r with
  | none => exact Option.map_id'.symm
  | some p =>
    rw [Option.elim_some, attachChild, Table.get?_modify, partFor_some]
    by_cases hc : c = p.1
    · rw [if_pos hc, if_pos hc.symm, hc]
      rfl
    · rw [if_neg hc, if_neg (Ne.symm hc)]
      exact Option.map_id'.symm

/-- **Delegations after a report.** The one that the report pairs, the one to which it gives a child
session and the one that it ends change in this way, and all others stay. -/
theorem Orderly.get?_groups_step (h : t.Orderly) (r : Report) (c : String) :
    (t.step r).groups.get? c = ((t.entered r).get? c).map fun d ↦
      d.after (partFor c (t.pairs? r)) (partFor c (t.attaches? r)) (partFor c (t.ends? r)) := by
  have hattached : (t.attached r).groups.get? c = ((t.entered r).get? c).map fun d ↦
      d.after (partFor c (t.pairs? r)) (partFor c (t.attaches? r)) none := by
    rw [get?_groups_attached, h.get?_groups_coupled, Option.map_map]
    rfl
  rw [h.step_eq_elim]
  cases t.ends? r with
  | none => exact hattached
  | some p =>
    rw [Option.elim_some, get?_groups_finishGroup, partFor_some]
    by_cases hc : c = p.1
    · rw [if_pos hc, if_pos hc.symm, ← hc, hattached, Option.map_map]
      rfl
    · rw [if_neg hc, if_neg (Ne.symm hc), hattached]

/-- A delegation was there before a report, or it is new and the report has entered it. -/
theorem get?_entered {r : Report} (hd : (t.entered r).get? call = some d) :
    t.groups.get? call = some d ∨
      t.groups.get? call = none ∧ ∃ o, r = .opened o ∧ o.call = call ∧ d = o.delegation := by
  cases r with
  | opened o =>
    rw [entered, Table.get?_insertNew] at hd
    split at hd
    · next hcall =>
      subst hcall
      rcases Option.or_eq_some_iff.mp hd with hold | ⟨hnone, hnew⟩
      · exact Or.inl hold
      · exact Or.inr ⟨hnone, o, rfl, rfl, (Option.some.inj hnew).symm⟩
    · exact Or.inl hd
  | _ => exact Or.inl hd

/-- What was there before a report is there when the report has entered its call. -/
theorem get?_entered_of_get? (hd : t.groups.get? call = some d) (r : Report) :
    (t.entered r).get? call = some d := by
  cases r with
  | opened o =>
    rw [entered, Table.get?_insertNew]
    split
    · next hcall => rw [← hcall, hd, Option.some_or]
    · exact hd
  | _ => exact hd

theorem carries_entered_iff (t : Tracker) (r : Report) :
    Carries (t.entered r) id call ↔ Carries t.groups id call := by
  cases r with
  | opened o =>
    rw [entered, Table.insertNew]
    split
    · rfl
    · next hold =>
      exact carries_enter_iff (Table.contains_eq_false_iff.mp ((Bool.not_eq_true _).mp hold))
  | _ => exact Iff.rfl

/-- **Identifiers after a report.** The call that the report pairs gets the one of its request. -/
theorem Orderly.carries_step_iff (h : t.Orderly) (r : Report) :
    Carries (t.step r).groups id call ↔
      Carries t.groups id call ∨ ∃ q, t.pairs? r = some (call, q) ∧ q.delegation = id := by
  rw [← t.carries_entered_iff r, Carries, h.get?_groups_step]
  simp only [Option.map_eq_some_iff, exists_exists_and_eq_and, Delegation.delegation_after,
    ← partFor_eq_some_iff]
  cases hpairs : partFor call (t.pairs? r) with
  | none => simp [Carries]
  | some q =>
    obtain ⟨d, hd, hnone⟩ := h.exists_of_pairs? (partFor_eq_some_iff.mp hpairs)
    rw [groups_receive] at hd
    simp [Carries, hd, hnone]

/-- A call that is paired is not paired again. -/
theorem Orderly.pairs?_ne_of_carries (h : t.Orderly) {r : Report} (hc : Carries t.groups id call)
    (q : Request) : t.pairs? r ≠ some (call, q) := by
  intro hpairs
  obtain ⟨d, hd, hid⟩ := (t.carries_entered_iff r).mpr hc
  obtain ⟨d', hd', hnone⟩ := h.exists_of_pairs? hpairs
  rw [groups_receive, hd] at hd'
  rw [← Option.some.inj hd', hid] at hnone
  cases hnone

/-! ## Stacks after a report -/

/-- The call that a report puts on the stack of an agent. -/
def pushed (t : Tracker) (agent : String) : Report → List String
  | .opened o => if t.groups.contains o.call = false ∧ agent = o.agent then [o.call] else []
  | _ => []

private theorem stack_receive (t : Tracker) (r : Report) (agent : String) :
    (t.receive r).stack agent = t.pushed agent r ++ t.stack agent := by
  rcases t.receive_cases r with ⟨o, rfl, hnew, _, _, heq⟩ | ⟨hold, _, _, _, _, heq⟩
  · rw [heq, pushed]
    refine (t.stack_enter o agent).trans ?_
    by_cases hagent : agent = o.agent
    · rw [if_pos hagent, if_pos ⟨hnew, hagent⟩, List.singleton_append]
    · rw [if_neg hagent, if_neg fun h ↦ hagent h.2, List.nil_append]
  · rw [heq]
    cases r with
    | opened o => rw [pushed, hold o rfl, if_neg fun h ↦ Bool.noConfusion h.1]; rfl
    | _ => rfl

theorem Orderly.stack_attached (h : t.Orderly) (r : Report) (agent : String) :
    (t.attached r).stack agent = t.pushed agent r ++ t.stack agent := by
  have hcoupled : (t.coupled r).stack agent = (t.receive r).stack agent := by
    rcases h.coupled_cases r with ⟨-, heq⟩ | ⟨call, q, d, -, -, -, heq⟩
    · rw [heq]
    · rw [heq, stack_couple]
  rw [← stack_receive, ← hcoupled, attached]
  cases t.attaches? r <;> rfl

private theorem stack_finishGroup_sublist (t : Tracker) (call : String) (e : Ending)
    (agent : String) :
    ((t.finishGroup call e).stack agent).Sublist (t.stack agent) := by
  cases hd : t.groups.get? call with
  | none => rw [finishGroup, hd]
  | some d =>
    rw [stack_finishGroup hd]
    split
    · exact List.filter_sublist
    · exact List.Sublist.refl _

/-- A report puts its call on top of a stack and takes away what has ended. -/
theorem Orderly.stack_step_sublist (h : t.Orderly) (r : Report) (agent : String) :
    ((t.step r).stack agent).Sublist (t.pushed agent r ++ t.stack agent) := by
  rw [← h.stack_attached, h.step_eq_elim]
  cases t.ends? r with
  | none => exact List.Sublist.refl _
  | some p => exact stack_finishGroup_sublist _ _ _ _

/-- **Stacks after a report** that ends a delegation. It leaves the stack of its agent, and no other
stack has it. -/
theorem Orderly.stack_step_of_ends (h : t.Orderly) {r : Report} {e : Ending}
    (hends : t.ends? r = some (call, e)) (hd : (t.step r).groups.get? call = some d)
    (agent : String) :
    (t.step r).stack agent = if agent = d.agent then
      (t.pushed agent r ++ t.stack agent).filter (· != call)
    else t.pushed agent r ++ t.stack agent := by
  rw [h.step_eq_elim, hends, Option.elim_some] at hd ⊢
  rw [get?_groups_finishGroup, if_pos rfl] at hd
  obtain ⟨d₀, hd₀, rfl⟩ := Option.map_eq_some_iff.mp hd
  rw [stack_finishGroup hd₀, h.stack_attached, (Delegation.advances_finish d₀ e).agent_eq]

/-! ## Delegations end one by one -/

/-- The delegation of a call has ended, and this has ended no other and touched no stack but that of
its agent. -/
structure EndsAlone (t t' : Tracker) (call agent : String) : Prop where
  others : ∀ c d, c ≠ call → t.groups.get? c = some d → ∃ d', t'.groups.get? c = some d' ∧
    d'.status = d.status ∧ d'.stop = d.stop ∧ d'.outcome = d.outcome
  /-- The call leaves the stack of its agent, and the others keep their order. -/
  stack_eq : t'.stack agent = (t.stack agent).filter (· != call)
  otherStacks : ∀ agent', agent' ≠ agent → t'.stack agent' = t.stack agent'

theorem endsAlone_finishGroup (hd : t.groups.get? call = some d) (e : Ending) :
    t.EndsAlone (t.finishGroup call e) call d.agent where
  others c d' hne hd' := ⟨d', by rw [get?_groups_finishGroup, if_neg hne, hd'], rfl, rfl, rfl⟩
  stack_eq := by rw [stack_finishGroup hd, if_pos rfl]
  otherStacks agent' hne := by rw [stack_finishGroup hd, if_neg hne]

/-- A call that a report enters and ends was put on the stack of its own agent only. -/
theorem Orderly.pushed_of_ends? (h : t.Orderly) {r : Report} {e : Ending}
    (hends : t.ends? r = some (call, e)) (hd : (t.step r).groups.get? call = some d)
    (agent : String) :
    t.pushed agent r = [] ∨ (t.pushed agent r = [call] ∧ agent = d.agent) := by
  cases r with
  | opened o =>
    rw [pushed]
    split
    · next hnew =>
      obtain ⟨hnew, hagent⟩ := hnew
      have hcall : o.call = call := by
        obtain ⟨q, hpairs, -⟩ := ((ends?_eq_some_iff.mp hends).resolve_left (by simp)).resolve_left
          (by simp)
        rw [pairs?, if_neg (Bool.eq_false_iff.mp hnew)] at hpairs
        obtain ⟨taken, -, heq⟩ := Option.map_eq_some_iff.mp hpairs
        exact (Prod.mk.inj heq).1
      obtain ⟨d₀, hd₀, hevolves⟩ := (h.step _).2.exists_of_get?_eq_some hd
      rcases get?_entered hd₀ with hold | ⟨-, o', ho, -, rfl⟩
      · rw [← hcall, Table.contains_eq_false_iff.mp hnew] at hold
        cases hold
      · cases ho
        exact Or.inr ⟨by rw [hcall], hagent.trans hevolves.agent_eq.symm⟩
    · exact Or.inl rfl
  | _ => exact Or.inl rfl

/-- A report that ends a delegation ends it alone. -/
theorem Orderly.endsAlone_step (h : t.Orderly) {r : Report} {e : Ending}
    (hends : t.ends? r = some (call, e)) (hd : (t.step r).groups.get? call = some d) :
    t.EndsAlone (t.step r) call d.agent where
  others c d₀ hne hd₀ := by
    have hother : partFor c (t.ends? r) = none := by
      rw [hends, partFor_some, if_neg (Ne.symm hne)]
    rw [h.get?_groups_step, get?_entered_of_get? hd₀, hother, Option.map_some]
    exact ⟨_, rfl, d₀.ending_after_none _ _⟩
  stack_eq := by
    rw [h.stack_step_of_ends hends hd, if_pos rfl, List.filter_append]
    rcases h.pushed_of_ends? hends hd d.agent with hnone | ⟨hcall, -⟩
    · rw [hnone, List.filter_nil, List.nil_append]
    · rw [hcall, List.filter_singleton, bne_self_eq_false]
      rfl
  otherStacks agent hne := by
    rw [h.stack_step_of_ends hends hd, if_neg hne]
    rcases h.pushed_of_ends? hends hd agent with hnone | ⟨-, hagent⟩
    · rw [hnone, List.nil_append]
    · exact absurd hagent hne

/-- A delegation that has ended meanwhile was ended by the report. -/
theorem Orderly.exists_ends? (h : t.Orderly) {r : Report}
    (hd : (t.step r).groups.get? call = some d) (hended : d.isInProgress = false)
    (hbefore : ∀ d₀, t.groups.get? call = some d₀ → d₀.isInProgress = true) :
    ∃ e, t.ends? r = some (call, e) := by
  rw [h.get?_groups_step] at hd
  obtain ⟨d₀, hd₀, rfl⟩ := Option.map_eq_some_iff.mp hd
  have hprogress : d₀.isInProgress = true := by
    rcases get?_entered hd₀ with hold | ⟨-, o, -, -, rfl⟩
    · exact hbefore d₀ hold
    · rfl
  cases hends : partFor call (t.ends? r) with
  | some e => exact ⟨e, partFor_eq_some_iff.mp hends⟩
  | none =>
    rw [hends, Delegation.isInProgress, (d₀.ending_after_none _ _).1] at hended
    exact absurd hprogress (Bool.eq_false_iff.mp hended)

end Tracker

end SessionReplay
