import Mathlib.Data.List.Dedup
import Mathlib.Data.List.Induction
import SessionReplay.Proofs.Delegation.Waiting

/-!
# What a tracker can come to

A report may do several things at once: a request takes a call from its queue, gives it the
identifier, makes a route, and then a child session and an ending that were kept for the identifier
take effect. `Tracker.Reaches` lists the single moves a tracker is made of, each with what is known
when it is made, and `Tracker.reaches_run` says that every run is made of them. What is said about
trackers elsewhere is an induction along `Reaches`, one case for each move.

## Why what was kept comes last

`Tracker.pair` lets go of what was kept for an identifier in the middle of a pairing. The order does
not matter, so the pairing is one move, `Tracker.couple`, and the child session and the ending are
two moves after it: `Tracker.pair_eq`.

## Two histories

`Reaches` also notes which calls came, in their order, and for which identifiers requests were taken
in. A tracker remembers neither.
-/

namespace SessionReplay

namespace Tracker

variable {t : Tracker} {call : String} {d : Delegation}

/-! ## A pairing and what was kept for it -/

/-- The tracker after a pairing, when nothing is kept for the identifier any more. -/
def couple (t : Tracker) (call : String) (d : Delegation) (r : Request) : Tracker :=
  { t with
    groups := t.groups.insert call (d.pair r)
    paired := t.paired.insert r.delegation call
    keptForks := t.keptForks.erase r.delegation
    keptEndings := t.keptEndings.erase r.delegation }.activate r.delegation call (d.pair r)

/-- The tracker with the child session of a call, if there is one. -/
def attachAny (t : Tracker) (call : String) : Option String → Tracker
  | some child => t.attachChild call child
  | none => t

/-- The tracker with the ending of a call, if there is one. -/
def finishAny (t : Tracker) (call : String) : Option Ending → Tracker
  | some e => t.finishGroup call e
  | none => t

private theorem couple_eq (t : Tracker) (call : String) (d : Delegation) (r : Request) :
    t.couple call d r =
      { { t with
          groups := t.groups.insert call (d.pair r)
          paired := t.paired.insert r.delegation call }.activate r.delegation call (d.pair r) with
        keptForks := t.keptForks.erase r.delegation
        keptEndings := t.keptEndings.erase r.delegation } := by
  rw [couple, activate, activate]
  split <;> rfl

private theorem releaseFork_eq (t : Tracker) (id call : String) :
    t.releaseFork id call
      = { t with keptForks := t.keptForks.erase id }.attachAny call (t.keptForks.get? id) := by
  rw [releaseFork]
  cases h : t.keptForks.get? id with
  | some child => rfl
  | none => rw [Table.erase_eq_self h]; rfl

private theorem releaseEnding_eq (t : Tracker) (id call : String) :
    t.releaseEnding id call =
      { t with keptEndings := t.keptEndings.erase id }.finishAny call (t.keptEndings.get? id) := by
  rw [releaseEnding]
  cases h : t.keptEndings.get? id with
  | some e => rfl
  | none => rw [Table.erase_eq_self h]; rfl

theorem keptForks_activate (t : Tracker) (id call : String) (d : Delegation) :
    (t.activate id call d).keptForks = t.keptForks := by
  rw [activate]
  split <;> rfl

theorem keptEndings_activate (t : Tracker) (id call : String) (d : Delegation) :
    (t.activate id call d).keptEndings = t.keptEndings := by
  rw [activate]
  split <;> rfl

/-- A pairing, and then what was kept for the identifier. -/
theorem pair_eq (hd : t.groups.get? call = some d) (r : Request) :
    t.pair call r = ((t.couple call d r).attachAny call (t.keptForks.get? r.delegation)).finishAny
      call (t.keptEndings.get? r.delegation) := by
  rw [pair, hd]
  dsimp only
  rw [releaseFork_eq, keptForks_activate, releaseEnding_eq, couple_eq]
  cases t.keptForks.get? r.delegation with
  | some child =>
    simp only [attachAny, attachChild, keptEndings_activate]
  | none =>
    simp only [attachAny, keptEndings_activate]

/-! ## What each move changes -/

section Fields

variable (t : Tracker) (call : String) (d : Delegation) (r : Request) (e : Ending) (o : Opening)

@[simp] theorem groups_couple : (t.couple call d r).groups = t.groups.insert call (d.pair r) :=
  groups_activate _ _ _ _

@[simp] theorem openCalls_couple : (t.couple call d r).openCalls = t.openCalls := by
  rw [couple, activate]
  split <;> rfl

@[simp] theorem stack_couple (agent : String) :
    (t.couple call d r).stack agent = t.stack agent := by
  rw [stack, openCalls_couple, stack]

@[simp] theorem waitingCalls_couple : (t.couple call d r).waitingCalls = t.waitingCalls :=
  waitingCalls_activate _ _ _ _

@[simp] theorem waitingRequests_couple :
    (t.couple call d r).waitingRequests = t.waitingRequests := by
  rw [couple, activate]
  split <;> rfl

@[simp] theorem paired_couple :
    (t.couple call d r).paired = t.paired.insert r.delegation call := by
  rw [couple, activate]
  split <;> rfl

@[simp] theorem keptForks_couple :
    (t.couple call d r).keptForks = t.keptForks.erase r.delegation :=
  keptForks_activate _ _ _ _

@[simp] theorem keptEndings_couple :
    (t.couple call d r).keptEndings = t.keptEndings.erase r.delegation :=
  keptEndings_activate _ _ _ _

/-- A pairing makes a route if the delegation is in progress and has a target. -/
theorem get?_routes_couple {id : String} {route : Route}
    (h : (t.couple call d r).routes.get? id = some route) :
    t.routes.get? id = some route ∨ id = r.delegation ∧ route.group = call ∧
      d.isInProgress = true ∧ (d.pair r).target = some route.target := by
  rw [couple, activate] at h
  split at h
  · next target hprogress htarget =>
    rw [Table.get?_insert] at h
    split at h
    · next hid =>
      obtain rfl := Option.some.inj h
      exact Or.inr ⟨hid, rfl, hprogress, htarget⟩
    · exact Or.inl h
  · exact Or.inl h

theorem get?_groups_finishGroup (c : String) :
    (t.finishGroup call e).groups.get? c
      = if c = call then (t.groups.get? call).map (·.finish e) else t.groups.get? c := by
  rw [finishGroup]
  split
  · next hnone =>
    split
    · next hc => rw [hc, hnone]; rfl
    · rfl
  · next d hd =>
    rw [Table.get?_insert, hd]
    rfl

theorem get?_routes_finishGroup {id : String} {route : Route}
    (h : (t.finishGroup call e).routes.get? id = some route) :
    t.routes.get? id = some route ∧
      ∀ d, t.groups.get? call = some d → d.delegation ≠ some id := by
  rw [finishGroup] at h
  split at h
  · next hnone =>
    refine ⟨h, fun d hd ↦ ?_⟩
    rw [hnone] at hd
    cases hd
  · next d hd =>
    dsimp only at h
    split at h
    · next id' hid' =>
      rw [Table.get?_erase] at h
      split at h
      · cases h
      · next hne =>
        refine ⟨h, fun d' hd' hid ↦ hne ?_⟩
        obtain rfl : d = d' := Option.some.inj (hd.symm.trans hd')
        exact Option.some.inj (hid.symm.trans hid')
    · next hnone =>
      refine ⟨h, fun d' hd' hid ↦ ?_⟩
      obtain rfl : d = d' := Option.some.inj (hd.symm.trans hd')
      rw [hnone] at hid
      cases hid

/-- An ending takes the call from the stack of its agent. -/
theorem stack_finishGroup {t : Tracker} {call : String} {d : Delegation}
    (hd : t.groups.get? call = some d) (e : Ending) (agent : String) :
    (t.finishGroup call e).stack agent
      = if agent = d.agent then (t.stack agent).filter (· != call) else t.stack agent := by
  rw [stack, finishGroup, hd]
  dsimp only
  rw [Table.get?_modify]
  split
  · next hagent =>
    rw [stack, hagent]
    cases t.openCalls.get? d.agent <;> rfl
  · rfl

@[simp] theorem waitingRequests_finishGroup :
    (t.finishGroup call e).waitingRequests = t.waitingRequests := by
  rw [finishGroup]
  split <;> rfl

@[simp] theorem paired_finishGroup : (t.finishGroup call e).paired = t.paired := by
  rw [finishGroup]
  split <;> rfl

@[simp] theorem keptForks_finishGroup : (t.finishGroup call e).keptForks = t.keptForks := by
  rw [finishGroup]
  split <;> rfl

@[simp] theorem keptEndings_finishGroup : (t.finishGroup call e).keptEndings = t.keptEndings := by
  rw [finishGroup]
  split <;> rfl

theorem stack_enter (agent : String) :
    (t.enter o).stack agent =
      if agent = o.agent then o.call :: t.stack agent else t.stack agent := by
  rw [stack, enter, Table.get?_insert]
  split
  · next hagent => rw [hagent]; rfl
  · rfl

end Fields

/-! ## Moves -/

/-- The trackers that can come about, with the calls that came and the identifiers of the requests
that were taken in. Endings are those that are allowed. -/
inductive Reaches (allowed : Ending → Prop) : List String → List String → Tracker → Prop
  | start : Reaches allowed [] [] empty
  | wait {calls asked t} (o : Opening) (h : Reaches allowed calls asked t)
      (hnew : t.groups.get? o.call = none)
      (hnone : takeFor? t.waitingRequests (queueKey o.target) = none) :
      Reaches allowed (calls ++ [o.call]) asked
        { t.enter o with waitingCalls := putLast t.waitingCalls (queueKey o.target) o.call }
  | meet {calls asked t} (o : Opening) {r : Request} {queues : Table (List Request)}
      (h : Reaches allowed calls asked t) (hnew : t.groups.get? o.call = none)
      (htake : takeFor? t.waitingRequests (queueKey o.target) = some (r, queues)) :
      Reaches allowed (calls ++ [o.call]) asked
        ({ t.enter o with waitingRequests := queues }.couple o.call o.delegation r)
  | ask {calls asked t} (r : Request) (h : Reaches allowed calls asked t)
      (hunpaired : t.paired.get? r.delegation = none)
      (hnone : takeFor? t.waitingCalls (queueKey r.target) = none) :
      Reaches allowed calls (asked ++ [r.delegation])
        { t with waitingRequests := putLast t.waitingRequests (queueKey r.target) r }
  | answer {calls asked t} (r : Request) {call : String} {queues : Table (List String)}
      {d : Delegation} (h : Reaches allowed calls asked t)
      (hunpaired : t.paired.get? r.delegation = none)
      (htake : takeFor? t.waitingCalls (queueKey r.target) = some (call, queues))
      (hd : t.groups.get? call = some d) (hnone : d.delegation = none) :
      Reaches allowed calls (asked ++ [r.delegation])
        ({ t with waitingCalls := queues }.couple call d r)
  | attach {calls asked t} (call child : String) (h : Reaches allowed calls asked t) :
      Reaches allowed calls asked (t.attachChild call child)
  | finish {calls asked t} (call : String) (e : Ending) (h : Reaches allowed calls asked t)
      (he : allowed e) : Reaches allowed calls asked (t.finishGroup call e)
  | keepFork {calls asked t} (id child : String) (h : Reaches allowed calls asked t)
      (hunpaired : t.paired.get? id = none) :
      Reaches allowed calls asked { t with keptForks := t.keptForks.insert id child }
  | keepEnding {calls asked t} (id : String) (e : Ending) (h : Reaches allowed calls asked t)
      (he : allowed e) (hunpaired : t.paired.get? id = none) :
      Reaches allowed calls asked { t with keptEndings := t.keptEndings.insert id e }

/-- The endings in a report are allowed. -/
def Report.Allows (allowed : Ending → Prop) : Report → Prop
  | .finished _ e => allowed e
  | .finishGroup _ e => allowed e
  | _ => True

theorem Report.allows_true (r : Report) : r.Allows fun _ ↦ True := by
  cases r <;> exact trivial

/-- The call that a report names as made. -/
def Report.call? : Report → Option String
  | .opened o => some o.call
  | _ => none

/-- The identifier of the request that a report is. -/
def Report.request? : Report → Option String
  | .requested r => some r.delegation
  | _ => none

/-- The call that a report enters. -/
def newCalls (t : Tracker) (r : Report) : List String :=
  (r.call?.filter fun call ↦ !t.groups.contains call).toList

/-- The identifier of the request that a report has taken in. -/
def newRequests (t : Tracker) (r : Report) : List String :=
  (r.request?.filter fun id ↦ !t.paired.contains id).toList

variable {allowed : Ending → Prop} {cs asked : List String}

theorem Reaches.attachAny (h : Reaches allowed cs asked t) (call : String) (child : Option String) :
    Reaches allowed cs asked (t.attachAny call child) := by
  cases child with
  | none => exact h
  | some child => exact h.attach call child

theorem Reaches.finishAny (h : Reaches allowed cs asked t) (call : String) {e : Option Ending}
    (he : ∀ e', e = some e' → allowed e') : Reaches allowed cs asked (t.finishAny call e) := by
  cases e with
  | none => exact h
  | some e => exact h.finish call e (he e rfl)

/-- Only endings that are allowed are kept. -/
theorem Reaches.allowed_of_keptEndings (h : Reaches allowed cs asked t) {id : String} {e : Ending}
    (he : t.keptEndings.get? id = some e) : allowed e := by
  induction h with
  | start => cases he
  | wait _ _ _ _ ih => exact ih he
  | meet _ _ _ _ ih =>
    rw [keptEndings_couple, Table.get?_erase] at he
    split at he
    · cases he
    · exact ih he
  | ask _ _ _ _ ih => exact ih he
  | answer _ _ _ _ _ _ ih =>
    rw [keptEndings_couple, Table.get?_erase] at he
    split at he
    · cases he
    · exact ih he
  | attach _ _ _ ih => exact ih he
  | finish _ _ _ _ ih =>
    rw [keptEndings_finishGroup] at he
    exact ih he
  | keepFork _ _ _ _ ih => exact ih he
  | keepEnding _ e' _ hallowed _ ih =>
    rw [Table.get?_insert] at he
    split at he
    · exact Option.some.inj he ▸ hallowed
    · exact ih he

/-- The calls that came are those of the delegations. -/
theorem Reaches.mem_calls_iff (h : Reaches allowed cs asked t) {call : String} :
    call ∈ cs ↔ t.groups.contains call = true := by
  induction h with
  | start => simp [empty, Table.contains]
  | wait o _ _ _ ih =>
    rw [List.mem_append, List.mem_singleton, ih, or_comm]
    exact (Table.contains_insert_iff _ _ _ _).symm
  | meet o _ _ _ ih =>
    rw [List.mem_append, List.mem_singleton, ih, or_comm, groups_couple]
    dsimp only [enter]
    rw [Table.insert_insert]
    exact (Table.contains_insert_iff _ _ _ _).symm
  | ask _ _ _ _ ih => exact ih
  | answer _ _ _ _ hd _ ih =>
    rw [groups_couple, Table.contains_insert_iff, ih, or_iff_right_of_imp]
    rintro rfl
    exact Table.contains_iff.mpr ⟨_, hd⟩
  | attach call' child _ ih =>
    rw [ih, attachChild, Table.contains_modify]
  | finish call' e _ _ ih =>
    rw [ih, Table.contains, Table.contains, get?_groups_finishGroup]
    split
    · next hc => rw [hc, Option.isSome_map]
    · rfl
  | keepFork _ _ _ _ ih => exact ih
  | keepEnding _ _ _ _ _ ih => exact ih

/-! ## Runs -/

/-- **One report** is made of these moves. -/
theorem Reaches.step (h : Reaches allowed cs asked t) (ht : t.Orderly) {r : Report}
    (hr : r.Allows allowed) :
    Reaches allowed (cs ++ t.newCalls r) (asked ++ t.newRequests r) (t.step r) := by
  have hstays : Reaches allowed (cs ++ []) (asked ++ []) t := by
    rwa [List.append_nil, List.append_nil]
  cases r with
  | opened o =>
    rw [Tracker.step, opened_eq, newCalls, Report.call?, Option.filter_some]
    cases hcontains : t.groups.contains o.call with
    | true => exact hstays
    | false =>
      have hnew := Table.contains_eq_false_iff.mp hcontains
      change Reaches allowed (cs ++ [o.call]) (asked ++ []) _
      rw [List.append_nil, if_neg Bool.false_ne_true]
      split
      · next r queues htake =>
        rw [pair_eq (Table.get?_insert_self _ _ _)]
        exact ((h.meet o hnew htake).attachAny _ _).finishAny _ fun e he ↦
          h.allowed_of_keptEndings he
      · next hnone => exact h.wait o hnew hnone
  | requested r =>
    rw [Tracker.step, requested, newRequests, Report.request?, Option.filter_some]
    cases hcontains : t.paired.contains r.delegation with
    | true => exact hstays
    | false =>
      have hunpaired := Table.contains_eq_false_iff.mp hcontains
      change Reaches allowed (cs ++ []) (asked ++ [r.delegation]) _
      rw [List.append_nil, if_neg Bool.false_ne_true]
      split
      · next call queues htake =>
        obtain ⟨d, hd, hnone⟩ := (ht.orderlyBut_take htake).unpaired
        rw [pair_eq hd]
        exact ((h.answer r hunpaired htake hd hnone).attachAny _ _).finishAny _ fun e he ↦
          h.allowed_of_keptEndings he
      · next hnone => exact h.ask r hunpaired hnone
  | forked id child =>
    change Reaches allowed (cs ++ []) (asked ++ []) (t.forked id child)
    rw [forked]
    split
    · next call _ => exact hstays.attach call child
    · next hunpaired => exact hstays.keepFork id child hunpaired
  | finished id e =>
    change Reaches allowed (cs ++ []) (asked ++ []) (t.finished id e)
    rw [finished]
    split
    · next call _ => exact hstays.finish call e hr
    · next hunpaired => exact hstays.keepEnding id e hr hunpaired
  | finishGroup call e => exact hstays.finish call e hr

/-- The calls that came, each once, in the order in which they first came. -/
def calls (reports : List Report) : List String := (reports.filterMap Report.call?).eraseDups

/-- The identifiers of the requests that came. -/
def requests (reports : List Report) : List String := reports.filterMap Report.request?

theorem run_concat (before : List Report) (r : Report) :
    run (before ++ [r]) = (run before).step r := List.foldl_concat _ _ _ _

theorem Reaches.calls_concat {before : List Report}
    (h : Reaches allowed (calls before) asked (run before)) (r : Report) :
    calls (before ++ [r]) = calls before ++ (run before).newCalls r := by
  rw [calls, List.filterMap_append, List.eraseDups_append, ← calls, newCalls]
  congr 1
  have hmem : ∀ call, (before.filterMap Report.call?).elem call
      = (run before).groups.contains call := by
    intro call
    rw [Bool.eq_iff_iff, ← h.mem_calls_iff, calls, List.mem_eraseDups, List.elem_iff]
  cases hcall : r.call? with
  | none => rw [List.filterMap_cons_none hcall]; rfl
  | some call =>
    rw [List.filterMap_cons_some hcall, List.filterMap_nil, Option.filter_some, ← hmem,
      List.removeAll, List.filter_singleton]
    cases (before.filterMap Report.call?).elem call <;> rfl

private theorem newRequests_sublist (t : Tracker) (r : Report) :
    (t.newRequests r).Sublist (requests [r]) := by
  rw [newRequests, requests]
  cases hid : r.request? with
  | none => rw [List.filterMap_cons_none hid]; exact List.Sublist.refl _
  | some id =>
    rw [List.filterMap_cons_some hid, List.filterMap_nil, Option.filter_some]
    split
    · exact List.Sublist.refl _
    · exact List.nil_sublist _

/-- **Any number of reports.** -/
theorem reaches_run {reports : List Report} (h : ∀ r ∈ reports, r.Allows allowed) :
    ∃ asked, asked.Sublist (requests reports) ∧
      Reaches allowed (calls reports) asked (run reports) := by
  induction reports using List.reverseRecOn with
  | nil => exact ⟨[], List.Sublist.refl _, .start⟩
  | append_singleton before r ih =>
    obtain ⟨asked, hasked, hbefore⟩ := ih fun x hx ↦ h x (List.mem_append_left _ hx)
    have hr := h r (List.mem_append_right _ List.mem_cons_self)
    refine ⟨asked ++ (run before).newRequests r, ?_, ?_⟩
    · rw [requests, List.filterMap_append]
      exact hasked.append (newRequests_sublist _ r)
    · rw [run_concat, hbefore.calls_concat]
      exact hbefore.step (orderly_run before) hr

end Tracker

end SessionReplay
