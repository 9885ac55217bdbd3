import SessionReplay.Proofs.Delegation.Identity

/-!
# Child sessions and endings that come early or late

The child session and the ending of a delegation are reported by its identifier. A report that comes
before the pairing is kept and takes effect with it, and one that comes after takes effect at once.
So it does not matter when they come: `Tracker.run_eq_of_perm`.

## What a run comes to

The calls and requests alone decide which delegations there are, which identifiers they get, how
they stand on the stacks and in which order the routes are made. `Tracker.settle` puts all the child
sessions and endings on top of this, each where its identifier leads, and keeps the others.
`Tracker.run_eq_settle` says that a run comes to the same, wherever in it they were reported. The
order of the reports is then only left in the tables of all child sessions and all endings, and
these have each identifier once.
-/

namespace SessionReplay

/-- A delegation with the child session and the ending that were reported for its identifier. -/
def Delegation.settle (d : Delegation) (forks : Table String) (endings : Table Ending) :
    Delegation :=
  match d.delegation with
  | none => d
  | some id =>
    let d' := { d with child := (forks.get? id).or d.child }
    match endings.get? id with
    | some e => d'.finish e
    | none => d'

namespace Tracker

attribute [ext] Tracker

/-- Whether an ending was reported for the identifier of a call's delegation. -/
def isSettled (t : Tracker) (endings : Table Ending) (call : String) : Bool :=
  ((t.groups.get? call).bind Delegation.delegation).any endings.contains

/-- Whether an identifier is not paired. -/
def isUnpaired (t : Tracker) (id : String) : Bool := !t.paired.contains id

/-- The tracker with the child sessions and the endings that were reported for identifiers. Those of
identifiers that are not paired are kept. -/
def settle (t : Tracker) (forks : Table String) (endings : Table Ending) : Tracker :=
  { t with
    groups := t.groups.map fun d ↦ d.settle forks endings
    openCalls := t.openCalls.map fun calls ↦ calls.filter fun call ↦ !t.isSettled endings call
    routes := t.routes.restrict fun id ↦ !endings.contains id
    keptForks := forks.restrict t.isUnpaired
    keptEndings := endings.restrict t.isUnpaired }

/-- A report that makes delegations: a call or a request. -/
def Report.isStart : Report → Bool
  | .opened _ => true
  | .requested _ => true
  | _ => false

/-- The identifier and the child session of a fork. -/
def Report.fork? : Report → Option (String × String)
  | .forked id child => some (id, child)
  | _ => none

/-- The identifier and the ending of a delegation that ended. -/
def Report.ending? : Report → Option (String × Ending)
  | .finished id e => some (id, e)
  | _ => none

/-- The reports that make delegations. -/
def starts (reports : List Report) : List Report := reports.filter Report.isStart

/-- The child sessions that are reported. -/
def forks (reports : List Report) : List (String × String) := reports.filterMap Report.fork?

/-- The endings that are reported. -/
def endings (reports : List Report) : List (String × Ending) := reports.filterMap Report.ending?

/-! ## A tracker that was told of calls and requests only -/

/-- No child session and no ending is kept. -/
def KeepsNothing (t : Tracker) : Prop := t.keptForks = .empty ∧ t.keptEndings = .empty

/-- What holds of a tracker that was told of calls and requests only, where no identifier was asked
for twice. -/
structure Bare (t : Tracker) : Prop where
  exists_of_mem_stack : ∀ agent c, c ∈ t.stack agent →
    ∃ d, t.groups.get? c = some d ∧ d.agent = agent
  paired_iff : ∀ id c, t.paired.get? id = some c ↔ Carries t.groups id c
  unpaired_of_waiting : ∀ r ∈ waitingIn t.waitingRequests, t.paired.get? r.delegation = none
  unrouted : ∀ id, t.paired.get? id = none → t.routes.get? id = none
  keepsNothing : t.KeepsNothing

variable {t : Tracker} {call id : String} {d : Delegation} {F : Table String} {E : Table Ending}

theorem KeepsNothing.pair_eq (h : t.KeepsNothing) (hd : t.groups.get? call = some d) (r : Request) :
    t.pair call r = t.couple call d r := by
  rw [Tracker.pair_eq hd, h.1, h.2]
  rfl

theorem KeepsNothing.pair (h : t.KeepsNothing) (call : String) (r : Request) :
    (t.pair call r).KeepsNothing := by
  cases hd : t.groups.get? call with
  | none => rwa [Tracker.pair, hd]
  | some d =>
    rw [h.pair_eq hd, KeepsNothing, keptForks_couple, keptEndings_couple, h.1, h.2,
      Table.erase_eq_self rfl, Table.erase_eq_self rfl]
    exact ⟨rfl, rfl⟩

theorem KeepsNothing.step (h : t.KeepsNothing) {r : Report} (hr : r.isStart = true) :
    (t.step r).KeepsNothing := by
  cases r with
  | opened o =>
    rw [Tracker.step, opened_eq]
    split
    · exact h
    · split
      · next r queues _ =>
        have henter : ({ t.enter o with waitingRequests := queues } : Tracker).KeepsNothing := h
        exact henter.pair o.call r
      · exact h
  | requested r =>
    rw [Tracker.step, requested]
    split
    · exact h
    · split
      · next call queues _ =>
        have htake : ({ t with waitingCalls := queues } : Tracker).KeepsNothing := h
        exact htake.pair call r
      · exact h
  | forked _ _ => cases hr
  | finished _ _ => cases hr
  | finishGroup _ _ => cases hr

private theorem keepsNothing_run {reports : List Report} (h : ∀ r ∈ reports, r.isStart = true) :
    (run reports).KeepsNothing := by
  induction reports using List.reverseRecOn with
  | nil => exact ⟨rfl, rfl⟩
  | append_singleton before r ih =>
    rw [run_concat]
    exact (ih fun x hx ↦ h x (List.mem_append_left _ hx)).step
      (h r (List.mem_append_right _ List.mem_cons_self))

theorem Report.allows_of_isStart {r : Report} {allowed : Ending → Prop} (h : r.isStart = true) :
    r.Allows allowed := by
  cases r with
  | opened _ => exact trivial
  | requested _ => exact trivial
  | forked _ _ => cases h
  | finished _ _ => cases h
  | finishGroup _ _ => cases h

private theorem bare_run {reports : List Report} (h : ∀ r ∈ reports, r.isStart = true)
    (hnodup : (requests reports).Nodup) : (run reports).Bare := by
  have hallows : ∀ r ∈ reports, r.Allows (·.status.isTerminal = true) := by
    intro r hr
    exact Report.allows_of_isStart (h r hr)
  obtain ⟨asked, hasked, hreaches⟩ := reaches_run hallows
  -- an identifier that is asked for once has a delegation or waits for one, and not both
  have hcount : ∀ id, ((run reports).bearers id).length + ((run reports).asking id).length ≤ 1 := by
    intro id
    rw [← hreaches.count_asked]
    exact List.nodup_iff_count_le_one.mp (hnodup.sublist hasked) id
  refine ⟨?_, ?_, ?_, ?_, keepsNothing_run h⟩
  · intro agent c hc
    obtain ⟨d, hd, hagent, -⟩ := (hreaches.mem_stack_iff agent c).mp hc
    exact ⟨d, hd, hagent⟩
  · intro id c
    refine ⟨hreaches.carries, fun hc ↦ ?_⟩
    obtain ⟨c', hc'⟩ := hreaches.exists_paired hc
    have hle := hcount id
    rwa [(orderly_run reports).eq_of_carries (by omega) hc (hreaches.carries hc')]
  · intro r hr
    have hasking : 0 < ((run reports).asking r.delegation).length :=
      List.length_pos_of_mem (List.mem_filter.mpr ⟨hr, beq_self_eq_true _⟩)
    have hle := hcount r.delegation
    rw [← Table.contains_eq_false_iff, ← Bool.not_eq_true, ← hreaches.length_bearers_pos_iff]
    omega
  · intro id hunpaired
    refine Option.eq_none_iff_forall_ne_some.mpr fun route hroute ↦ ?_
    obtain ⟨d, hd, -, hid, -⟩ := hreaches.leads hroute
    obtain ⟨c, hc⟩ := hreaches.exists_paired ⟨d, hd, hid⟩
    rw [hunpaired] at hc
    cases hc

/-! ## Settling a delegation -/

private theorem settle_of_unpaired (hnone : d.delegation = none) : d.settle F E = d := by
  rw [Delegation.settle]
  split
  · rfl
  · next id hid => rw [hnone] at hid; cases hid

private theorem settle_of_unreported (hid : d.delegation = some id) (hF : F.get? id = none)
    (hE : E.get? id = none) : d.settle F E = d := by
  rw [Delegation.settle]
  split
  · rfl
  · next id' hid' =>
    obtain rfl := Option.some.inj (hid.symm.trans hid')
    rw [hF, hE]
    rfl

/-- A child session and an ending for another identifier change nothing. -/
theorem settle_congr {F' : Table String} {E' : Table Ending}
    (h : ∀ id, d.delegation = some id → F'.get? id = F.get? id ∧ E'.get? id = E.get? id) :
    d.settle F' E' = d.settle F E := by
  rw [Delegation.settle, Delegation.settle]
  split
  · rfl
  · next id hid => rw [(h id hid).1, (h id hid).2]

private theorem settle_insert_fork (hid : d.delegation = some id) (child : String) :
    d.settle (F.insert id child) E = { d.settle F E with child := some child } := by
  simp only [Delegation.settle, hid, Table.get?_insert_self, Option.some_or]
  split
  · rw [Delegation.finish, Delegation.finish]
    split <;> rfl
  · rfl

private theorem settle_insert_ending (hid : d.delegation = some id) (hnone : E.get? id = none)
    (e : Ending) :
    d.settle F (E.insert id e) = (d.settle F E).finish e := by
  simp only [Delegation.settle, hid, Table.get?_insert_self, hnone]

private theorem delegation_settle (d : Delegation) : (d.settle F E).delegation = d.delegation := by
  rw [Delegation.settle]
  split
  · rfl
  · dsimp only
    split
    · exact (Delegation.advances_finish _ _).delegation_eq
    · rfl

private theorem agent_settle (d : Delegation) : (d.settle F E).agent = d.agent := by
  rw [Delegation.settle]
  split
  · rfl
  · dsimp only
    split
    · exact (Delegation.advances_finish _ _).agent_eq
    · rfl

/-! ## Settling a tracker -/

section Settle

variable {F' : Table String} {E' : Table Ending} {c : String}

theorem get?_groups_settle (t : Tracker) (F : Table String) (E : Table Ending) (c : String) :
    (t.settle F E).groups.get? c = (t.groups.get? c).map fun d ↦ d.settle F E :=
  Table.get?_map _ _ _

theorem get?_openCalls_settle (t : Tracker) (F : Table String) (E : Table Ending) (agent : String) :
    (t.settle F E).openCalls.get? agent
      = (t.openCalls.get? agent).map fun calls ↦ calls.filter fun c ↦ !t.isSettled E c :=
  Table.get?_map _ _ _

theorem map_settle_congr
    (h : ∀ id, Carries t.groups id c → F'.get? id = F.get? id ∧ E'.get? id = E.get? id) :
    (t.groups.get? c).map (fun d ↦ d.settle F' E') = (t.groups.get? c).map fun d ↦ d.settle F E :=
  Option.map_congr fun d hd ↦ settle_congr fun id hid ↦ h id ⟨d, hd, hid⟩

theorem groups_settle_congr
    (h : ∀ id c, Carries t.groups id c → F'.get? id = F.get? id ∧ E'.get? id = E.get? id) :
    (t.settle F' E').groups = (t.settle F E).groups := by
  refine Table.ext_get? fun c ↦ ?_
  rw [get?_groups_settle, get?_groups_settle]
  exact map_settle_congr fun id hc ↦ h id c hc

/-- What is reported for the identifier of one delegation settles that delegation only. -/
theorem groups_settle_eq_insert (hd : t.groups.get? call = some d)
    (h : ∀ id c, c ≠ call → Carries t.groups id c →
      F'.get? id = F.get? id ∧ E'.get? id = E.get? id) :
    (t.settle F' E').groups = (t.settle F E).groups.insert call (d.settle F' E') := by
  refine Table.ext_get? fun c ↦ ?_
  rw [Table.get?_insert, get?_groups_settle, get?_groups_settle]
  split
  · next hc => rw [hc, hd, Option.map_some]
  · next hc => exact map_settle_congr fun id hcarries ↦ h id c hc hcarries

theorem isSettled_congr (h : ∀ id, Carries t.groups id c → E'.contains id = E.contains id) :
    t.isSettled E' c = t.isSettled E c := by
  rw [isSettled, isSettled]
  cases hid : (t.groups.get? c).bind Delegation.delegation with
  | none => rfl
  | some id =>
    rw [Option.any_some, Option.any_some]
    exact h id (Option.bind_eq_some_iff.mp hid)

private theorem isSettled_of_carries (h : Carries t.groups id c) :
    t.isSettled E c = E.contains id := by
  obtain ⟨d, hd, hid⟩ := h
  rw [isSettled, hd, Option.bind_some, hid, Option.any_some]

theorem Bare.not_carries (h : t.Bare) (hunpaired : t.paired.get? id = none) :
    ¬ Carries t.groups id c := by
  intro hc
  rw [(h.paired_iff id c).mpr hc] at hunpaired
  cases hunpaired

theorem Bare.ne_of_carries_of_unpaired (h : t.Bare) (hunpaired : t.paired.get? id = none)
    {id' : String} (hc : Carries t.groups id' c) : id' ≠ id := by
  rintro rfl
  exact h.not_carries hunpaired hc

theorem Bare.ne_of_carries (h : t.Bare) (hpaired : t.paired.get? id = some call) (hne : c ≠ call)
    {id' : String} (hc : Carries t.groups id' c) : id' ≠ id := by
  rintro rfl
  rw [(h.paired_iff id' c).mpr hc, Option.some_inj] at hpaired
  exact hne hpaired

/-- **A child session** can be reported before or after a tracker is settled. -/
theorem Bare.settle_forked (h : t.Bare) (id child : String) :
    (t.settle F E).forked id child = t.settle (F.insert id child) E := by
  have hsame : (t.settle F E).paired = t.paired := rfl
  rw [forked, hsame]
  split
  · next call hpaired =>
    have hcontains : t.isUnpaired id = false := by simp [isUnpaired, Table.contains, hpaired]
    obtain ⟨d, hd, hid⟩ := (h.paired_iff id call).mp hpaired
    have hget : (t.settle F E).groups.get? call = some (d.settle F E) := by
      rw [get?_groups_settle, hd, Option.map_some]
    have hgroups : (t.settle (F.insert id child) E).groups
        = (t.settle F E).groups.insert call (d.settle (F.insert id child) E) :=
      groups_settle_eq_insert hd fun id' c hc hc' ↦
        ⟨Table.get?_insert_of_ne _ _ (h.ne_of_carries hpaired hc hc'), rfl⟩
    refine Tracker.ext ?_ rfl rfl rfl rfl rfl ?_ rfl rfl
    · rw [hgroups, settle_insert_fork hid, attachChild, Table.modify, hget]
    · exact (Table.restrict_insert_of_eq_false F hcontains child).symm
  · next hunpaired =>
    -- no delegation has the identifier, so the child session is only kept
    have hcontains : t.isUnpaired id = true := by simp [isUnpaired, Table.contains, hunpaired]
    have hgroups : (t.settle (F.insert id child) E).groups = (t.settle F E).groups :=
      groups_settle_congr fun id' c hc ↦
        ⟨Table.get?_insert_of_ne _ _ (h.ne_of_carries_of_unpaired hunpaired hc), rfl⟩
    exact Tracker.ext hgroups.symm rfl rfl rfl rfl rfl
      (Table.restrict_insert F hcontains child).symm rfl rfl

theorem Bare.isSettled_insert (h : t.Bare) (hpaired : t.paired.get? id = some call) (e : Ending)
    (c : String) : t.isSettled (E.insert id e) c = (c == call || t.isSettled E c) := by
  by_cases hc : c = call
  · rw [hc, isSettled_of_carries ((h.paired_iff id call).mp hpaired), beq_self_eq_true,
      Bool.true_or, Table.contains, Table.get?_insert_self, Option.isSome_some]
  · rw [beq_false_of_ne hc, Bool.false_or]
    exact isSettled_congr fun id' hc' ↦
      Table.contains_insert_of_ne _ _ (h.ne_of_carries hpaired hc hc')

/-- One more ending takes one more call from the stack of its agent, and it stands on no other. -/
theorem Bare.openCalls_settle_insert (h : t.Bare) (hpaired : t.paired.get? id = some call)
    (hd : t.groups.get? call = some d) (F : Table String) (e : Ending) :
    (t.settle F E).openCalls.modify d.agent (fun calls ↦ calls.filter (· != call))
      = (t.settle F (E.insert id e)).openCalls := by
  refine Table.ext_get? fun agent ↦ ?_
  simp only [settle, Table.get?_modify, Table.get?_map, h.isSettled_insert hpaired]
  split
  · next hagent =>
    rw [hagent, Option.map_map]
    refine Option.map_congr fun calls _ ↦ ?_
    rw [Function.comp_apply, List.filter_filter]
    refine List.filter_congr fun c _ ↦ ?_
    rw [Bool.not_or, bne]
  · next hagent =>
    -- another agent's stack: the call is not on it, so leaving it out changes nothing
    refine Option.map_congr fun calls hcalls ↦ List.filter_congr fun c hc ↦ ?_
    have hstack : t.stack agent = calls := by rw [stack, hcalls, Option.getD_some]
    obtain ⟨d', hd', hagent'⟩ := h.exists_of_mem_stack agent c (hstack ▸ hc)
    have hne : c ≠ call := by
      rintro rfl
      rw [hd, Option.some_inj] at hd'
      exact hagent (hd' ▸ hagent'.symm)
    rw [beq_false_of_ne hne, Bool.false_or]

/-- **An ending** can be reported before or after a tracker is settled, unless one was reported. -/
theorem Bare.settle_finished (h : t.Bare) (hnone : E.get? id = none) (e : Ending) :
    (t.settle F E).finished id e = t.settle F (E.insert id e) := by
  have hsame : (t.settle F E).paired = t.paired := rfl
  rw [finished, hsame]
  split
  · next call hpaired =>
    have hcontains : t.isUnpaired id = false := by simp [isUnpaired, Table.contains, hpaired]
    obtain ⟨d, hd, hid⟩ := (h.paired_iff id call).mp hpaired
    have hget : (t.settle F E).groups.get? call = some (d.settle F E) := by
      rw [get?_groups_settle, hd, Option.map_some]
    have hgroups : (t.settle F (E.insert id e)).groups
        = (t.settle F E).groups.insert call (d.settle F (E.insert id e)) :=
      groups_settle_eq_insert hd fun id' c hc hc' ↦
        ⟨rfl, Table.get?_insert_of_ne _ _ (h.ne_of_carries hpaired hc hc')⟩
    rw [settle_insert_ending hid hnone] at hgroups
    rw [finishGroup, hget]
    dsimp only
    rw [delegation_settle, agent_settle, hid]
    exact Tracker.ext hgroups.symm (h.openCalls_settle_insert hpaired hd F e) rfl rfl rfl
      (Table.erase_restrict t.routes E id e) rfl
      (Table.restrict_insert_of_eq_false E hcontains e).symm rfl
  · next hunpaired =>
    -- no delegation has the identifier, and so no call and no route is settled with the ending
    have hcontains : t.isUnpaired id = true := by simp [isUnpaired, Table.contains, hunpaired]
    have hgroups : (t.settle F (E.insert id e)).groups = (t.settle F E).groups :=
      groups_settle_congr fun id' c hc ↦
        ⟨rfl, Table.get?_insert_of_ne _ _ (h.ne_of_carries_of_unpaired hunpaired hc)⟩
    have hsettled : t.isSettled (E.insert id e) = t.isSettled E := funext fun c ↦
      isSettled_congr fun id' hc ↦
        Table.contains_insert_of_ne _ _ (h.ne_of_carries_of_unpaired hunpaired hc)
    have hcalls : (t.settle F (E.insert id e)).openCalls = (t.settle F E).openCalls := by
      rw [settle, settle, hsettled]
    have hunrouted : (t.settle F E).routes.get? id = none := by
      rw [settle, Table.get?_restrict, h.unrouted id hunpaired, ite_self]
    have hroutes : (t.settle F (E.insert id e)).routes = (t.settle F E).routes :=
      (Table.erase_restrict t.routes E id e).symm.trans (Table.erase_eq_self hunrouted)
    exact Tracker.ext hgroups.symm hcalls.symm rfl rfl rfl hroutes.symm rfl
      (Table.restrict_insert E hcontains e).symm rfl

/-! ## Calls and requests -/

private theorem stack_settle (t : Tracker) (F : Table String) (E : Table Ending) (agent : String) :
    (t.settle F E).stack agent = (t.stack agent).filter fun c ↦ !t.isSettled E c := by
  rw [stack, get?_openCalls_settle, stack]
  cases t.openCalls.get? agent <;> rfl

private theorem isSettled_enter {o : Opening} (hnew : t.groups.get? o.call = none) :
    (t.enter o).isSettled E = t.isSettled E := by
  funext c
  rw [isSettled, isSettled, enter, Table.get?_insert]
  split
  · next hc => rw [hc, hnew]; rfl
  · rfl

private theorem settle_enter {o : Opening} (hnew : t.groups.get? o.call = none) :
    (t.settle F E).enter o = (t.enter o).settle F E := by
  refine Tracker.ext ?_ ?_ rfl rfl rfl rfl rfl rfl rfl
  · refine Table.ext_get? fun c ↦ ?_
    rw [enter, Table.get?_insert, get?_groups_settle, get?_groups_settle, enter, Table.get?_insert]
    split <;> rfl
  · refine Table.ext_get? fun agent ↦ ?_
    have hcall : t.isSettled E o.call = false := by rw [isSettled, hnew]; rfl
    rw [get?_openCalls_settle, isSettled_enter hnew, enter, enter, Table.get?_insert,
      Table.get?_insert, get?_openCalls_settle, stack_settle]
    split
    · rw [Option.map_some, List.filter_cons_of_pos (by rw [hcall]; rfl)]
    · rfl

private theorem isSettled_couple {r : Request} (hd : t.groups.get? call = some d)
    (hnone : d.delegation = none) (hother : ∀ c, ¬ Carries t.groups r.delegation c) :
    (t.couple call d r).isSettled (E.erase r.delegation) = t.isSettled E := by
  funext c
  rw [isSettled, groups_couple, Table.get?_insert]
  split
  · next hc =>
    rw [isSettled, hc, hd, Option.bind_some, Option.bind_some, hnone, Option.any_none]
    exact Table.contains_erase_self E r.delegation
  · refine isSettled_congr fun id hc ↦ Table.contains_erase_of_ne _ ?_
    rintro rfl
    exact hother c hc

private theorem erase_restrict_isUnpaired {α : Type} (T : Table α) (r : Request) :
    (T.restrict t.isUnpaired).erase r.delegation
      = (T.erase r.delegation).restrict (t.couple call d r).isUnpaired := by
  refine Table.ext_get? fun j ↦ ?_
  rw [Table.get?_erase, Table.get?_restrict, Table.get?_restrict, Table.get?_erase, isUnpaired,
    isUnpaired, paired_couple]
  split
  · rw [ite_self]
  · next hj => rw [Table.contains_insert_of_ne _ _ hj]

/-- A pairing can be made before or after a tracker is settled with what is reported for other
identifiers. -/
theorem settle_couple {r : Request} (hd : t.groups.get? call = some d) (hnone : d.delegation = none)
    (hother : ∀ c, ¬ Carries t.groups r.delegation c)
    (hunrouted : t.routes.get? r.delegation = none) :
    (t.settle F E).couple call d r
      = (t.couple call d r).settle (F.erase r.delegation) (E.erase r.delegation) := by
  have hgroups : ((t.settle F E).couple call d r).groups
      = ((t.couple call d r).settle (F.erase r.delegation) (E.erase r.delegation)).groups := by
    refine Table.ext_get? fun c ↦ ?_
    rw [groups_couple, get?_groups_settle, groups_couple, Table.get?_insert, Table.get?_insert]
    split
    · -- the paired delegation: nothing is reported for its identifier yet
      have hpair : (d.pair r).delegation = some r.delegation := rfl
      rw [Option.map_some, settle_of_unreported hpair] <;> rw [Table.get?_erase, if_pos rfl]
    · rw [get?_groups_settle]
      refine (map_settle_congr fun id hc ↦ ?_).symm
      have hne : id ≠ r.delegation := by
        rintro rfl
        exact hother c hc
      exact ⟨Table.get?_erase_of_ne _ hne, Table.get?_erase_of_ne _ hne⟩
  have hcalls : ((t.settle F E).couple call d r).openCalls
      = ((t.couple call d r).settle (F.erase r.delegation) (E.erase r.delegation)).openCalls := by
    refine Table.ext_get? fun agent ↦ ?_
    rw [openCalls_couple, get?_openCalls_settle, get?_openCalls_settle, openCalls_couple,
      isSettled_couple hd hnone hother]
  have hroutes : ((t.settle F E).couple call d r).routes
      = ((t.couple call d r).settle (F.erase r.delegation) (E.erase r.delegation)).routes := by
    rw [settle, couple, couple, activate, activate]
    dsimp only
    split
    · exact Table.insert_restrict _ E _ _
    · exact Table.restrict_erase hunrouted E
  have hranks : ((t.settle F E).couple call d r).ranks = (t.couple call d r).ranks := by
    rw [settle, couple, couple, activate, activate]
    dsimp only
    split <;> rfl
  exact Tracker.ext hgroups hcalls
    ((waitingCalls_couple _ _ _ _).trans (waitingCalls_couple t call d r).symm)
    ((waitingRequests_couple _ _ _ _).trans (waitingRequests_couple t call d r).symm)
    ((paired_couple _ _ _ _).trans (paired_couple t call d r).symm) hroutes
    ((keptForks_couple _ _ _ _).trans (erase_restrict_isUnpaired F r))
    ((keptEndings_couple _ _ _ _).trans (erase_restrict_isUnpaired E r)) hranks

private theorem forked_of_paired (h : t.paired.get? id = some call) (child : String) :
    t.forked id child = t.attachChild call child := by
  rw [forked, h]

private theorem finished_of_paired (h : t.paired.get? id = some call) (e : Ending) :
    t.finished id e = t.finishGroup call e := by
  rw [finished, h]

/-- A pairing can be made before or after a tracker is settled: what was kept for the identifier is
what would have been reported after. -/
theorem settle_pair {r : Request} (hkeeps : t.KeepsNothing) (hd : t.groups.get? call = some d)
    (hnone : d.delegation = none) (hother : ∀ c, ¬ Carries t.groups r.delegation c)
    (hunpaired : t.paired.get? r.delegation = none)
    (hunrouted : t.routes.get? r.delegation = none) (hbare : (t.pair call r).Bare) :
    (t.settle F E).pair call r = (t.pair call r).settle F E := by
  have hget : (t.settle F E).groups.get? call = some d := by
    rw [get?_groups_settle, hd, Option.map_some, settle_of_unpaired hnone]
  have hcontains : t.isUnpaired r.delegation = true := by
    simp [isUnpaired, Table.contains, hunpaired]
  have hfork : (t.settle F E).keptForks.get? r.delegation = F.get? r.delegation := by
    rw [settle, Table.get?_restrict, if_pos hcontains]
  have hending : (t.settle F E).keptEndings.get? r.delegation = E.get? r.delegation := by
    rw [settle, Table.get?_restrict, if_pos hcontains]
  rw [Tracker.pair_eq hget, hfork, hending, settle_couple hd hnone hother hunrouted]
  rw [hkeeps.pair_eq hd] at hbare ⊢
  have hpaired : ∀ F E, ((t.couple call d r).settle F E).paired.get? r.delegation = some call := by
    intro F E
    rw [settle, paired_couple, Table.get?_insert_self]
  have hattach : ((t.couple call d r).settle (F.erase r.delegation)
      (E.erase r.delegation)).attachAny call (F.get? r.delegation)
      = (t.couple call d r).settle F (E.erase r.delegation) := by
    cases hF : F.get? r.delegation with
    | none => rw [Table.erase_eq_self hF, attachAny]
    | some child =>
      rw [attachAny, ← forked_of_paired (hpaired _ _), hbare.settle_forked, Table.insert_erase hF]
  rw [hattach]
  cases hE : E.get? r.delegation with
  | none => rw [Table.erase_eq_self hE, finishAny]
  | some e =>
    have hnew : (E.erase r.delegation).get? r.delegation = none := by
      rw [Table.get?_erase, if_pos rfl]
    rw [finishAny, ← finished_of_paired (hpaired _ _), hbare.settle_finished hnew,
      Table.insert_erase hE]

/-- **A call** can come before or after a tracker is settled. -/
theorem Bare.settle_opened (h : t.Bare) (o : Opening) (hnext : (t.opened o).Bare) :
    (t.settle F E).opened o = (t.opened o).settle F E := by
  have hcontains : (t.settle F E).groups.contains o.call = t.groups.contains o.call := by
    rw [Table.contains, get?_groups_settle, Option.isSome_map, Table.contains]
  have hqueues : (t.settle F E).waitingRequests = t.waitingRequests := rfl
  rw [opened_eq] at hnext
  rw [opened_eq, opened_eq, hcontains, hqueues]
  cases hold : t.groups.contains o.call with
  | true => rfl
  | false =>
    rw [hold, if_neg Bool.false_ne_true] at hnext
    rw [if_neg Bool.false_ne_true, if_neg Bool.false_ne_true,
      settle_enter (Table.contains_eq_false_iff.mp hold)]
    cases htake : takeFor? t.waitingRequests (queueKey o.target) with
    | none => rfl
    | some taken =>
      obtain ⟨r, queues⟩ := taken
      rw [htake] at hnext
      have hunpaired := h.unpaired_of_waiting r
        ((perm_waitingIn_of_takeFor? htake).mem_iff.mpr List.mem_cons_self)
      exact settle_pair (t := { t.enter o with waitingRequests := queues }) h.keepsNothing
        (Table.get?_insert_self _ _ _) rfl (fun _ hc ↦ h.not_carries hunpaired hc.of_enter)
        hunpaired (h.unrouted _ hunpaired) hnext

/-- **A request** can come before or after a tracker is settled. -/
theorem Bare.settle_requested (h : t.Bare) (ht : t.Orderly) (r : Request)
    (hnext : (t.requested r).Bare) :
    (t.settle F E).requested r = (t.requested r).settle F E := by
  have hpaired : (t.settle F E).paired = t.paired := rfl
  have hqueues : (t.settle F E).waitingCalls = t.waitingCalls := rfl
  rw [requested] at hnext
  rw [requested, requested, hpaired, hqueues]
  cases hold : t.paired.contains r.delegation with
  | true => rfl
  | false =>
    rw [hold, if_neg Bool.false_ne_true] at hnext
    rw [if_neg Bool.false_ne_true, if_neg Bool.false_ne_true]
    cases htake : takeFor? t.waitingCalls (queueKey r.target) with
    | none => rfl
    | some taken =>
      obtain ⟨call, queues⟩ := taken
      rw [htake] at hnext
      have hunpaired := Table.contains_eq_false_iff.mp hold
      obtain ⟨d, hd, hnone⟩ := (ht.orderlyBut_take htake).unpaired
      exact settle_pair (t := { t with waitingCalls := queues }) h.keepsNothing hd hnone
        (fun _ ↦ h.not_carries hunpaired) hunpaired (h.unrouted _ hunpaired) hnext

end Settle

/-! ## Runs -/

private theorem isStart_of_mem_starts {reports : List Report} :
    ∀ r ∈ starts reports, r.isStart = true :=
  fun _ hr ↦ (List.mem_filter.mp hr).2

private theorem bare_run_starts {reports : List Report} (h : (requests reports).Nodup) :
    (run (starts reports)).Bare :=
  bare_run isStart_of_mem_starts (h.sublist (List.filter_sublist.filterMap _))

private theorem starts_append (before after : List Report) :
    starts (before ++ after) = starts before ++ starts after := List.filter_append _ _

theorem requests_append (before after : List Report) :
    requests (before ++ after) = requests before ++ requests after := List.filterMap_append

private theorem forks_append (before after : List Report) :
    forks (before ++ after) = forks before ++ forks after := List.filterMap_append

theorem endings_append (before after : List Report) :
    endings (before ++ after) = endings before ++ endings after := List.filterMap_append

/-- **What a run comes to.** It is the run of its calls and requests alone, settled with all child
sessions and endings. -/
theorem run_eq_settle {reports : List Report} (hgroup : ∀ call e, .finishGroup call e ∉ reports)
    (hrequests : (requests reports).Nodup) (hendings : ((endings reports).map Prod.fst).Nodup) :
    run reports = (run (starts reports)).settle (.ofList (forks reports))
      (.ofList (endings reports)) := by
  induction reports using List.reverseRecOn with
  | nil => rfl
  | append_singleton before r ih =>
    have hnext := bare_run_starts hrequests
    rw [endings_append, List.map_append, List.nodup_append] at hendings
    rw [requests_append, List.nodup_append] at hrequests
    have hbare := bare_run_starts hrequests.1
    rw [starts_append] at hnext
    rw [run_concat, ih (fun call e hmem ↦ hgroup call e (List.mem_append_left _ hmem)) hrequests.1
      hendings.1, starts_append, forks_append, endings_append]
    cases r with
    | opened o =>
      change (run (starts before ++ [.opened o])).Bare at hnext
      change (Tracker.settle _ _ _).opened o
        = (run (starts before ++ [.opened o])).settle (.ofList (_ ++ [])) (.ofList (_ ++ []))
      rw [run_concat] at hnext ⊢
      rw [List.append_nil, List.append_nil]
      exact hbare.settle_opened o hnext
    | requested r =>
      change (run (starts before ++ [.requested r])).Bare at hnext
      change (Tracker.settle _ _ _).requested r
        = (run (starts before ++ [.requested r])).settle (.ofList (_ ++ [])) (.ofList (_ ++ []))
      rw [run_concat] at hnext ⊢
      rw [List.append_nil, List.append_nil]
      exact hbare.settle_requested (orderly_run _) r hnext
    | forked id child =>
      change (Tracker.settle _ _ _).forked id child
        = (run (_ ++ [])).settle (.ofList (_ ++ [(id, child)])) (.ofList (_ ++ []))
      rw [List.append_nil, List.append_nil, Table.ofList_concat]
      exact hbare.settle_forked id child
    | finished id e =>
      change (Tracker.settle _ _ _).finished id e
        = (run (_ ++ [])).settle (.ofList (_ ++ [])) (.ofList (_ ++ [(id, e)]))
      rw [List.append_nil, List.append_nil, Table.ofList_concat]
      refine hbare.settle_finished (Table.get?_ofList_eq_none fun hmem ↦ ?_) e
      exact hendings.2.2 id hmem id List.mem_cons_self rfl
    | finishGroup call e =>
      exact absurd (List.mem_append_right _ List.mem_cons_self) (hgroup call e)

/-- **Early and late.** Where no identifier is asked for twice, forked twice or ended twice, child
sessions and endings may be reported anywhere among the calls and requests. -/
theorem run_eq_of_perm {reports reports' : List Report} (hperm : reports.Perm reports')
    (hstarts : starts reports = starts reports') (hgroup : ∀ call e, .finishGroup call e ∉ reports)
    (hrequests : (requests reports).Nodup) (hforks : ((forks reports).map Prod.fst).Nodup)
    (hendings : ((endings reports).map Prod.fst).Nodup) : run reports = run reports' := by
  have hgroup' : ∀ call e, .finishGroup call e ∉ reports' := fun call e ↦
    mt hperm.mem_iff.mpr (hgroup call e)
  have hrequests' : (requests reports').Nodup := (hperm.filterMap _).nodup_iff.mp hrequests
  have hendings' : ((endings reports').map Prod.fst).Nodup :=
    ((hperm.filterMap _).map _).nodup_iff.mp hendings
  calc run reports
    _ = (run (starts reports)).settle (.ofList (forks reports)) (.ofList (endings reports)) :=
        run_eq_settle hgroup hrequests hendings
    _ = (run (starts reports')).settle (.ofList (forks reports')) (.ofList (endings reports')) := by
        rw [hstarts, Table.ofList_eq_of_perm hforks (hperm.filterMap _),
          Table.ofList_eq_of_perm hendings (hperm.filterMap _)]
        rfl
    _ = run reports' := (run_eq_settle hgroup' hrequests' hendings').symm

/-- A call and its request, a child session and an ending, in their usual order. -/
def reportedInTurn : List Report := [
  .opened ⟨"tc1", "main", some "worker", none, 0, ⟨1000⟩⟩,
  .requested ⟨"d1", some "worker", none⟩,
  .forked "d1" "s2",
  .opened ⟨"tc2", "worker", none, none, 1, ⟨2000⟩⟩,
  .finished "d1" ⟨.completed, ⟨3000⟩, some "done"⟩]

/-- The same with the ending first and the child session last. -/
def reportedOutOfTurn : List Report := [
  .finished "d1" ⟨.completed, ⟨3000⟩, some "done"⟩,
  .opened ⟨"tc1", "main", some "worker", none, 0, ⟨1000⟩⟩,
  .requested ⟨"d1", some "worker", none⟩,
  .opened ⟨"tc2", "worker", none, none, 1, ⟨2000⟩⟩,
  .forked "d1" "s2"]

theorem run_reportedOutOfTurn :
    reportedInTurn.Perm reportedOutOfTurn ∧ starts reportedInTurn = starts reportedOutOfTurn ∧
      run reportedInTurn = run reportedOutOfTurn ∧
      ((run reportedOutOfTurn).groups.get? "tc1").map (fun d ↦ (d.child, d.status))
        = some (some "s2", .completed) := by
  have hperm : reportedInTurn.Perm reportedOutOfTurn := by decide
  have hstarts : starts reportedInTurn = starts reportedOutOfTurn := by decide
  have hgroup : ∀ call e, .finishGroup call e ∉ reportedInTurn := by simp [reportedInTurn]
  exact ⟨hperm, hstarts,
    run_eq_of_perm hperm hstarts hgroup (by decide) (by decide) (by decide), by decide⟩

end Tracker

end SessionReplay
