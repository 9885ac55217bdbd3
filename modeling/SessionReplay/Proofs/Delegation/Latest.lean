import SessionReplay.Proofs.Delegation.Parts
import SessionReplay.Proofs.Delegation.Routing

/-!
# The delegation paired last

Several delegations in progress may have one target, and its agent is sent to the one that was
paired last; when that ends, to the one that was paired last among the others:
`Tracker.routesToLatest_run`.

## Why the latest route is looked for first

The tracker takes the route with the greatest rank and looks afterwards whether the delegation is
still in progress. An older route could be the right one then, and be missed. This never happens:
the route of a delegation leaves with its end, `Tracker.Reaches.leads`, so what is found is in
progress. The other half is that no delegation in progress lacks its route, `Tracker.Routed`. Routes
are held by identifiers, so this half needs that no identifier is given twice.

## Ranks and time

Ranks are the tracker's own count, and what they stand for is an order in time. `Tracker.Ranked`
joins the two: of two routes, the one with the lower rank leads to the call that was paired when the
other was not.
-/

namespace SessionReplay

/-! ## The latest route -/

namespace Route

variable {routes : List Route} {r best : Route}

theorem latest?_concat (routes : List Route) (r : Route) :
    latest? (routes ++ [r]) = match latest? routes with
      | some b => if b.rank < r.rank then some r else some b
      | none => some r :=
  List.foldl_concat _ _ _ _

/-- The latest route has the greatest rank, and there is one if there are routes. -/
theorem exists_latest? (h : r ∈ routes) :
    ∃ best, latest? routes = some best ∧ r.rank ≤ best.rank := by
  induction routes using List.reverseRecOn with
  | nil => cases h
  | append_singleton before x ih =>
    rw [latest?_concat]
    rcases List.mem_append.mp h with hr | hr
    · obtain ⟨best, hbest, hle⟩ := ih hr
      rw [hbest]
      dsimp only
      split
      · next hlt => exact ⟨x, rfl, Nat.le_trans hle (Nat.le_of_lt hlt)⟩
      · exact ⟨best, rfl, hle⟩
    · obtain rfl := List.mem_singleton.mp hr
      cases latest? before with
      | none => exact ⟨r, rfl, Nat.le_refl _⟩
      | some best =>
        dsimp only
        split
        · exact ⟨r, rfl, Nat.le_refl _⟩
        · next hle => exact ⟨best, rfl, Nat.le_of_not_lt hle⟩

end Route

namespace Tracker

variable {allowed : Ending → Prop} {cs asked : List String} {t : Tracker} {reports : List Report}
  {call c c' id agent target : String} {d : Delegation} {route : Route}

/-! ## Every delegation in progress has its route -/

/-- Every delegation in progress that is paired and has a target has its route. -/
def Routed (t : Tracker) : Prop :=
  ∀ call d id target, t.groups.get? call = some d → d.isInProgress = true →
    d.delegation = some id → d.target = some target →
    ∃ rank, t.routes.get? id = some ⟨target, call, rank⟩

/-- A new call has no identifier, and needs no route. -/
theorem Routed.enter (h : t.Routed) (o : Opening) : (t.enter o).Routed := by
  intro call d id target hd hprogress hid htarget
  dsimp only [Tracker.enter] at hd
  rw [Table.get?_insert] at hd
  split at hd
  · obtain rfl := Option.some.inj hd
    cases hid
  · exact h call d id target hd hprogress hid htarget

/-- A pairing makes the route of its call. It takes no other away if the identifier is new. -/
theorem Routed.couple {r : Request} (h : t.Routed)
    (hfree : ∀ c, ¬ Carries t.groups r.delegation c) (call : String) (d : Delegation) :
    (t.couple call d r).Routed := by
  intro c d' id target hd' hprogress hid htarget
  rw [groups_couple, Table.get?_insert] at hd'
  split at hd'
  · next hcall =>
    obtain rfl := Option.some.inj hd'
    obtain rfl := Option.some.inj hid
    have hprogress' : (d.pair r).isInProgress = true := hprogress
    rw [Tracker.couple, activate, hprogress', htarget, hcall]
    exact ⟨_, Table.get?_insert_self _ _ _⟩
  · have hne : id ≠ r.delegation := by
      rintro rfl
      exact hfree c ⟨d', hd', hid⟩
    have hroutes : (t.couple call d r).routes.get? id = t.routes.get? id := by
      rw [Tracker.couple, activate]
      split
      · exact Table.get?_insert_of_ne _ _ hne
      · rfl
    rw [hroutes]
    exact h c d' id target hd' hprogress hid htarget

theorem Routed.attachChild (h : t.Routed) (call child : String) :
    (t.attachChild call child).Routed := by
  intro c d id target hd hprogress hid htarget
  rw [Tracker.attachChild, Table.get?_modify] at hd
  split at hd
  · next hcall =>
    obtain ⟨d₀, hd₀, rfl⟩ := Option.map_eq_some_iff.mp hd
    rw [← hcall] at hd₀
    exact h c d₀ id target hd₀ hprogress hid htarget
  · exact h c d id target hd hprogress hid htarget

/-- A delegation that ends takes its own route away, if no other has its identifier. -/
theorem Routed.finishGroup {e : Ending} (h : t.Routed) (he : e.status.isTerminal = true)
    (hone : ∀ id c c', Carries t.groups id c → Carries t.groups id c' → c = c') (call : String) :
    (t.finishGroup call e).Routed := by
  intro c d id target hd hprogress hid htarget
  rw [get?_groups_finishGroup] at hd
  split at hd
  · -- what has just ended is not in progress
    obtain ⟨d₀, -, rfl⟩ := Option.map_eq_some_iff.mp hd
    rw [isInProgress_finish he] at hprogress
    cases hprogress
  · next hne =>
    have hroutes : (t.finishGroup call e).routes.get? id = t.routes.get? id := by
      rw [Tracker.finishGroup]
      split
      · rfl
      · next d' hd' =>
        dsimp only
        split
        · next id' hid' =>
          refine Table.get?_erase_of_ne _ ?_
          rintro rfl
          exact hne (hone id c call ⟨d, hd, hid⟩ ⟨d', hd', hid'⟩)
        · rfl
    rw [hroutes]
    exact h c d id target hd hprogress hid htarget

/-- Where no identifier is asked for twice, it is that of one call. -/
theorem Reaches.eq_of_carries (h : Reaches allowed cs asked t) (hasked : asked.Nodup)
    (hc : Carries t.groups id c) (hc' : Carries t.groups id c') : c = c' := by
  by_contra hne
  obtain ⟨d, hd, hid⟩ := hc
  -- with the identifier taken from the first, it stands with the second still
  have hperm := perm_carried_insert hd { d with delegation := none }
  rw [hid] at hperm
  have hcarried := (List.nodup_append.mp (h.perm_asked.nodup_iff.mpr hasked)).1
  refine (List.nodup_cons.mp (hperm.nodup_iff.mpr hcarried)).1 (mem_carried_iff.mpr ⟨c', ?_⟩)
  exact carries_insert_iff.mpr (Or.inr ⟨Ne.symm hne, hc'⟩)

/-- A request for the identifier of a delegation does not wait. -/
theorem Reaches.not_carries_of_takeFor? (h : Reaches allowed cs asked t) (hasked : asked.Nodup)
    {key : String} {r : Request} {queues : Table (List Request)}
    (htake : takeFor? t.waitingRequests key = some (r, queues)) (c : String) :
    ¬ Carries t.groups r.delegation c := by
  intro hc
  have hwaits : r.delegation ∈ wanted t.waitingRequests :=
    (perm_wanted_of_takeFor? htake).mem_iff.mpr List.mem_cons_self
  have hnodup := List.nodup_append.mp (h.perm_asked.nodup_iff.mpr hasked)
  exact hnodup.2.2 _ (mem_carried_iff.mpr ⟨c, hc⟩) _ hwaits rfl

/-- **Every delegation in progress** has its route, where endings are final and no identifier is
asked for twice. -/
theorem Reaches.routed (h : Reaches (·.status.isTerminal = true) cs asked t)
    (hasked : asked.Nodup) : t.Routed := by
  induction h with
  | start => exact fun _ _ _ _ h ↦ by cases h
  | wait o _ _ _ ih => exact (ih hasked).enter o
  | @meet _ _ t o r queues hreaches _ htake ih =>
    have hentered : Routed { t.enter o with waitingRequests := queues } := (ih hasked).enter o
    exact hentered.couple (fun c hc ↦
      hreaches.not_carries_of_takeFor? hasked htake c hc.of_enter) o.call o.delegation
  | ask _ _ _ _ ih => exact ih (List.nodup_append.mp hasked).1
  | @answer _ _ t r call queues d hreaches hunpaired _ _ _ ih =>
    have htaken : Routed { t with waitingCalls := queues } := ih (List.nodup_append.mp hasked).1
    refine htaken.couple (fun c hc ↦ ?_) call d
    obtain ⟨c', hc'⟩ := hreaches.exists_paired hc
    rw [hunpaired] at hc'
    cases hc'
  | attach call child _ ih => exact (ih hasked).attachChild call child
  | finish call e hreaches he ih =>
    exact (ih hasked).finishGroup he (fun _ _ _ ↦ hreaches.eq_of_carries hasked) call
  | keepFork _ _ _ _ ih => exact ih hasked
  | keepEnding _ _ _ _ _ ih => exact ih hasked

/-! ## Which call was paired first -/

/-- The call has an identifier. -/
def IsPaired (groups : Table Delegation) (call : String) : Prop := ∃ id, Carries groups id call

/-- A call was paired before another: at one moment of the run it was, and the other was not. -/
def PairedBefore (reports : List Report) (c c' : String) : Prop :=
  ∃ before, before <+: reports ∧ IsPaired (run before).groups c ∧ ¬ IsPaired (run before).groups c'

theorem PairedBefore.mono {later : List Report} (h : PairedBefore reports c c')
    (hlater : reports <+: later) : PairedBefore later c c' := by
  obtain ⟨before, hbefore, hc, hc'⟩ := h
  exact ⟨before, hbefore.trans hlater, hc, hc'⟩

/-- A call that is paired stays so. -/
theorem IsPaired.mono {later : List Report} (h : IsPaired (run reports).groups c)
    (hlater : reports <+: later) : IsPaired (run later).groups c := by
  obtain ⟨rest, rfl⟩ := hlater
  induction rest using List.reverseRecOn with
  | nil => rwa [List.append_nil]
  | append_singleton rest r ih =>
    obtain ⟨id, hid⟩ := ih
    rw [← List.append_assoc, run_concat]
    exact ⟨id, ((orderly_run _).carries_step_iff r).mpr (Or.inl hid)⟩

theorem PairedBefore.asymm (h : PairedBefore reports c c') : ¬ PairedBefore reports c' c := by
  rintro ⟨before', hbefore', hc', hc⟩
  obtain ⟨before, hbefore, hpaired, hunpaired⟩ := h
  rcases List.prefix_or_prefix_of_prefix hbefore hbefore' with hle | hle
  · exact hc (hpaired.mono hle)
  · exact hunpaired (hc'.mono hle)

/-- What comes later does not change the order of two calls that are paired. -/
theorem pairedBefore_concat_iff {r : Report} (h : IsPaired (run reports).groups c') :
    PairedBefore (reports ++ [r]) c c' ↔ PairedBefore reports c c' := by
  refine ⟨?_, fun hbefore ↦ hbefore.mono (List.prefix_append _ _)⟩
  rintro ⟨before, hbefore, hc, hc'⟩
  rcases List.prefix_concat_iff.mp hbefore with rfl | hold
  · exact absurd (h.mono (List.prefix_append _ _)) hc'
  · exact ⟨before, hold, hc, hc'⟩

/-! ## Ranks -/

/-- A route was there before a pairing, or it is the one that the pairing makes. -/
theorem get?_routes_couple_cases (t : Tracker) (call : String) (d : Delegation) (r : Request)
    (hroute : (t.couple call d r).routes.get? id = some route) :
    (t.routes.get? id = some route ∧ t.ranks ≤ (t.couple call d r).ranks) ∨
      (r.delegation = id ∧ route.group = call ∧ route.rank = t.ranks + 1 ∧
        (t.couple call d r).ranks = t.ranks + 1) := by
  rw [couple, activate] at hroute ⊢
  split at hroute
  · dsimp only at hroute ⊢
    rw [Table.get?_insert] at hroute
    split at hroute
    · next hid =>
      obtain rfl := Option.some.inj hroute
      exact Or.inr ⟨hid.symm, rfl, rfl, rfl⟩
    · exact Or.inl ⟨hroute, Nat.le_succ _⟩
  · exact Or.inl ⟨hroute, Nat.le_refl _⟩

private theorem ranks_finishGroup (t : Tracker) (call : String) (e : Ending) :
    (t.finishGroup call e).ranks = t.ranks := by
  rw [finishGroup]
  split <;> rfl

/-- A route was there before a report, or the report pairs the call to which it leads and gives it
the next rank. -/
theorem Orderly.get?_routes_step (h : t.Orderly) {r : Report}
    (hroute : (t.step r).routes.get? id = some route) :
    (t.routes.get? id = some route ∧ t.ranks ≤ (t.step r).ranks) ∨
      ∃ q, t.pairs? r = some (route.group, q) ∧ q.delegation = id ∧
        route.rank = t.ranks + 1 ∧ (t.step r).ranks = t.ranks + 1 := by
  -- child sessions leave the routes alone, and an ending takes one away at most
  have hcoupled : (t.coupled r).routes.get? id = some route := by
    have hattached : (t.attached r).routes = (t.coupled r).routes := by
      rw [attached]
      cases t.attaches? r <;> rfl
    rw [h.step_eq_elim] at hroute
    rw [← hattached]
    cases hends : t.ends? r with
    | none => rwa [hends] at hroute
    | some p =>
      rw [hends] at hroute
      exact (get?_routes_finishGroup _ _ _ hroute).1
  obtain ⟨hroutes, hranks⟩ := t.routes_receive r
  rw [h.apply_step (fun _ _ _ ↦ rfl) ranks_finishGroup, ← hroutes, ← hranks]
  rcases h.coupled_cases r with ⟨-, heq⟩ | ⟨call, q, d, hpairs, -, -, heq⟩
  · rw [heq] at hcoupled ⊢
    exact Or.inl ⟨hcoupled, Nat.le_refl _⟩
  · rw [heq] at hcoupled ⊢
    refine (get?_routes_couple_cases _ _ _ _ hcoupled).imp_right ?_
    rintro ⟨hid, rfl, hrank, hranks⟩
    exact ⟨q, hpairs, hid, hrank, hranks⟩

/-- Of two routes, the one with the lower rank leads to the call that was paired first. -/
structure Ranked (reports : List Report) : Prop where
  rank_le : ∀ id route, (run reports).routes.get? id = some route → route.rank ≤ (run reports).ranks
  pairedBefore : ∀ id id' route route', (run reports).routes.get? id = some route →
    (run reports).routes.get? id' = some route' → route.rank ≤ route'.rank →
    id = id' ∨ PairedBefore reports route.group route'.group

private theorem ranked_run (reports : List Report) : Ranked reports := by
  induction reports using List.reverseRecOn with
  | nil => exact ⟨fun _ _ h ↦ (by cases h), fun _ _ _ _ h ↦ (by cases h)⟩
  | append_singleton before r ih =>
    have horderly := orderly_run before
    obtain ⟨asked, -, hreaches⟩ := reaches_run fun x (_ : x ∈ before) ↦ x.allows_true
    refine ⟨fun id route h ↦ ?_, fun id id' route route' h h' hle ↦ ?_⟩
    · rw [run_concat] at h ⊢
      rcases horderly.get?_routes_step h with ⟨hold, hranks⟩ | ⟨q, -, -, hrank, hranks⟩
      · exact Nat.le_trans (ih.rank_le id route hold) hranks
      · exact Nat.le_of_eq (hrank.trans hranks.symm)
    · rw [run_concat] at h h'
      rcases horderly.get?_routes_step h with ⟨hold, -⟩ | ⟨q, hpairs, hid, hrank, -⟩ <;>
        rcases horderly.get?_routes_step h' with ⟨hold', -⟩ | ⟨q', hpairs', hid', hrank', -⟩
      · exact (ih.pairedBefore id id' route route' hold hold' hle).imp_right fun hbefore ↦
          hbefore.mono (List.prefix_append _ _)
      · -- the older route leads to a call that is paired before this report
        obtain ⟨d, hd, -, hdid, -⟩ := hreaches.leads hold
        refine Or.inr ⟨before, List.prefix_append _ _, ⟨id, d, hd, hdid⟩, ?_⟩
        rintro ⟨id'', hcarries⟩
        exact horderly.pairs?_ne_of_carries hcarries q' hpairs'
      · have hle' := ih.rank_le id' route' hold'
        omega
      · rw [hpairs] at hpairs'
        obtain ⟨-, rfl⟩ := Prod.mk.inj (Option.some.inj hpairs')
        exact Or.inl (hid.symm.trans hid')

/-! ## The answer -/

/-- A delegation to which an agent can be sent: it is in progress, it has an identifier, and the
agent is its target. -/
structure Routable (t : Tracker) (agent : String) (d : Delegation) : Prop where
  get?_eq : t.groups.get? d.call = some d
  isInProgress : d.isInProgress = true
  isPaired : d.delegation.isSome = true
  target_eq : d.target = some agent

/-- Of some delegations, the one that was paired last. -/
structure IsLatest (reports : List Report) (P : Delegation → Prop) (d : Delegation) : Prop where
  mem : P d
  latest : ∀ d', P d' → d' = d ∨ PairedBefore reports d'.call d.call

/-- A report ends a delegation, which it names by its call or by its identifier. -/
inductive Report.Ends (d : Delegation) : Report → Prop
  | call (e : Ending) (he : e.status.isTerminal = true) : Ends d (.finishGroup d.call e)
  | identifier {id : String} (e : Ending) (hid : d.delegation = some id)
      (he : e.status.isTerminal = true) : Ends d (.finished id e)

/-- An agent is sent to the delegation that was paired last. -/
structure RoutesToLatest (reports : List Report) (agent : String) : Prop where
  route?_eq_some_iff : ∀ d, (run reports).route? agent = some d ↔
    IsLatest reports ((run reports).Routable agent) d
  route?_eq_none_iff : (run reports).route? agent = none ↔
    ∀ d, ¬ (run reports).Routable agent d
  /-- When it ends, the agent is sent to the one that was paired last among the others. -/
  fallsBack : ∀ d r, (run reports).route? agent = some d → r.Ends d →
    (∀ d', (run (reports ++ [r])).route? agent = some d' ↔
      IsLatest reports (fun x ↦ (run reports).Routable agent x ∧ x ≠ d) d') ∧
    ((run (reports ++ [r])).route? agent = none ↔
      ∀ x, (run reports).Routable agent x → x = d)

theorem routable_of_route? (h : (run reports).route? agent = some d) :
    (run reports).Routable agent d := by
  obtain ⟨hd, hprogress, d', hd', hpaired, htarget⟩ := serves_of_route? h
  obtain rfl : d = d' := Option.some.inj (hd.symm.trans hd')
  exact ⟨hd, hprogress, hpaired, htarget⟩

theorem Routable.isPaired_call (h : t.Routable agent d) : IsPaired t.groups d.call := by
  obtain ⟨id, hid⟩ := Option.isSome_iff_exists.mp h.isPaired
  exact ⟨id, d, h.get?_eq, hid⟩

theorem Report.Ends.allows {r : Report} (h : r.Ends d) : r.Allows (·.status.isTerminal = true) := by
  cases h with
  | call e he => exact he
  | identifier e _ he => exact he

theorem Report.Ends.request?_eq_none {r : Report} (h : r.Ends d) : r.request? = none := by
  cases h <;> rfl

/-- A report that ends a delegation ends it by its call. -/
theorem exists_run_concat_eq (hrequests : (requests reports).Nodup) {r : Report}
    (hd : (run reports).Routable agent d) (hr : r.Ends d) :
    ∃ e : Ending, e.status.isTerminal = true ∧
      run (reports ++ [r]) = (run reports).finishGroup d.call e := by
  rw [run_concat]
  cases hr with
  | call e he => exact ⟨e, he, rfl⟩
  | @identifier id e hid he =>
    have hcount := List.nodup_iff_count_le_one.mp hrequests id
    have hpaired := (paired_iff_of_count_requests hcount ⟨d, hd.get?_eq, hid⟩ id).mpr rfl
    refine ⟨e, he, ?_⟩
    rw [step, finished, hpaired]

/-- The end of a delegation takes it from those to which its agent can be sent. -/
theorem routable_concat_iff (hrequests : (requests reports).Nodup) {r : Report}
    (hd : (run reports).Routable agent d) (hr : r.Ends d)
    (x : Delegation) : (run (reports ++ [r])).Routable agent x ↔
      (run reports).Routable agent x ∧ x ≠ d := by
  obtain ⟨e, he, hrun⟩ := exists_run_concat_eq hrequests hd hr
  have hget := (run reports).get?_groups_finishGroup d.call e x.call
  rw [hrun]
  constructor
  · intro hx
    rw [hx.get?_eq] at hget
    split at hget
    · -- a delegation that has just ended is not in progress
      obtain ⟨d₀, -, rfl⟩ := Option.map_eq_some_iff.mp hget.symm
      have hprogress := hx.isInProgress
      rw [isInProgress_finish he] at hprogress
      cases hprogress
    · next hne => exact ⟨⟨hget.symm, hx.isInProgress, hx.isPaired, hx.target_eq⟩, by
        rintro rfl
        exact hne rfl⟩
  · rintro ⟨hx, hne⟩
    have hcall : x.call ≠ d.call := fun heq ↦
      hne (Option.some.inj (hx.get?_eq.symm.trans (heq ▸ hd.get?_eq)))
    rw [if_neg hcall] at hget
    exact ⟨hget.trans hx.get?_eq, hx.isInProgress, hx.isPaired, hx.target_eq⟩

section Run

variable (hfinal : ∀ r ∈ reports, r.Allows (·.status.isTerminal = true))
  (hrequests : (requests reports).Nodup)

include hfinal hrequests

/-- Where an agent can be sent it is sent, and no earlier. -/
theorem Routable.exists_route? (h : (run reports).Routable agent d) :
    ∃ d', (run reports).route? agent = some d' ∧
      (d = d' ∨ PairedBefore reports d.call d'.call) := by
  obtain ⟨asked, hasked, hreaches⟩ := reaches_run hfinal
  obtain ⟨id, hid⟩ := Option.isSome_iff_exists.mp h.isPaired
  obtain ⟨rank, hroute⟩ := hreaches.routed (hrequests.sublist hasked) d.call d id agent h.get?_eq
    h.isInProgress hid h.target_eq
  have hmem : ⟨agent, d.call, rank⟩ ∈
      (run reports).routes.values.filter fun r ↦ r.target == agent :=
    List.mem_filter.mpr ⟨Table.mem_values_iff.mpr ⟨id, hroute⟩, beq_self_eq_true agent⟩
  obtain ⟨best, hbest, hle⟩ := Route.exists_latest? hmem
  obtain ⟨id', hroute'⟩ := Table.mem_values_iff.mp
    (List.mem_of_mem_filter (Route.mem_of_latest? hbest))
  obtain ⟨d', hd', hprogress, hid', -⟩ := hreaches.leads hroute'
  refine ⟨d', ?_, ?_⟩
  · rw [route?, hbest, Option.bind_some, hd', Option.filter_some, if_pos hprogress]
  · rw [(orderly_run reports).call_eq _ d' hd']
    refine ((ranked_run reports).pairedBefore id id' _ best hroute hroute' hle).imp_left ?_
    rintro rfl
    rw [hroute, Option.some_inj] at hroute'
    rw [← hroute', h.get?_eq] at hd'
    exact Option.some.inj hd'

private theorem route?_eq_some_iff (d : Delegation) : (run reports).route? agent = some d ↔
    IsLatest reports ((run reports).Routable agent) d := by
  constructor
  · intro h
    refine ⟨routable_of_route? h, fun d' hd' ↦ ?_⟩
    obtain ⟨d₀, hd₀, hbefore⟩ := hd'.exists_route? hfinal hrequests
    obtain rfl : d = d₀ := Option.some.inj (h.symm.trans hd₀)
    exact hbefore
  · intro h
    obtain ⟨d₀, hd₀, hbefore⟩ := h.mem.exists_route? hfinal hrequests
    rcases h.latest d₀ (routable_of_route? hd₀) with rfl | hbefore'
    · exact hd₀
    · rcases hbefore with rfl | hbefore
      · exact hd₀
      · exact absurd hbefore hbefore'.asymm

private theorem route?_eq_none_iff : (run reports).route? agent = none ↔
    ∀ d, ¬ (run reports).Routable agent d := by
  rw [Option.eq_none_iff_forall_ne_some]
  constructor
  · intro h d hd
    obtain ⟨d₀, hd₀, -⟩ := hd.exists_route? hfinal hrequests
    exact h d₀ hd₀
  · exact fun h d hd ↦ h d (routable_of_route? hd)

/-- **The delegation paired last.** Where endings are final and no identifier is asked for twice, an
agent is sent to the delegation that was paired last among those in progress that name it as their
target, and to none if there is none. -/
theorem routesToLatest_run (agent : String) : RoutesToLatest reports agent where
  route?_eq_some_iff := route?_eq_some_iff hfinal hrequests
  route?_eq_none_iff := route?_eq_none_iff hfinal hrequests
  fallsBack d r hroute hr := by
    have hd := routable_of_route? hroute
    have hroutable := routable_concat_iff hrequests hd hr
    have hfinal' : ∀ x ∈ reports ++ [r], x.Allows (·.status.isTerminal = true) :=
      List.forall_mem_append.mpr ⟨hfinal, List.forall_mem_singleton.mpr hr.allows⟩
    have hrequests' : (requests (reports ++ [r])).Nodup := by
      rwa [requests, List.filterMap_append, List.filterMap_cons_none hr.request?_eq_none,
        List.filterMap_nil, List.append_nil]
    refine ⟨fun d' ↦ ?_, ?_⟩
    · rw [route?_eq_some_iff hfinal' hrequests']
      constructor
      · rintro ⟨hmem, hlatest⟩
        have hmem' := (hroutable d').mp hmem
        exact ⟨hmem', fun x hx ↦ (hlatest x ((hroutable x).mpr hx)).imp_right
          (pairedBefore_concat_iff hmem'.1.isPaired_call).mp⟩
      · rintro ⟨hmem, hlatest⟩
        exact ⟨(hroutable d').mpr hmem, fun x hx ↦ (hlatest x ((hroutable x).mp hx)).imp_right
          (pairedBefore_concat_iff hmem.1.isPaired_call).mpr⟩
    · rw [route?_eq_none_iff hfinal' hrequests']
      simp only [hroutable, not_and, not_ne_iff]

end Run

/-- Two calls and two requests for one agent. The call without a target is made first and paired
last. -/
def overlapping : List Report := [
  .opened ⟨"tc1", "main", none, none, 0, ⟨1000⟩⟩,
  .opened ⟨"tc2", "main", some "worker", none, 1, ⟨2000⟩⟩,
  .requested ⟨"d1", some "worker", none⟩,
  .requested ⟨"d2", some "worker", none⟩]

theorem routesToLatest_overlapping :
    (∀ r ∈ overlapping, r.Allows (·.status.isTerminal = true)) ∧ (requests overlapping).Nodup ∧
      RoutesToLatest overlapping "worker" ∧
      ((run overlapping).route? "worker").map Delegation.call = some "tc1" ∧
      ((run (overlapping ++ [.finished "d2" ⟨.failed, ⟨3000⟩, none⟩])).route? "worker").map
        Delegation.call = some "tc2" := by
  have hfinal : ∀ r ∈ overlapping, r.Allows (·.status.isTerminal = true) := by
    simp [overlapping, Report.Allows]
  have hrequests : (requests overlapping).Nodup := by decide
  exact ⟨hfinal, hrequests, routesToLatest_run hfinal hrequests "worker", by decide, by decide⟩

end Tracker

end SessionReplay
