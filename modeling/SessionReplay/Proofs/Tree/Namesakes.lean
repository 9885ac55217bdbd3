import SessionReplay.Proofs.Row.Openings
import SessionReplay.Proofs.Tree.Hydration
import SessionReplay.Proofs.Tree.Reach

/-!
# Calls of one name in a tree

A tree keeps the groups of all its sessions in one table, by the identifiers of the calls alone. The
calls of one session have different identifiers, but two sessions may have calls of one identifier,
and then the table has room for one group only. It is that of the session which the tree comes to
first, `SessionView.leadsToFirst_treeOfEvents`: the groups of a session go before those of its
children, and those of a child before those of the next. So a row of the root always leads to its
own group, and a row of another session does unless a session before it has a call of that
identifier. `SessionView.not_leadsToOwn_borrowedName` is a tree where one has.

## The order of the sessions

`Visit.sessions` lists the sessions of a tree as the tree comes to them, each before those that it
goes on to. A look-up in the table finds what the first session of this list has,
`Visit.get?_groups_tree_eq_findSome?`, and everything else is said of this list.
-/

namespace SessionReplay

variable {events : List Event} {options : Options} {session : String}

private theorem findSome?_flatMap {α β γ : Type} (f : α → List β) (p : β → Option γ) (xs : List α) :
    (xs.flatMap f).findSome? p = xs.findSome? fun x ↦ (f x).findSome? p := by
  induction xs with
  | nil => rfl
  | cons x xs ih =>
    rw [List.flatMap_cons, List.findSome?_append, ih, List.findSome?_cons]
    cases (f x).findSome? p <;> rfl

private theorem findSome?_congr {α β : Type} {f p : α → Option β} {xs : List α}
    (h : ∀ x ∈ xs, f x = p x) : xs.findSome? f = xs.findSome? p := by
  induction xs with
  | nil => rfl
  | cons x xs ih =>
    obtain ⟨hx, hxs⟩ := List.forall_mem_cons.mp h
    rw [List.findSome?_cons, List.findSome?_cons, hx, ih hxs]

private theorem forall₂_filterMap {α β : Type} {f : α → Option β} {xs : List α}
    (h : ∀ x ∈ xs, ∃ y, f x = some y) :
    List.Forall₂ (fun x y ↦ f x = some y) xs (xs.filterMap f) := by
  induction xs with
  | nil => exact .nil
  | cons x xs ih =>
    obtain ⟨⟨y, hy⟩, hxs⟩ := List.forall_mem_cons.mp h
    rw [List.filterMap_cons_some hy]
    exact .cons hy (ih hxs)

/-! ## The sessions of a tree -/

namespace Visit

/-- The sessions of a tree, in the order in which it comes to them. -/
def sessions (events : List Event) (options : Options) (v : Visit) : List String :=
  v.session :: ((v.entered events options).attach.map fun child ↦
    sessions events options (v.enter child.1)).flatten
termination_by v.enterable.length
decreasing_by exact length_otherSessions_lt (mem_entered_iff.mp child.2).2

variable {v w : Visit} {id : String} {g : Group}

theorem sessions_eq (v : Visit) : v.sessions events options
    = v.session :: (v.entered events options).flatMap fun child ↦
        (v.enter child).sessions events options := by
  rw [sessions, List.flatMap_def]
  exact congrArg (v.session :: List.flatten ·) (List.attach_map_val
    (f := fun child ↦ sessions events options (v.enter child)))

private theorem mem_sessions_iff {s : String} :
    s ∈ v.sessions events options ↔ ∃ w, LeadsTo events options v w ∧ w.session = s := by
  induction v using of_goesOnTo events options with
  | h v ih =>
    rw [sessions_eq, List.mem_cons, List.mem_flatMap]
    constructor
    · rintro (rfl | ⟨child, hchild, hbelow⟩)
      · exact ⟨v, .refl, rfl⟩
      · obtain ⟨w, hw, rfl⟩ := (ih child hchild).mp hbelow
        exact ⟨w, .head ⟨child, hchild, rfl⟩ hw, rfl⟩
    · rintro ⟨w, hw, rfl⟩
      rcases hw.cases_head with rfl | ⟨_, ⟨child, hchild, rfl⟩, hrest⟩
      · exact Or.inl rfl
      · exact Or.inr ⟨child, hchild, (ih child hchild).mpr ⟨w, hrest, rfl⟩⟩

/-- **Look-ups.** A name stands for the group of the first session that has one of the name. -/
theorem get?_groups_tree_eq_findSome? (v : Visit) (id : String) :
    ((v.tree events options).groups.get? id).map Group.toDelegation
      = (v.sessions events options).findSome? fun s ↦
          ((RowSet.ofEvents s events options).groups.get? id).map Group.toDelegation := by
  induction v using of_goesOnTo events options with
  | h v ih =>
    have hfill : Group.toDelegation ∘ v.fill events options = Group.toDelegation :=
      funext toDelegation_fill
    have hbelow : ((v.entered events options).findSome? fun child ↦
        ((v.enter child).tree events options).groups.get? id).map Group.toDelegation
          = ((v.entered events options).flatMap fun child ↦
              (v.enter child).sessions events options).findSome? fun s ↦
                ((RowSet.ofEvents s events options).groups.get? id).map Group.toDelegation := by
      rw [List.map_findSome?, findSome?_flatMap]
      exact findSome?_congr fun child hchild ↦ ih child hchild
    rw [get?_groups_tree, Option.map_or, Option.map_map, hfill, hbelow, sessions_eq,
      List.findSome?_cons]
    cases (RowSet.ofEvents v.session events options).groups.get? id <;> rfl

end Visit

/-! ## The first call of a name -/

/-- The row is that of a call by which a session delegates. -/
structure Delegates (events : List Event) (options : Options) (session : String) (r : Row) :
    Prop where
  mem : r ∈ (RowSet.ofEvents session events options).rows
  delegates : r.delegates = true

/-- Of the rows of some sessions that delegate by calls of its identifier, the row is the first. -/
def DelegatesFirst (events : List Event) (options : Options) (sessions : List String) (r : Row) :
    Prop :=
  ∃ before s after, sessions = before ++ s :: after ∧ Delegates events options s r ∧
    ∀ u ∈ before, ∀ q, Delegates events options u q → q.id ≠ r.id

variable {sessions : List String} {s : String} {q r : Row}

theorem Delegates.exists_opens (h : Delegates events options s r) :
    ∃ g, (RowSet.ofEvents s events options).groups.get? r.id = some g ∧ r.Opens g.toDelegation :=
  RowSet.exists_opens_of_delegates h.mem h.delegates

private theorem exists_delegates_of_group {id : String} {g : Group}
    (h : (RowSet.ofEvents s events options).groups.get? id = some g) :
    ∃ q, Delegates events options s q ∧ q.id = id := by
  obtain ⟨hcall, q, hq, hopens⟩ := RowSet.exists_row_of_group h
  exact ⟨q, ⟨hq, hopens.delegates⟩, hopens.id_eq.trans hcall⟩

/-- A session has one call of an identifier. -/
theorem Delegates.eq_of_id_eq (hq : Delegates events options s q)
    (hr : Delegates events options s r) (hid : q.id = r.id) : q = r :=
  RowSet.eq_of_delegates hq.mem hr.mem hq.delegates hr.delegates hid

/-- If a call of an identifier is there, there is a first one. -/
theorem exists_delegatesFirst (hs : s ∈ sessions) (hr : Delegates events options s r) :
    ∃ q, DelegatesFirst events options sessions q ∧ q.id = r.id := by
  induction sessions with
  | nil => cases hs
  | cons u rest ih =>
    by_cases hu : ∃ q, Delegates events options u q ∧ q.id = r.id
    · obtain ⟨q, hq, hid⟩ := hu
      exact ⟨q, ⟨[], u, rest, rfl, hq, List.forall_mem_nil _⟩, hid⟩
    · have hrest : s ∈ rest := by
        rcases List.mem_cons.mp hs with rfl | hrest
        · exact absurd ⟨r, hr, rfl⟩ hu
        · exact hrest
      obtain ⟨q, ⟨before, s', after, rfl, hq, hfirst⟩, hid⟩ := ih hrest
      refine ⟨q, ⟨u :: before, s', after, rfl, hq, List.forall_mem_cons.mpr ⟨?_, hfirst⟩⟩, hid⟩
      exact fun q' hq' hid' ↦ hu ⟨q', hq', hid'.trans hid⟩

/-- The first call of an identifier has its group in the tree. -/
theorem Visit.exists_opens_tree {v : Visit}
    (hr : DelegatesFirst events options (v.sessions events options) r) :
    ∃ g, (v.tree events options).groups.get? r.id = some g ∧ r.Opens g.toDelegation := by
  obtain ⟨before, s, after, hsessions, hdelegates, hfirst⟩ := hr
  obtain ⟨g₀, hg₀, hopens⟩ := hdelegates.exists_opens
  have hlookup : ((v.tree events options).groups.get? r.id).map Group.toDelegation
      = some g₀.toDelegation := by
    rw [get?_groups_tree_eq_findSome?, List.findSome?_eq_some_iff]
    refine ⟨before, s, after, hsessions, by rw [hg₀, Option.map_some], fun u hu ↦ ?_⟩
    refine Option.map_eq_none_iff.mpr (Option.eq_none_iff_forall_not_mem.mpr fun g hg ↦ ?_)
    obtain ⟨q, hq, hid⟩ := exists_delegates_of_group hg
    exact hfirst u hu q hq hid
  obtain ⟨g, hg, heq⟩ := Option.map_eq_some_iff.mp hlookup
  exact ⟨g, hg, heq ▸ hopens⟩

namespace SessionView

/-! ## Groups of the rows on display -/

/-- The row is on display: it is one of the view itself, or stands in a filled group. -/
def Shows (v : SessionView) (r : Row) : Prop :=
  r ∈ v.rows ∨ ∃ id g, v.groups.get? id = some g ∧ g.hydrated = true ∧ r ∈ g.rows

/-- Under the identifier of the row there is the group that the row opened: it is of the agent who
made the call, and it starts when the call was made. -/
def HasGroupOf (v : SessionView) (r : Row) : Prop :=
  ∃ g, v.groups.get? r.id = some g ∧ g.agent = r.agent ∧ g.start = r.time

/-- The turn of a filled group lists the groups that the calls in it lead to, call by call. -/
def ListsByName (v : SessionView) : Prop :=
  ∀ id g, v.groups.get? id = some g → g.hydrated = true → ∃ t, v.delegationTurn? id = some t ∧
    List.Forall₂ (fun r n ↦ v.groups.get? r.id = some n) (g.rows.filter Row.delegates) t.delegations

/-- Every call on display that delegates leads to its own group. -/
structure LeadsToOwn (v : SessionView) : Prop where
  group : ∀ r, v.Shows r → r.delegates = true → v.HasGroupOf r
  lists : v.ListsByName

/-- Every call on display that delegates leads to the group of the first call of its identifier, in
the order of the sessions. -/
structure LeadsToFirst (events : List Event) (options : Options) (sessions : List String)
    (v : SessionView) : Prop where
  /-- A call on display is of one of the sessions, so its identifier has a first call. -/
  exists_first : ∀ r, v.Shows r → r.delegates = true →
    ∃ q, DelegatesFirst events options sessions q ∧ q.id = r.id
  /-- The identifier leads to the group of that call. -/
  group : ∀ q, DelegatesFirst events options sessions q → v.HasGroupOf q
  /-- A call of the view itself is the first. -/
  root : ∀ r ∈ v.rows, r.delegates = true → DelegatesFirst events options sessions r
  /-- If no two sessions have calls of one identifier, then every call is the first. -/
  apart : (∀ s ∈ sessions, ∀ u ∈ sessions, ∀ q r, Delegates events options s q →
      Delegates events options u r → q.id = r.id → s = u) →
    ∀ r, v.Shows r → r.delegates = true → DelegatesFirst events options sessions r
  lists : v.ListsByName

private theorem exists_session_of_shows (h : (treeOfEvents session events options).Shows r) :
    ∃ s ∈ (Visit.root events session).sessions events options,
      r ∈ (RowSet.ofEvents s events options).rows := by
  rcases h with hown | ⟨id, g, hg, hhydrated, hr⟩
  · exact ⟨session, Visit.mem_sessions_iff.mpr ⟨_, .refl, rfl⟩,
      Visit.rows_tree (Visit.root events session) ▸ hown⟩
  · -- the group is one of a session on the way, and the visit to that session went on to its child
    rw [groups_treeOfEvents] at hg
    obtain ⟨w, g₀, hw, hg₀, rfl⟩ := Visit.exists_leadsTo_of_get?_groups_tree hg
    obtain ⟨c, hchild, hentered, hrows⟩ :=
      (Visit.hydrated_fill_iff (RowSet.hydrated_eq_false hg₀)).mp hhydrated
    rw [Visit.fill_of_mem_entered hchild hentered hrows] at hr
    exact ⟨c, Visit.mem_sessions_iff.mpr ⟨w.enter c, hw.tail ⟨c, hentered, rfl⟩, rfl⟩, hr⟩

/-- **Namesakes.** In the view of a session with its children, every call on display that delegates
leads to the group of the first call of its identifier. -/
theorem leadsToFirst_treeOfEvents (session : String) (events : List Event) (options : Options) :
    LeadsToFirst events options ((Visit.root events session).sessions events options)
      (treeOfEvents session events options) := by
  have hfirst : ∀ r, (treeOfEvents session events options).Shows r → r.delegates = true →
      ∃ q, DelegatesFirst events options
        ((Visit.root events session).sessions events options) q ∧ q.id = r.id := by
    intro r hr hdelegates
    obtain ⟨s, hs, hmem⟩ := exists_session_of_shows hr
    exact exists_delegatesFirst hs ⟨hmem, hdelegates⟩
  have hgroup : ∀ q, DelegatesFirst events options
      ((Visit.root events session).sessions events options) q →
      (treeOfEvents session events options).HasGroupOf q := by
    intro q hq
    obtain ⟨g, hg, hopens⟩ := Visit.exists_opens_tree hq
    exact ⟨g, hg, hopens.agent_eq.symm, hopens.time_eq.symm⟩
  refine ⟨hfirst, hgroup, fun r hr hdelegates ↦ ?_, fun hapart r hr hdelegates ↦ ?_,
    fun id g hg hhydrated ↦ ⟨_, congrArg (Option.map _) hg, ?_⟩⟩
  · rw [Visit.sessions_eq]
    exact ⟨[], session, _, rfl, ⟨Visit.rows_tree (Visit.root events session) ▸ hr, hdelegates⟩,
      List.forall_mem_nil _⟩
  · obtain ⟨s, hs, hmem⟩ := exists_session_of_shows hr
    obtain ⟨q, hq, hid⟩ := exists_delegatesFirst hs ⟨hmem, hdelegates⟩
    obtain ⟨before, u, after, hsessions, hdel, -⟩ := id hq
    have hu : u ∈ (Visit.root events session).sessions events options :=
      hsessions ▸ List.mem_append_right _ List.mem_cons_self
    obtain rfl : u = s := hapart u hu s hs q r hdel ⟨hmem, hdelegates⟩ hid
    exact hdel.eq_of_id_eq ⟨hmem, hdelegates⟩ hid ▸ hq
  · refine forall₂_filterMap fun r hr ↦ ?_
    obtain ⟨hmem, hdelegates⟩ := List.mem_filter.mp hr
    obtain ⟨q, hq, hid⟩ := hfirst r (.inr ⟨id, g, hg, hhydrated, hmem⟩) hdelegates
    obtain ⟨n, hn, -⟩ := hgroup q hq
    exact ⟨n, hid ▸ hn⟩

/-- A session hands work to another one, which delegates by a call of the same identifier. -/
def borrowedName : List Event :=
  handOver "s1" "tc1" "c1" 1 ++
    [⟨1, "c1", some "worker", some 4000,
      .toolStart "tc1" "delegate" (.object [("agent_id", .string "helper")])⟩]

/-- The call of the child leads to the group of the call of the root. -/
theorem not_leadsToOwn_borrowedName : ¬ (treeOfEvents "s1" borrowedName default).LeadsToOwn := by
  have hrows : ∀ session timeline, Timeline.admitted session borrowedName = timeline →
      RowSet.ofEvents session borrowedName default
        = RowSet.ofTimeline session (Timeline.fill default 0 timeline) default := by
    rintro session _ rfl
    rfl
  have hroot := hrows "s1" _ (Timeline.admitted_eq_filter (by decide))
  have hchild := hrows "c1" _ (Timeline.admitted_eq_filter (by decide))
  have hgroup : ((RowSet.ofEvents "s1" borrowedName default).groups.get? "tc1").map
      (fun g ↦ (g.agent, g.child)) = some ("main", some "c1") := by
    rw [hroot]
    rfl
  have hrow : ((RowSet.ofEvents "c1" borrowedName default).rows.map
      fun r ↦ (r.id, r.agent, r.delegates)) = [("tc1", "worker", true)] := by
    rw [hchild]
    rfl
  obtain ⟨g₀, hg₀, hg₀eq⟩ := Option.map_eq_some_iff.mp hgroup
  obtain ⟨hagent, hg₀child⟩ := Prod.mk.inj hg₀eq
  obtain ⟨r, hr, hreq⟩ := List.mem_map.mp (hrow ▸ List.mem_singleton.mpr rfl)
  obtain ⟨hid, hreq⟩ := Prod.mk.inj hreq
  obtain ⟨hworker, hdelegates⟩ := Prod.mk.inj hreq
  have hentered : "c1" ∈ (Visit.root borrowedName "s1").entered borrowedName default :=
    Visit.mem_entered_root_iff.mpr ⟨⟨"tc1", g₀, hg₀, hg₀child⟩, by decide⟩
  have hg := Visit.get?_groups_tree_of_eq_some (Visit.root borrowedName "s1") hg₀
  rw [Visit.fill_of_mem_entered hg₀child hentered (List.ne_nil_of_mem hr)] at hg
  intro h
  obtain ⟨g, hfound, hcaller, -⟩ := h.group r (.inr ⟨"tc1", _, hg, rfl, hr⟩) hdelegates
  rw [hid] at hfound
  obtain rfl := Option.some.inj (hg.symm.trans hfound)
  have hsame : "worker" = "main" := hworker.symm.trans (hcaller.symm.trans hagent)
  exact absurd hsame (by decide)

end SessionView

end SessionReplay
