import Mathlib.Logic.Relation
import SessionReplay.Proofs.Delegation.Forks
import SessionReplay.Proofs.Row.Growth
import SessionReplay.Proofs.Tree

/-!
# Visits

A tree is made by visits: one to its root, and from each visit one to every child session that may
be entered there. What a visit hands down is the rows of its session, which fill groups of the visit
it came from, and the groups of its own tree.

So all there is in the groups of a tree comes from some visit on the way: a name has a group exactly
if the session of a visit has one, `Visit.contains_groups_tree_iff`, and every group is a group of
such a session, with the rows of its child if the visit went on to it,
`Visit.exists_leadsTo_of_get?_groups_tree`. What is to be known of the groups of a tree need only be
known of visits, and there it is an invariant of going from one visit to the next.
-/

namespace SessionReplay

/-! ## Forks -/

/-- A delegation of the first session has the second one as its child. -/
def Forks (events : List Event) (options : Options) (session child : String) : Prop :=
  ∃ id g, (RowSet.ofEvents session events options).groups.get? id = some g ∧ g.child = some child

variable {events : List Event} {options : Options} {session child : String}

theorem mem_children_iff :
    child ∈ (RowSet.ofEvents session events options).children
      ↔ Forks events options session child := by
  rw [RowSet.children, List.mem_eraseDups, List.mem_filterMap]
  constructor
  · rintro ⟨g, hg, hchild⟩
    obtain ⟨id, hid⟩ := Table.mem_values_iff.mp hg
    exact ⟨id, g, hid, hchild⟩
  · rintro ⟨id, g, hid, hchild⟩
    exact ⟨g, Table.mem_values_iff.mpr ⟨id, hid⟩, hchild⟩

/-- A fork was told of by an event of the session. -/
theorem Forks.exists_event (h : Forks events options session child) :
    ∃ e ∈ events, e.session = session ∧ e.payload.child? = some child := by
  obtain ⟨e, he, hchild⟩ := List.mem_filterMap.mp
    (RowSet.mem_forkedSessions_of_mem_children (mem_children_iff.mpr h))
  obtain ⟨hmem, hsession⟩ := Timeline.mem_of_mem_admitted he
  exact ⟨e, hmem, hsession, hchild⟩

theorem Forks.mem_forkedSessions (h : Forks events options session child) :
    child ∈ forkedSessions events := by
  obtain ⟨e, he, -, hchild⟩ := h.exists_event
  exact List.mem_filterMap.mpr ⟨e, he, hchild⟩

/-! ## Filling groups -/

namespace Group

variable {rowsOf : String → List Row} {sessions : List String} {g : Group}

theorem lookup_map_self (rowsOf : String → List Row) (sessions : List String) (c : String) :
    (sessions.map fun s ↦ (s, rowsOf s)).lookup c
      = if c ∈ sessions then some (rowsOf c) else none := by
  induction sessions with
  | nil => rfl
  | cons s rest ih =>
    rw [List.map_cons, List.lookup_cons, ih]
    by_cases hc : c = s
    · subst hc
      simp
    · rw [beq_false_of_ne hc]
      simp [hc]

theorem hydrate_of_child {c : String} (hchild : g.child = some c) (hmem : c ∈ sessions)
    (hrows : rowsOf c ≠ []) :
    g.hydrate (sessions.map fun s ↦ (s, rowsOf s))
      = { g with rows := rowsOf c, hydrated := true } := by
  obtain ⟨r, rest, hcons⟩ := List.exists_cons_of_ne_nil hrows
  have hfound : (g.child.bind fun s ↦ (sessions.map fun s ↦ (s, rowsOf s)).lookup s)
      = some (r :: rest) := by
    rw [hchild, Option.bind_some, lookup_map_self, if_pos hmem, hcons]
  rw [hydrate, hydrate?, hfound, hcons, Option.getD_some]

theorem hydrate_eq_self (h : ¬ ∃ c, g.child = some c ∧ c ∈ sessions ∧ rowsOf c ≠ []) :
    g.hydrate (sessions.map fun s ↦ (s, rowsOf s)) = g := by
  rw [hydrate, hydrate?]
  split
  · next r rest hfound =>
    obtain ⟨c, hchild, hlookup⟩ := Option.bind_eq_some_iff.mp hfound
    rw [lookup_map_self] at hlookup
    split at hlookup
    · next hmem =>
      refine absurd ⟨c, hchild, hmem, ?_⟩ h
      rw [Option.some.inj hlookup]
      exact List.cons_ne_nil r rest
    · cases hlookup
  · rfl

private theorem toDelegation_hydrate (children : List (String × List Row)) (g : Group) :
    (g.hydrate children).toDelegation = g.toDelegation := by
  rw [hydrate, hydrate?]
  split <;> rfl

/-- A group is filled if its child is among the sessions and has rows. -/
theorem hydrated_hydrate_iff (hg : g.hydrated = false) :
    (g.hydrate (sessions.map fun s ↦ (s, rowsOf s))).hydrated = true
      ↔ ∃ c, g.child = some c ∧ c ∈ sessions ∧ rowsOf c ≠ [] := by
  constructor
  · intro h
    by_contra hnone
    rw [hydrate_eq_self hnone, hg] at h
    cases h
  · rintro ⟨c, hchild, hmem, hrows⟩
    rw [hydrate_of_child hchild hmem hrows]

/-- A group is filled with the rows of its child. -/
theorem exists_child_of_hydrated_hydrate (hg : g.hydrated = false)
    (h : (g.hydrate (sessions.map fun s ↦ (s, rowsOf s))).hydrated = true) :
    ∃ c, g.child = some c ∧ (g.hydrate (sessions.map fun s ↦ (s, rowsOf s))).rows = rowsOf c := by
  obtain ⟨c, hchild, hmem, hrows⟩ := (hydrated_hydrate_iff hg).mp h
  exact ⟨c, hchild, by rw [hydrate_of_child hchild hmem hrows]⟩

end Group

/-- Alone, a session has none of its groups filled. -/
theorem RowSet.hydrated_eq_false {id : String} {g : Group}
    (h : (ofEvents session events options).groups.get? id = some g) : g.hydrated = false := by
  rw [ofEvents, ofTimeline, ofTranscript, RowBuilder.get?_groups_finish] at h
  obtain ⟨d, -, rfl⟩ := Option.map_eq_some_iff.mp h
  rfl

/-! ## From visit to visit -/

/-- A session on the way through a tree, and the sessions that may be entered below it. -/
structure Visit where
  session : String
  enterable : List String

namespace Visit

/-- The visit to the root: any session may be entered that an event names as a child, but not the
root. -/
def root (events : List Event) (session : String) : Visit :=
  ⟨session, otherSessions (forkedSessions events) session⟩

/-- The visit to a child. -/
def enter (v : Visit) (child : String) : Visit := ⟨child, otherSessions v.enterable child⟩

/-- The children that a visit goes on to. -/
def entered (events : List Event) (options : Options) (v : Visit) : List String :=
  (RowSet.ofEvents v.session events options).children.filter v.enterable.contains

/-- The second visit comes right after the first, on the way down. -/
def GoesOnTo (events : List Event) (options : Options) (v w : Visit) : Prop :=
  ∃ child ∈ v.entered events options, w = v.enter child

/-- The second visit is on a way down from the first. -/
def LeadsTo (events : List Event) (options : Options) : Visit → Visit → Prop :=
  Relation.ReflTransGen (GoesOnTo events options)

/-- A group of the session of a visit, with the rows of its child if the visit goes on to it. -/
def fill (events : List Event) (options : Options) (v : Visit) (g : Group) : Group :=
  g.hydrate ((v.entered events options).map fun child ↦
    (child, (RowSet.ofEvents child events options).rows))

/-- The tree below a visit. -/
def tree (events : List Event) (options : Options) (v : Visit) : RowSet :=
  RowSet.tree events options v.enterable v.session

variable {v w : Visit} {id : String} {g : Group}

theorem mem_entered_iff :
    child ∈ v.entered events options
      ↔ Forks events options v.session child ∧ child ∈ v.enterable := by
  rw [entered, List.mem_filter, mem_children_iff, List.contains_iff_mem]

/-- The root has all children entered but itself. -/
theorem mem_entered_root_iff :
    child ∈ (root events session).entered events options
      ↔ Forks events options session child ∧ child ≠ session := by
  rw [mem_entered_iff, root, mem_otherSessions]
  constructor
  · rintro ⟨hforks, -, hne⟩
    exact ⟨hforks, hne⟩
  · rintro ⟨hforks, hne⟩
    exact ⟨hforks, hforks.mem_forkedSessions, hne⟩

theorem toDelegation_fill (g : Group) : (v.fill events options g).toDelegation = g.toDelegation :=
  Group.toDelegation_hydrate _ g

theorem hydrated_fill_iff (hg : g.hydrated = false) :
    (v.fill events options g).hydrated = true ↔ ∃ c, g.child = some c ∧
      c ∈ v.entered events options ∧ (RowSet.ofEvents c events options).rows ≠ [] :=
  Group.hydrated_hydrate_iff hg

theorem fill_of_mem_entered (hchild : g.child = some child)
    (hentered : child ∈ v.entered events options)
    (hrows : (RowSet.ofEvents child events options).rows ≠ []) :
    v.fill events options g
      = { g with rows := (RowSet.ofEvents child events options).rows, hydrated := true } :=
  Group.hydrate_of_child hchild hentered hrows

/-! ## What visits hand down -/

theorem tree_eq (v : Visit) :
    v.tree events options = (RowSet.ofEvents v.session events options).graft
      ((v.entered events options).map fun child ↦ (child, (v.enter child).tree events options)) :=
  RowSet.tree_eq events options v.enterable v.session

/-- A tree has the rows of its root. -/
theorem rows_tree (v : Visit) :
    (v.tree events options).rows = (RowSet.ofEvents v.session events options).rows := by
  rw [tree_eq]
  rfl

/-- A tree has the groups of its root, with what belongs into them, and below these the groups of
the trees it goes on to. -/
theorem get?_groups_tree (v : Visit) (id : String) :
    (v.tree events options).groups.get? id
      = (((RowSet.ofEvents v.session events options).groups.get? id).map
          (v.fill events options)).or
        ((v.entered events options).findSome? fun child ↦
          ((v.enter child).tree events options).groups.get? id) := by
  have hfill : (((v.entered events options).map fun child ↦
      (child, (v.enter child).tree events options)).map fun s ↦ (s.1, s.2.rows))
      = (v.entered events options).map fun child ↦
        (child, (RowSet.ofEvents child events options).rows) := by
    rw [List.map_map]
    exact List.map_congr_left fun child _ ↦ congrArg (Prod.mk child) (rows_tree (v.enter child))
  rw [tree_eq, RowSet.graft, hfill, Table.get?_foldl_union, Table.get?_map, List.findSome?_map]
  rfl

/-- **Induction.** What holds of a visit as soon as it holds of those right after it, holds of every
visit: the way down ends. -/
theorem of_goesOnTo (events : List Event) (options : Options) {P : Visit → Prop}
    (h : ∀ v, (∀ child ∈ v.entered events options, P (v.enter child)) → P v) (v : Visit) : P v := by
  obtain ⟨session, enterable⟩ := v
  induction enterable, session using RowSet.tree.induct events options with
  | case1 enterable session set ih => exact h _ fun child hchild ↦ ih ⟨child, hchild⟩

/-- **Names.** The names in a tree are those that the sessions on the way have groups for. -/
theorem contains_groups_tree_iff (v : Visit) (id : String) :
    (v.tree events options).groups.contains id = true ↔ ∃ w, LeadsTo events options v w ∧
      (RowSet.ofEvents w.session events options).groups.contains id = true := by
  induction v using of_goesOnTo events options with
  | h v ih =>
    -- a name is the root's own, or comes from below
    rw [Table.contains, get?_groups_tree, Option.isSome_or, Option.isSome_map, Bool.or_eq_true,
      List.findSome?_isSome_iff]
    constructor
    · rintro (hown | ⟨child, hchild, hbelow⟩)
      · exact ⟨v, .refl, hown⟩
      · obtain ⟨w, hw, hid⟩ := (ih child hchild).mp hbelow
        exact ⟨w, .head ⟨child, hchild, rfl⟩ hw, hid⟩
    · rintro ⟨w, hw, hid⟩
      rcases hw.cases_head with rfl | ⟨_, ⟨child, hchild, rfl⟩, hrest⟩
      · exact Or.inl hid
      · exact Or.inr ⟨child, hchild, (ih child hchild).mpr ⟨w, hrest, hid⟩⟩

/-- **Groups.** A group in a tree is one of a session on the way, with what the visit to that
session puts into it. -/
theorem exists_leadsTo_of_get?_groups_tree (h : (v.tree events options).groups.get? id = some g) :
    ∃ w g₀, LeadsTo events options v w ∧
      (RowSet.ofEvents w.session events options).groups.get? id = some g₀ ∧
      g = w.fill events options g₀ := by
  induction v using of_goesOnTo events options with
  | h v ih =>
    rw [get?_groups_tree] at h
    rcases Option.or_eq_some_iff.mp h with hown | ⟨-, hbelow⟩
    · obtain ⟨g₀, hg₀, rfl⟩ := Option.map_eq_some_iff.mp hown
      exact ⟨v, g₀, .refl, hg₀, rfl⟩
    · obtain ⟨child, hchild, hid⟩ := List.exists_of_findSome?_eq_some hbelow
      obtain ⟨w, g₀, hw, hg₀, heq⟩ := ih child hchild hid
      exact ⟨w, g₀, .head ⟨child, hchild, rfl⟩ hw, hg₀, heq⟩

end Visit

/-- The view of a session with its children shows the groups of the tree below the root. -/
theorem SessionView.groups_treeOfEvents (session : String) (events : List Event)
    (options : Options) : (treeOfEvents session events options).groups
      = ((Visit.root events session).tree events options).groups := rfl

end SessionReplay
