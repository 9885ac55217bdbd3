import Mathlib.Data.List.Forall2
import SessionReplay.Proofs.Row.Inventory
import SessionReplay.Proofs.Tree.Visits

/-!
# A tree and its root alone

The view of a session with its children says of the session itself what the view of the session
alone says: `SessionView.completes_treeOfEvents`. What it adds are the rows of child sessions, in
the groups of the delegations they belong to, and the groups of the children.

## Why nested groups do not get into turns

A turn looks its delegations up by the identifiers of the calls, in a table that now has the groups
of other sessions too. Every call that delegates has a group in its own session,
`RowSet.Inventory.perm_keys`, and the own group comes first: no look-up of a turn gets as far as the
nested ones. So the tree changes the turns by filling their groups and in no other way,
`Turn.ofRows_eq_map`.
-/

namespace SessionReplay

/-! ## Turns -/

namespace Turn

/-- The turns are the same, but for the rows in the groups of their delegations. -/
structure AgreesWith (t t' : Turn) : Prop where
  eq_with_delegations : t' = { t with delegations := t'.delegations }
  delegations_eq : t'.delegations.map Group.toDelegation = t.delegations.map Group.toDelegation

/-- A turn with changed groups. -/
def mapDelegations (f : Group → Group) (t : Turn) : Turn :=
  { t with delegations := t.delegations.map f }

variable {f : Group → Group} {groups groups' : Table Group}

private theorem agreesWith_mapDelegations (hf : ∀ g, (f g).toDelegation = g.toDelegation)
    (t : Turn) :
    t.AgreesWith (t.mapDelegations f) where
  eq_with_delegations := rfl
  delegations_eq := by
    rw [mapDelegations, List.map_map]
    exact List.map_congr_left fun g _ ↦ hf g

private theorem delegationsOf_eq_map {rows : List Row}
    (h : ∀ r ∈ rows, r.delegates = true → groups'.get? r.id = (groups.get? r.id).map f) :
    delegationsOf groups' rows = (delegationsOf groups rows).map f := by
  rw [delegationsOf, delegationsOf, List.map_filterMap]
  refine List.filterMap_congr fun r hr ↦ ?_
  obtain ⟨hmem, hdelegates⟩ := List.mem_filter.mp hr
  exact h r hmem hdelegates

/-- Groups have no part in when a turn ended and which model it had. -/
theorem close_map (f : Group → Group) (changes : List ModelChange) (activity : Activity)
    (ts : List Turn) : close changes activity (ts.map (mapDelegations f))
      = (close changes activity ts).map (mapDelegations f) := by
  induction ts with
  | nil => rfl
  | cons t ts ih =>
    cases ts with
    | nil => rfl
    | cons next rest => exact congrArg (_ :: ·) ih

private theorem filterMap_ofSegment?_eq_map {ss : List (List Row)}
    (h : ∀ s ∈ ss, ∀ r ∈ s, r.delegates = true → groups'.get? r.id = (groups.get? r.id).map f) :
    ss.filterMap (ofSegment? groups')
      = (ss.filterMap (ofSegment? groups)).map (mapDelegations f) := by
  rw [List.map_filterMap]
  refine List.filterMap_congr fun s hs ↦ ?_
  cases s with
  | nil => rfl
  | cons r rest =>
    rw [ofSegment?, ofSegment?, Option.map_some, file, delegationsOf_eq_map (h _ hs)]
    rfl

/-- **Turns.** If all look-ups of calls that delegate give the groups changed, then so do the
turns. -/
theorem ofRows_eq_map {set set' : RowSet} (hrows : set'.rows = set.rows)
    (h : ∀ r ∈ set.rows, r.delegates = true →
      set'.groups.get? r.id = (set.groups.get? r.id).map f)
    (changes : List ModelChange) (activity : Activity) :
    ofRows set' changes activity = (ofRows set changes activity).map (mapDelegations f) := by
  rw [ofRows, ofRows, hrows, ← close_map]
  refine congrArg _ (filterMap_ofSegment?_eq_map fun s hs r hr ↦ ?_)
  have hflat : r ∈ set.rows.filter fun r ↦ r.group.isNone := by
    rw [← flatten_segments (set.rows.filter fun r ↦ r.group.isNone)]
    exact List.mem_flatten.mpr ⟨s, hs, hr⟩
  exact h r (List.mem_filter.mp hflat).1

end Turn

namespace SessionView

/-! ## Views -/

/-- The second view shows the first one's session with what was done in child sessions, given the
rows of all sessions. -/
structure Completes (rowsOf : String → List Row) (alone tree : SessionView) : Prop where
  session_eq : tree.session = alone.session
  rows_eq : tree.rows = alone.rows
  timers_eq : tree.timers = alone.timers
  activity_eq : tree.activity = alone.activity
  highWater_eq : tree.highWater = alone.highWater
  turns_agree : List.Forall₂ Turn.AgreesWith alone.turns tree.turns
  /-- Every group is there. It is filled if its child is another session and has rows. -/
  groups_kept : ∀ id g, alone.groups.get? id = some g → ∃ g', tree.groups.get? id = some g' ∧
    g'.toDelegation = g.toDelegation ∧
    (g'.hydrated = true ↔ ∃ c, g.child = some c ∧ c ≠ alone.session ∧ rowsOf c ≠ [])
  /-- A group that is filled, nested or not, is filled with the rows of its child. -/
  rows_of_hydrated : ∀ id g, tree.groups.get? id = some g → g.hydrated = true →
    ∃ c, g.child = some c ∧ g.rows = rowsOf c

end SessionView

namespace Visit

variable {events : List Event} {options : Options}

/-- A name that the root has a group for stands for this group in the tree. -/
theorem get?_groups_tree_of_eq_some (v : Visit) {id : String} {g : Group}
    (h : (RowSet.ofEvents v.session events options).groups.get? id = some g) :
    (v.tree events options).groups.get? id = some (v.fill events options g) := by
  rw [get?_groups_tree, h, Option.map_some, Option.some_or]

/-- The turns of a tree are those of its root, with groups filled. -/
theorem ofRows_tree (v : Visit) (changes : List ModelChange) (activity : Activity) :
    Turn.ofRows (v.tree events options) changes activity
      = (Turn.ofRows (RowSet.ofEvents v.session events options) changes activity).map
          (Turn.mapDelegations (v.fill events options)) := by
  have hinventory : (RowSet.ofEvents v.session events options).Inventory :=
    RowSet.inventory_ofTranscript v.session options _
  refine Turn.ofRows_eq_map (rows_tree v) (fun r hr hdelegates ↦ ?_) changes activity
  -- a call that delegates has a group of its own, so the look-up ends there
  have hname := List.mem_map_of_mem (f := Row.id) (List.mem_filter.mpr ⟨hr, hdelegates⟩)
  obtain ⟨g, hg⟩ := Table.contains_iff.mp
    (Table.mem_keys_iff.mp (hinventory.perm_keys.mem_iff.mpr hname))
  rw [get?_groups_tree_of_eq_some v hg, hg, Option.map_some]

/-- A filled group of a tree has the rows of its child. -/
theorem exists_child_of_hydrated {v : Visit} {id : String} {g : Group}
    (h : (v.tree events options).groups.get? id = some g) (hg : g.hydrated = true) :
    ∃ c, g.child = some c ∧ g.rows = (RowSet.ofEvents c events options).rows := by
  obtain ⟨w, g₀, -, hown, rfl⟩ := exists_leadsTo_of_get?_groups_tree h
  obtain ⟨c, hchild, hrows⟩ :=
    Group.exists_child_of_hydrated_hydrate (RowSet.hydrated_eq_false hown) hg
  exact ⟨c, (congrArg Delegation.child (toDelegation_fill g₀)).trans hchild, hrows⟩

end Visit

namespace SessionView

/-- **Agreement.** Whatever the forks, a tree shows of its root what the view of the root alone
shows. Its groups are filled with the rows of their children, each group of the root unless it leads
back to the root or to a session without rows. -/
theorem completes_treeOfEvents (session : String) (events : List Event) (options : Options) :
    Completes (fun c ↦ (ofEvents c events none options).rows)
      (ofEvents session events none options) (treeOfEvents session events options) := by
  refine ⟨rfl, Visit.rows_tree (Visit.root events session), rfl, rfl, rfl, ?_,
    fun id g hg ↦ ?_, fun id g hg hhydrated ↦ ?_⟩
  · have hturns : (treeOfEvents session events options).turns
        = (ofEvents session events none options).turns.map
            (Turn.mapDelegations ((Visit.root events session).fill events options)) :=
      Visit.ofRows_tree (Visit.root events session) _ _
    rw [hturns, List.forall₂_map_right_iff, List.forall₂_same]
    exact fun t _ ↦ t.agreesWith_mapDelegations Visit.toDelegation_fill
  · have hown : (RowSet.ofEvents session events options).groups.get? id = some g := hg
    refine ⟨(Visit.root events session).fill events options g,
      Visit.get?_groups_tree_of_eq_some (Visit.root events session) hown,
      Visit.toDelegation_fill g, ?_⟩
    rw [Visit.hydrated_fill_iff (RowSet.hydrated_eq_false hown)]
    constructor
    · rintro ⟨c, hchild, hentered, hrows⟩
      exact ⟨c, hchild, (Visit.mem_entered_root_iff.mp hentered).2, hrows⟩
    · rintro ⟨c, hchild, hne, hrows⟩
      have hforks : Forks events options session c := ⟨id, g, hown, hchild⟩
      exact ⟨c, hchild, Visit.mem_entered_root_iff.mpr ⟨hforks, hne⟩, hrows⟩
  · exact Visit.exists_child_of_hydrated (groups_treeOfEvents session events options ▸ hg) hhydrated

end SessionView

end SessionReplay
