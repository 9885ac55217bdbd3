import SessionReplay.View

/-!
# Trees of sessions

A tree is entered child by child, and a child is entered only while it is among the sessions that
may still be entered. `RowSet.tree_eq` says so without the bookkeeping of the recursion.

Events reach a tree in two ways: through the rows of single sessions, and through the question which
sessions may be entered. So trees agree when these agree, whatever the order or number of mentions:
`RowSet.tree_congr`. Of the second question only those sessions count that are children of some
session, `RowSet.tree_congr_of_children`.
-/

namespace SessionReplay

theorem mem_otherSessions {sessions : List String} {session s : String} :
    s ∈ otherSessions sessions session ↔ s ∈ sessions ∧ s ≠ session := by
  simp [otherSessions]

namespace RowSet

theorem tree_eq (events : List Event) (options : Options) (enterable : List String)
    (session : String) :
    tree events options enterable session = (ofEvents session events options).graft
      (((ofEvents session events options).children.filter enterable.contains).map fun child ↦
        (child, tree events options (otherSessions enterable child) child)) := by
  rw [tree]
  exact congrArg (graft _) (List.attach_map_val (f := fun child ↦
    (child, tree events options (otherSessions enterable child) child)))

/-- Trees agree if the rows of all sessions agree and the same children may be entered. -/
theorem tree_congr_of_children {events₁ events₂ : List Event} {options : Options}
    (named : String → Prop)
    (hrows : ∀ session, ofEvents session events₁ options = ofEvents session events₂ options)
    (hchildren : ∀ session, ∀ child ∈ (ofEvents session events₁ options).children, named child)
    (enterable₁ enterable₂ : List String)
    (h : ∀ s, named s → (s ∈ enterable₁ ↔ s ∈ enterable₂)) (session : String) :
    tree events₁ options enterable₁ session = tree events₂ options enterable₂ session := by
  induction enterable₁, session using tree.induct events₁ options generalizing enterable₂ with
  | case1 enterable₁ session set ih =>
    have hfilter : (ofEvents session events₁ options).children.filter enterable₁.contains
        = (ofEvents session events₁ options).children.filter enterable₂.contains := by
      refine List.filter_congr fun child hchild ↦ ?_
      rw [Bool.eq_iff_iff, List.contains_iff_mem, List.contains_iff_mem]
      exact h child (hchildren session child hchild)
    rw [tree_eq events₁, tree_eq events₂, ← hrows, ← hfilter]
    congr 1
    refine List.map_congr_left fun child hchild ↦ congrArg (Prod.mk child) ?_
    refine ih ⟨child, hchild⟩ (otherSessions enterable₂ child) fun s hs ↦ ?_
    rw [mem_otherSessions, mem_otherSessions, h s hs]

/-- Trees agree if the rows of all sessions agree and the same sessions may be entered. -/
theorem tree_congr {events₁ events₂ : List Event} {options : Options}
    (hrows : ∀ session, ofEvents session events₁ options = ofEvents session events₂ options)
    (enterable₁ enterable₂ : List String) (h : ∀ s, s ∈ enterable₁ ↔ s ∈ enterable₂)
    (session : String) :
    tree events₁ options enterable₁ session = tree events₂ options enterable₂ session :=
  tree_congr_of_children (fun _ ↦ True) hrows (fun _ _ _ ↦ trivial) enterable₁ enterable₂
    (fun s _ ↦ h s) session

end RowSet

end SessionReplay
