import SessionReplay.Proofs.Tree.Visits

/-!
# Trees without circles

If no session that the root reaches through forks is below itself, then the tree leaves nothing out:
it has the groups of all these sessions, and every group is filled whose child has rows,
`SessionView.complete_treeOfEvents`. It does not matter how many groups have one child, nor on how
many ways a session is reached.

## The invariant

Entering a child forbids it to all visits below, and that would cost groups if a child could turn up
again below itself. So what a visit needs is that all sessions below its own may still be entered,
`Visit.Unhindered`. The root has this because every child is named by an event. A child has it
because what is below the child is below its parent, and the child is not below itself.
-/

open Relation

namespace SessionReplay

variable {events : List Event} {options : Options} {session : String}

/-- No session that the given one reaches through forks is below itself. -/
def NoCircles (events : List Event) (options : Options) (session : String) : Prop :=
  ∀ s, ReflTransGen (Forks events options) session s → ¬ TransGen (Forks events options) s s

/-- There are no circles if sessions can be ranked so that all forks lead to lower ranks. -/
theorem noCircles_of_rank (options : Options) (session : String) (rank : String → ℕ)
    (h : ∀ e ∈ events, ∀ child, e.payload.child? = some child → rank child < rank e.session) :
    NoCircles events options session := by
  have hforks : ∀ s child, Forks events options s child → rank child < rank s := by
    intro s child hs
    obtain ⟨e, he, rfl, hchild⟩ := hs.exists_event
    exact h e he child hchild
  have hbelow : ∀ s t, TransGen (Forks events options) s t → rank t < rank s := by
    intro s t h
    induction h with
    | single hs => exact hforks _ _ hs
    | tail _ hs ih => exact (hforks _ _ hs).trans ih
  exact fun s _ hcircle ↦ Nat.lt_irrefl _ (hbelow s s hcircle)

namespace Visit

/-- A visit that lies below the given root, and from which every session below its own may be
entered. -/
structure Unhindered (events : List Event) (options : Options) (root : String) (v : Visit) :
    Prop where
  reached : ReflTransGen (Forks events options) root v.session
  enterable_of_below : ∀ s, TransGen (Forks events options) v.session s → s ∈ v.enterable

variable {v w : Visit}

theorem unhindered_root (h : NoCircles events options session) :
    (root events session).Unhindered events options session where
  reached := .refl
  enterable_of_below s hs := by
    obtain ⟨parent, -, hforks⟩ := TransGen.tail'_iff.mp hs
    refine mem_otherSessions.mpr ⟨hforks.mem_forkedSessions, ?_⟩
    rintro rfl
    exact h _ .refl hs

theorem Unhindered.enter (h : NoCircles events options session)
    (hv : v.Unhindered events options session) {child : String}
    (hforks : Forks events options v.session child) :
    (v.enter child).Unhindered events options session where
  reached := hv.reached.tail hforks
  enterable_of_below s hs := by
    refine mem_otherSessions.mpr ⟨hv.enterable_of_below s (.head hforks hs), ?_⟩
    rintro rfl
    exact h _ (hv.reached.tail hforks) hs

/-- **One visit.** -/
theorem Unhindered.goesOnTo (h : NoCircles events options session)
    (hv : v.Unhindered events options session) (hw : GoesOnTo events options v w) :
    w.Unhindered events options session := by
  obtain ⟨child, hchild, rfl⟩ := hw
  exact hv.enter h (mem_entered_iff.mp hchild).1

/-- **Any number of visits.** -/
theorem Unhindered.leadsTo (h : NoCircles events options session)
    (hv : v.Unhindered events options session) (hw : LeadsTo events options v w) :
    w.Unhindered events options session := by
  induction hw with
  | refl => exact hv
  | tail _ hgo ih => exact ih.goesOnTo h hgo

/-- Unhindered, a visit goes on to all children. -/
theorem Unhindered.mem_entered (hv : v.Unhindered events options session) {child : String}
    (hforks : Forks events options v.session child) : child ∈ v.entered events options :=
  mem_entered_iff.mpr ⟨hforks, hv.enterable_of_below child (.single hforks)⟩

/-- Without circles, there is a visit to every session that the root reaches. -/
theorem exists_leadsTo_of_reaches (h : NoCircles events options session) {s : String}
    (hs : ReflTransGen (Forks events options) session s) :
    ∃ w, LeadsTo events options (root events session) w ∧ w.session = s := by
  induction hs with
  | refl => exact ⟨root events session, .refl, rfl⟩
  | @tail parent child _ hforks ih =>
    obtain ⟨w, hw, rfl⟩ := ih
    have hchild := ((unhindered_root h).leadsTo h hw).mem_entered hforks
    exact ⟨w.enter child, hw.tail ⟨child, hchild, rfl⟩, rfl⟩

end Visit

namespace SessionView

/-- **Completeness.** Without circles, a tree has the groups of exactly those sessions that its root
reaches, and every group whose child has rows is filled. -/
theorem complete_treeOfEvents (h : NoCircles events options session) :
    (∀ id, id ∈ (treeOfEvents session events options).groups.keys ↔
      ∃ s, ReflTransGen (Forks events options) session s ∧
        id ∈ (ofEvents s events none options).groups.keys) ∧
    ∀ id g c, (treeOfEvents session events options).groups.get? id = some g →
      g.child = some c → (ofEvents c events none options).rows ≠ [] → g.hydrated = true := by
  refine ⟨fun id ↦ ?_, fun id g c hg hchild hrows ↦ ?_⟩
  · rw [Table.mem_keys_iff, groups_treeOfEvents, Visit.contains_groups_tree_iff]
    constructor
    · rintro ⟨w, hw, hid⟩
      have hreached := ((Visit.unhindered_root h).leadsTo h hw).reached
      exact ⟨w.session, hreached, Table.mem_keys_iff.mpr hid⟩
    · rintro ⟨s, hs, hid⟩
      obtain ⟨w, hw, rfl⟩ := Visit.exists_leadsTo_of_reaches h hs
      exact ⟨w, hw, Table.mem_keys_iff.mp hid⟩
  · -- whichever session the group comes from, the visit to it went on to all its children
    rw [groups_treeOfEvents] at hg
    obtain ⟨w, g₀, hw, hown, rfl⟩ := Visit.exists_leadsTo_of_get?_groups_tree hg
    have hchild₀ : g₀.child = some c :=
      (congrArg Delegation.child (Visit.toDelegation_fill g₀)).symm.trans hchild
    have hentered := ((Visit.unhindered_root h).leadsTo h hw).mem_entered ⟨id, g₀, hown, hchild₀⟩
    exact (Visit.hydrated_fill_iff (RowSet.hydrated_eq_false hown)).mpr
      ⟨c, hchild₀, hentered, hrows⟩

/-- A session hands work to another one. -/
def handOver (session call child : String) (first : UInt64) : List Event :=
  [⟨first, session, some "main", some 1000,
      .toolStart call "delegate" (.object [("agent_id", .string child)])⟩,
   ⟨first + 1, session, some "main", some 1000, .delegationRequested call (some child) none⟩,
   ⟨first + 2, session, some "main", some 1000, .sessionForked child (some call)⟩]

/-- Two children have a child in common. -/
def diamond : List Event :=
  handOver "root" "root-left" "left" 1 ++ handOver "root" "root-right" "right" 4 ++
    handOver "left" "left-shared" "shared" 1 ++ handOver "right" "right-shared" "shared" 1 ++
    [⟨1, "shared", some "main", some 2000, .userPrompt "Is it done?"⟩]

private theorem noCircles_diamond : NoCircles diamond default "root" := by
  refine noCircles_of_rank default "root" ["shared", "left", "right", "root"].idxOf ?_
  simp [diamond, handOver, Payload.child?]

/-- The group of either child is there, and every group with the common child is filled. -/
theorem complete_diamond : NoCircles diamond default "root" ∧
    "left-shared" ∈ (treeOfEvents "root" diamond default).groups.keys ∧
    "right-shared" ∈ (treeOfEvents "root" diamond default).groups.keys ∧
    ∀ id g, (treeOfEvents "root" diamond default).groups.get? id = some g →
      g.child = some "shared" → g.hydrated = true := by
  have hrows : ∀ session timeline, Timeline.admitted session diamond = timeline →
      RowSet.ofEvents session diamond default
        = RowSet.ofTimeline session (Timeline.fill default 0 timeline) default := by
    rintro session _ rfl
    rfl
  have hroot := hrows "root" _ (Timeline.admitted_eq_filter (by decide))
  have hleft := hrows "left" _ (Timeline.admitted_eq_filter (by decide))
  have hright := hrows "right" _ (Timeline.admitted_eq_filter (by decide))
  have hshared := hrows "shared" _ (Timeline.admitted_eq_filter (by decide))
  obtain ⟨hkeys, hfilled⟩ := complete_treeOfEvents noCircles_diamond
  refine ⟨noCircles_diamond, (hkeys _).mpr ⟨"left", .single (mem_children_iff.mp ?_), ?_⟩,
    (hkeys _).mpr ⟨"right", .single (mem_children_iff.mp ?_), ?_⟩,
    fun id g hg hchild ↦ hfilled id g "shared" hg hchild ?_⟩
  · rw [hroot]
    decide
  · change _ ∈ (RowSet.ofEvents "left" diamond default).groups.keys
    rw [hleft]
    decide
  · rw [hroot]
    decide
  · change _ ∈ (RowSet.ofEvents "right" diamond default).groups.keys
    rw [hright]
    decide
  · change (RowSet.ofEvents "shared" diamond default).rows ≠ []
    rw [hshared]
    exact List.cons_ne_nil _ _

end SessionView

end SessionReplay
