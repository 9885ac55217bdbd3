import SessionReplay.Proofs.EventStore.Batch
import SessionReplay.Proofs.Text.ByteOrder

/-!
# Which session is shown

Who asks for a session is shown it if the store holds events of it. Who asks for none is shown a
root, a session that no fork names as its child, and of several roots the first one in byte order.
Forks may be strange: a session may fork itself, two sessions may fork each other, a child may have
no events. Only if that leaves no root is the first of all sessions shown:
`EventStore.choosesFirst_run`.

The sessions are listed in order, so the first one that is found is the first one there is,
`find?_eq_some_iff_isFirst`. It has something to show since no session is listed without events.
-/

namespace SessionReplay

/-- In byte order, a text comes before all others with a property. -/
def IsFirst (p : String → Prop) (s : String) : Prop :=
  p s ∧ ∀ t, p t → t ≠ s → Text.bytes s < Text.bytes t

theorem isFirst_congr {p q : String → Prop} (h : ∀ s, p s ↔ q s) {s : String} :
    IsFirst p s ↔ IsFirst q s := by
  rw [funext fun s ↦ propext (h s)]

/-- In a list in order, the first text that is found is the first one there is. -/
theorem find?_eq_some_iff_isFirst {xs : List String} (h : xs.Pairwise (· < ·)) (p : String → Bool)
    {s : String} : xs.find? p = some s ↔ IsFirst (fun t ↦ t ∈ xs ∧ p t = true) s := by
  rw [List.find?_eq_some_iff_append]
  constructor
  · rintro ⟨hs, before, after, rfl, hbefore⟩
    refine ⟨⟨List.mem_append_right _ List.mem_cons_self, hs⟩, fun t ⟨ht, hpt⟩ hne ↦ ?_⟩
    have hafter := (List.pairwise_cons.mp (List.pairwise_append.mp h).2.1).1
    rcases List.mem_append.mp ht with ht | ht
    · exact absurd hpt (by simpa using hbefore t ht)
    · rcases List.mem_cons.mp ht with rfl | ht
      · exact absurd rfl hne
      · exact Text.bytes_lt_bytes (hafter t ht)
  · rintro ⟨⟨hmem, hs⟩, hfirst⟩
    obtain ⟨before, after, rfl⟩ := List.append_of_mem hmem
    refine ⟨hs, before, after, rfl, fun t ht ↦ ?_⟩
    have hlt : t < s := (List.pairwise_append.mp h).2.2 t ht s List.mem_cons_self
    cases hpt : p t with
    | false => rfl
    | true =>
      have hgt := hfirst t ⟨List.mem_append_left _ ht, hpt⟩ (String.ne_of_lt hlt)
      exact absurd hlt (String.lt_asymm (Text.bytes_lt_bytes_iff.mp hgt))

namespace EventStore

/-- A store holds events of a session. -/
def Holds (s : EventStore) (session : String) : Prop := ∃ e, e ∈ s.events session

/-- A fork names a session as its child, whichever session it is a fork of. -/
def IsChild (s : EventStore) (session : String) : Prop :=
  ∃ parent, ∃ e ∈ s.events parent, ∃ delegation, e.payload = .sessionForked session delegation

/-- A store holds events of a session, and no fork that names it as its child. -/
def IsRoot (s : EventStore) (session : String) : Prop := s.Holds session ∧ ¬s.IsChild session

/-- Which session a store has to show. -/
structure ChoosesFirst (s : EventStore) : Prop where
  mem_sessions_iff : ∀ session, session ∈ s.sessions ↔ s.Holds session
  choose_none_error_iff : ∀ why, s.choose none = .error why ↔ why = .emptyLog ∧ s.allEvents = []
  holds_of_choose_none : ∀ session, s.choose none = .ok session → s.Holds session
  choose_none_of_root : (∃ root, s.IsRoot root) → ∀ session,
    s.choose none = .ok session ↔ IsFirst s.IsRoot session
  choose_none_of_no_root : (¬∃ root, s.IsRoot root) → ∀ session,
    s.choose none = .ok session ↔ IsFirst s.Holds session
  choose_some_ok_iff : ∀ requested session, s.choose (some requested) = .ok session ↔
    session = requested ∧ s.Holds requested
  choose_some_error_iff : ∀ requested why, s.choose (some requested) = .error why ↔
    why = .withoutEvents requested ∧ ¬s.Holds requested

variable {s : EventStore} {session requested : String} {why : NoSession}

theorem pairwise_sessions (s : EventStore) : s.sessions.Pairwise (· < ·) :=
  List.pairwise_map.mpr s.histories.sorted

private theorem child?_eq_some_iff {p : Payload} {child : String} :
    p.child? = some child ↔ ∃ delegation, p = .sessionForked child delegation := by
  cases p <;> simp [Payload.child?, eq_comm]

theorem NoneEmpty.mem_forkedSessions_iff (h : s.NoneEmpty) :
    session ∈ forkedSessions s.allEvents ↔ s.IsChild session := by
  simp only [forkedSessions, List.mem_filterMap, allEvents_eq_flatMap, List.mem_flatMap,
    child?_eq_some_iff, h.mem_sessions_iff]
  constructor
  · rintro ⟨e, ⟨parent, -, he⟩, hchild⟩
    exact ⟨parent, e, he, hchild⟩
  · rintro ⟨parent, e, he, hchild⟩
    exact ⟨e, ⟨parent, ⟨e, he⟩, he⟩, hchild⟩

theorem NoneEmpty.isRoot_iff (h : s.NoneEmpty) : s.IsRoot session ↔
    session ∈ s.sessions ∧ (!(forkedSessions s.allEvents).contains session) = true := by
  rw [IsRoot, Holds, h.mem_sessions_iff, Bool.not_eq_true', ← Bool.not_eq_true,
    List.contains_iff_mem, h.mem_forkedSessions_iff]

theorem NoneEmpty.root?_of_root (h : s.NoneEmpty) (hroot : ∃ root, s.IsRoot root) :
    s.root? = some session ↔ IsFirst s.IsRoot session := by
  have hfound : (s.sessions.find? fun t ↦ !(forkedSessions s.allEvents).contains t).isSome := by
    obtain ⟨root, hroot⟩ := hroot
    exact List.find?_isSome.mpr ⟨root, h.isRoot_iff.mp hroot⟩
  rw [root?, Option.or_of_isSome hfound, find?_eq_some_iff_isFirst s.pairwise_sessions]
  exact isFirst_congr fun t ↦ h.isRoot_iff.symm

theorem NoneEmpty.root?_of_no_root (h : s.NoneEmpty) (hroot : ¬∃ root, s.IsRoot root) :
    s.root? = some session ↔ IsFirst s.Holds session := by
  have hnone : (s.sessions.find? fun t ↦ !(forkedSessions s.allEvents).contains t) = none :=
    List.find?_eq_none.mpr fun t ht hnot ↦ hroot ⟨t, h.isRoot_iff.mpr ⟨ht, hnot⟩⟩
  have hhead : s.sessions.head? = s.sessions.find? fun _ ↦ true := by
    cases s.sessions <;> rfl
  rw [root?, hnone, Option.none_or, hhead, find?_eq_some_iff_isFirst s.pairwise_sessions]
  exact isFirst_congr fun t ↦ (and_iff_left rfl).trans h.mem_sessions_iff

theorem NoneEmpty.holds_of_root?_eq_some (h : s.NoneEmpty) (hs : s.root? = some session) :
    s.Holds session := by
  by_cases hroot : ∃ root, s.IsRoot root
  · exact ((h.root?_of_root hroot).mp hs).1.1
  · exact ((h.root?_of_no_root hroot).mp hs).1

theorem NoneEmpty.root?_eq_none_iff (h : s.NoneEmpty) : s.root? = none ↔ s.allEvents = [] := by
  rw [allEvents_eq_flatMap]
  constructor
  · intro hnone
    rw [root?, Option.or_eq_none_iff, List.head?_eq_none_iff] at hnone
    rw [hnone.2, List.flatMap_nil]
  · intro hempty
    refine Option.eq_none_iff_forall_ne_some.mpr fun session hs ↦ ?_
    obtain ⟨e, he⟩ := h.holds_of_root?_eq_some hs
    have hlisted := h.mem_sessions_iff.mpr ⟨e, he⟩
    exact List.ne_nil_of_mem (List.mem_flatMap.mpr ⟨session, hlisted, he⟩) hempty

/-! ## The answer -/

private theorem choose_none_ok_iff : s.choose none = .ok session ↔ s.root? = some session := by
  rw [choose]
  cases s.root? <;> simp

private theorem choose_none_error_iff :
    s.choose none = .error why ↔ why = .emptyLog ∧ s.root? = none := by
  rw [choose]
  cases s.root? <;> simp [eq_comm]

theorem holds_iff : s.Holds session ↔ (s.events session).isEmpty = false :=
  List.isEmpty_eq_false_iff_exists_mem.symm

private theorem choose_some_ok_iff :
    s.choose (some requested) = .ok session ↔ session = requested ∧ s.Holds requested := by
  rw [choose, holds_iff]
  cases (s.events requested).isEmpty <;> simp [eq_comm]

private theorem choose_some_error_iff : s.choose (some requested) = .error why ↔
    why = .withoutEvents requested ∧ ¬s.Holds requested := by
  rw [choose, holds_iff]
  cases (s.events requested).isEmpty <;> simp [eq_comm]

private theorem noneEmpty_run (intakes : List Intake) : (run intakes).NoneEmpty :=
  (orderly_run intakes).noneEmpty

/-- **The choice of a session.** Whatever a store was given, it chooses the first of the roots, and
the first of all sessions if there is no root. -/
theorem choosesFirst_run (intakes : List Intake) : (run intakes).ChoosesFirst where
  mem_sessions_iff _ := (noneEmpty_run intakes).mem_sessions_iff
  choose_none_error_iff _ := by
    rw [choose_none_error_iff, (noneEmpty_run intakes).root?_eq_none_iff]
  holds_of_choose_none _ hs :=
    (noneEmpty_run intakes).holds_of_root?_eq_some (choose_none_ok_iff.mp hs)
  choose_none_of_root hroot _ :=
    choose_none_ok_iff.trans ((noneEmpty_run intakes).root?_of_root hroot)
  choose_none_of_no_root hroot _ :=
    choose_none_ok_iff.trans ((noneEmpty_run intakes).root?_of_no_root hroot)
  choose_some_ok_iff _ _ := choose_some_ok_iff
  choose_some_error_iff _ _ := choose_some_error_iff

end EventStore

end SessionReplay
