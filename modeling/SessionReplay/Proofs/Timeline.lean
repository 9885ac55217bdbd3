import Mathlib.Data.List.Sort
import SessionReplay.Timeline

/-!
# What a timeline holds

The events of a timeline come out of a sort and a gate. Which ones they are can be said without
either: an event is admitted exactly if it is the first that was delivered for its session with its
number, `mem_admitted_iff`. The numbers rise strictly, so this leaves no freedom:
`admitted_eq_of_mem_iff`.

## Why look-ups and not permutations

Deliveries may be reordered, repeated and mixed with other sessions, and a sort is stable only among
equal numbers. All of this is invisible to a look-up by session and number, so two timelines are
compared by what is looked up, never by how their lists came about.
-/

namespace SessionReplay

/-- The first event that was delivered for a session with a number. -/
def firstDelivered? (session : String) (n : UInt64) (events : List Event) : Option Event :=
  events.find? fun e ↦ e.session == session && e.sequence == n

namespace Timeline

/-! ## The sort -/

/-- A stable sort keeps the order of elements that it need not tell apart. -/
theorem filter_mergeSort {α : Type} {le : α → α → Bool} (p : α → Bool)
    (trans : ∀ a b c, le a b = true → le b c = true → le a c = true)
    (total : ∀ a b, (le a b || le b a) = true)
    (hp : ∀ a b, p a = true → p b = true → le a b = true) (xs : List α) :
    (xs.mergeSort le).filter p = xs.filter p := by
  have hsorted : (xs.filter p).Pairwise fun a b ↦ le a b = true :=
    List.pairwise_of_forall_mem_list fun a ha b hb ↦
      hp a b (List.mem_filter.mp ha).2 (List.mem_filter.mp hb).2
  have hsub : (xs.filter p).Sublist (xs.mergeSort le) :=
    List.sublist_mergeSort trans total hsorted List.filter_sublist
  have hsub' := hsub.filter p
  simp only [List.filter_filter, Bool.and_self] at hsub'
  refine (hsub'.eq_of_length ?_).symm
  exact ((List.mergeSort_perm xs le).filter p).length_eq.symm

/-- The order of the sort: by number alone. -/
def comesBefore (a b : Event) : Bool := a.sequence ≤ b.sequence

theorem comesBefore_iff {a b : Event} : comesBefore a b = true ↔ a.sequence ≤ b.sequence := by
  rw [comesBefore, decide_eq_true_iff]

theorem comesBefore_trans (a b c : Event) (hab : comesBefore a b = true)
    (hbc : comesBefore b c = true) : comesBefore a c = true := by
  rw [comesBefore_iff] at *
  exact UInt64.le_trans hab hbc

theorem comesBefore_total (a b : Event) : (comesBefore a b || comesBefore b a) = true := by
  rw [Bool.or_eq_true, comesBefore_iff, comesBefore_iff]
  exact UInt64.le_total _ _

private theorem find?_sequence_mergeSort (n : UInt64) (events : List Event) :
    (events.mergeSort comesBefore).find? (fun e ↦ e.sequence == n)
      = events.find? fun e ↦ e.sequence == n := by
  have hp : ∀ a b : Event, (a.sequence == n) = true → (b.sequence == n) = true →
      comesBefore a b = true := by
    intro a b ha hb
    rw [comesBefore_iff, beq_iff_eq.mp ha, beq_iff_eq.mp hb]
    exact UInt64.le_refl n
  rw [← List.head?_filter, filter_mergeSort _ comesBefore_trans comesBefore_total hp,
    List.head?_filter]

/-! ## The gate -/

/-- Of sorted events, the gate lets through the first one of every number above the mark. -/
theorem mem_rising_iff {mark : Option UInt64} {events : List Event} {e : Event}
    (hsorted : events.Pairwise fun a b ↦ comesBefore a b = true) :
    e ∈ rising mark events ↔ isAbove mark e.sequence = true ∧
      events.find? (fun x ↦ x.sequence == e.sequence) = some e := by
  induction events generalizing mark with
  | nil => simp [rising]
  | cons x rest ih =>
    obtain ⟨hx, hrest⟩ := List.pairwise_cons.mp hsorted
    have hle : ∀ y ∈ rest, x.sequence ≤ y.sequence := fun y hy ↦ comesBefore_iff.mp (hx y hy)
    rw [rising]
    by_cases hsame : x.sequence = e.sequence
    · -- the first event with the number: it is `x`, and the raised mark stops all later ones
      rw [List.find?_cons_of_pos (by simpa using hsame)]
      split
      · next habove =>
        rw [List.mem_cons, ih hrest]
        constructor
        · rintro (rfl | ⟨hlt, -⟩)
          · exact ⟨habove, rfl⟩
          · rw [isAbove, hsame, decide_eq_true_iff] at hlt
            exact absurd hlt (UInt64.lt_irrefl _)
        · rintro ⟨-, heq⟩
          exact Or.inl (Option.some.inj heq).symm
      · next habove =>
        rw [ih hrest]
        constructor
        · rintro ⟨he, -⟩
          exact absurd (hsame ▸ he) habove
        · rintro ⟨he, -⟩
          exact absurd (hsame ▸ he) habove
    · rw [List.find?_cons_of_neg (by simpa using hsame)]
      have hne : e ≠ x := fun h ↦ hsame (h ▸ rfl)
      split
      · next habove =>
        rw [List.mem_cons, or_iff_right hne, ih hrest]
        refine and_congr_left fun hfind ↦ ?_
        have hmem : e ∈ rest := List.mem_of_find?_eq_some hfind
        have hlt : x.sequence < e.sequence :=
          UInt64.lt_of_le_of_ne (hle e hmem) hsame
        refine ⟨fun _ ↦ ?_, fun _ ↦ by simpa [isAbove] using hlt⟩
        cases mark with
        | none => rfl
        | some high =>
          simp only [isAbove, decide_eq_true_eq] at habove ⊢
          exact UInt64.lt_trans habove hlt
      · exact ih hrest

/-! ## Admitted events -/

theorem find?_filter_session (session : String) (n : UInt64) (events : List Event) :
    (events.filter fun e ↦ e.session == session).find? (fun e ↦ e.sequence == n)
      = firstDelivered? session n events := by
  rw [List.find?_filter, firstDelivered?]
  refine congrArg (List.find? · events) (funext fun e ↦ ?_)
  rw [Bool.eq_iff_iff]
  simp

/-- **Admission.** An event is in the timeline of a session exactly if it is the first that was
delivered for the session with its number. -/
theorem mem_admitted_iff {session : String} {events : List Event} {e : Event} :
    e ∈ admitted session events ↔ firstDelivered? session e.sequence events = some e := by
  have hsorted := List.pairwise_mergeSort comesBefore_trans comesBefore_total
    (events.filter fun e ↦ e.session == session)
  rw [← find?_filter_session, ← find?_sequence_mergeSort]
  exact (mem_rising_iff hsorted).trans (and_iff_right rfl)

theorem pairwise_admitted (session : String) (events : List Event) :
    (admitted session events).Pairwise fun a b ↦ a.sequence < b.sequence :=
  pairwise_rising _ _

/-- Things with strictly rising numbers are known once it is known which they are. -/
theorem eq_of_mem_iff {α : Type} {number : α → UInt64} {xs ys : List α}
    (hxs : xs.Pairwise fun a b ↦ number a < number b)
    (hys : ys.Pairwise fun a b ↦ number a < number b) (h : ∀ x, x ∈ xs ↔ x ∈ ys) : xs = ys := by
  have : Std.Irrefl fun a b : α ↦ number a < number b := ⟨fun a ↦ UInt64.lt_irrefl _⟩
  have : Std.Antisymm fun a b : α ↦ number a < number b :=
    ⟨fun a b hab hba ↦ absurd (UInt64.lt_trans hab hba) (UInt64.lt_irrefl _)⟩
  exact hxs.eq_of_mem_iff hys h

theorem admitted_eq_of_mem_iff {session : String} {events xs : List Event}
    (hxs : xs.Pairwise fun a b ↦ a.sequence < b.sequence)
    (h : ∀ e, e ∈ xs ↔ firstDelivered? session e.sequence events = some e) :
    admitted session events = xs :=
  eq_of_mem_iff (pairwise_admitted session events) hxs fun e ↦ mem_admitted_iff.trans (h e).symm

theorem mem_of_firstDelivered? {session : String} {n : UInt64} {events : List Event} {e : Event}
    (h : firstDelivered? session n events = some e) :
    e ∈ events ∧ e.session = session ∧ e.sequence = n := by
  have hp := List.find?_some h
  rw [Bool.and_eq_true, beq_iff_eq, beq_iff_eq] at hp
  exact ⟨List.mem_of_find?_eq_some h, hp.1, hp.2⟩

theorem mem_of_mem_admitted {session : String} {events : List Event} {e : Event}
    (h : e ∈ admitted session events) : e ∈ events ∧ e.session = session :=
  have h := mem_of_firstDelivered? (mem_admitted_iff.mp h)
  ⟨h.1, h.2.1⟩

/-- Events of one session that come in the order of their numbers are admitted as they are. -/
theorem admitted_eq_self {session : String} {events : List Event}
    (hsession : ∀ e ∈ events, e.session = session)
    (hrising : events.Pairwise fun a b ↦ a.sequence < b.sequence) :
    admitted session events = events := by
  refine admitted_eq_of_mem_iff hrising fun e ↦ ⟨fun he ↦ ?_, fun h ↦ ?_⟩
  · obtain ⟨before, after, rfl⟩ := List.append_of_mem he
    rw [List.pairwise_append] at hrising
    have hne : ∀ x ∈ before, x.sequence ≠ e.sequence := fun x hx ↦
      UInt64.ne_of_lt (hrising.2.2 x hx e List.mem_cons_self)
    rw [firstDelivered?, List.find?_append, List.find?_eq_none.mpr, Option.none_or,
      List.find?_cons_of_pos]
    · simp [hsession e he]
    · intro x hx
      simp [hne x hx]
  · exact (mem_of_firstDelivered? h).1

/-- The events of one session may come in the order of their numbers among others. -/
theorem admitted_eq_filter {session : String} {events : List Event}
    (h : (events.filter fun e ↦ e.session == session).Pairwise
      fun a b ↦ a.sequence < b.sequence) :
    admitted session events = events.filter fun e ↦ e.session == session := by
  have hsame : admitted session events
      = admitted session (events.filter fun e ↦ e.session == session) := by
    rw [admitted, admitted, List.filter_filter]
    simp only [Bool.and_self]
  rw [hsame]
  exact admitted_eq_self (fun e he ↦ eq_of_beq (List.mem_filter.mp he).2) h

/-- Events above all others of their session come after them. -/
theorem admitted_append_of_above {session : String} {events later : List Event}
    (habove : ∀ x ∈ events, ∀ y ∈ later, x.session = session → y.session = session →
      x.sequence < y.sequence) :
    admitted session (events ++ later) = admitted session events ++ admitted session later := by
  refine admitted_eq_of_mem_iff ?_ fun x ↦ ?_
  · refine List.pairwise_append.mpr ⟨pairwise_admitted _ _, pairwise_admitted _ _, ?_⟩
    intro x hx y hy
    obtain ⟨hx, hxsession⟩ := mem_of_mem_admitted hx
    obtain ⟨hy, hysession⟩ := mem_of_mem_admitted hy
    exact habove x hx y hy hxsession hysession
  · have happend : firstDelivered? session x.sequence (events ++ later) =
        (firstDelivered? session x.sequence events).or
          (firstDelivered? session x.sequence later) := List.find?_append
    rw [List.mem_append, mem_admitted_iff, mem_admitted_iff, happend]
    cases hfind : firstDelivered? session x.sequence events with
    | none => simp
    | some y =>
      -- a number that was delivered before is below all later ones
      rw [Option.some_or, or_iff_left]
      intro hlater
      obtain ⟨hy, hysession, hyn⟩ := mem_of_firstDelivered? hfind
      obtain ⟨hx, hxsession, -⟩ := mem_of_firstDelivered? hlater
      have hlt := habove y hy x hx hysession hxsession
      rw [hyn] at hlt
      exact UInt64.lt_irrefl _ hlt

/-! ## Events chosen by number -/

private theorem firstDelivered?_filter (session : String) (n : UInt64) (p : UInt64 → Bool)
    (events : List Event) :
    firstDelivered? session n (events.filter fun e ↦ p e.sequence)
      = if p n then firstDelivered? session n events else none := by
  rw [firstDelivered?, List.find?_filter]
  split
  · next hn =>
    refine congrArg (List.find? · events) (funext fun e ↦ ?_)
    rw [Bool.eq_iff_iff]
    simp only [Bool.and_eq_true, beq_iff_eq, decide_eq_true_eq, and_iff_right_iff_imp]
    rintro ⟨-, rfl⟩
    exact hn
  · next hn =>
    refine List.find?_eq_none.mpr fun e _ ↦ ?_
    simp only [Bool.and_eq_true, beq_iff_eq, decide_eq_true_eq, not_and]
    rintro he - rfl
    exact hn he

/-- Whether an event is admitted depends on the events with its number only. -/
theorem admitted_filter (session : String) (p : UInt64 → Bool) (events : List Event) :
    admitted session (events.filter fun e ↦ p e.sequence)
      = (admitted session events).filter fun e ↦ p e.sequence := by
  refine admitted_eq_of_mem_iff ((pairwise_admitted session events).filter _) fun e ↦ ?_
  rw [List.mem_filter, mem_admitted_iff, firstDelivered?_filter]
  split
  · next he => exact and_iff_left he
  · next he => exact iff_of_false (fun h ↦ he h.2) fun h ↦ by cases h

/-- The events with numbers below a bound come before all others. -/
theorem admitted_eq_append (session : String) (events : List Event) (n : UInt64) :
    admitted session events = admitted session (events.filter fun e ↦ e.sequence < n)
      ++ admitted session (events.filter fun e ↦ n ≤ e.sequence) := by
  rw [admitted_filter session (· < n), admitted_filter session (n ≤ ·)]
  have hrising := pairwise_admitted session events
  refine eq_of_mem_iff hrising ?_ fun e ↦ ?_
  · refine List.pairwise_append.mpr ⟨hrising.filter _, hrising.filter _, fun x hx y hy ↦ ?_⟩
    have hx : x.sequence < n := of_decide_eq_true (List.mem_filter.mp hx).2
    have hy : n ≤ y.sequence := of_decide_eq_true (List.mem_filter.mp hy).2
    exact UInt64.lt_of_lt_of_le hx hy
  · rw [List.mem_append, List.mem_filter, List.mem_filter, ← and_or_left, decide_eq_true_iff,
      decide_eq_true_iff, ← UInt64.not_lt, and_iff_left (Decidable.em _)]

/-! ## Entries -/

@[simp] theorem map_event_fill (options : Options) (before : Instant) (events : List Event) :
    (fill options before events).map Entry.event = events := by
  induction events generalizing before with
  | nil => rfl
  | cons e rest ih => rw [fill, List.map_cons, ih]

theorem pairwise_ofEvents (session : String) (events : List Event) (options : Options) :
    (ofEvents session events options).Pairwise fun a b ↦ a.sequence < b.sequence := by
  have h := pairwise_admitted session events
  rw [← map_event_fill options 0 (admitted session events), List.pairwise_map] at h
  exact h

/-- The entries of a timeline are made of the events that it admits. -/
theorem event_mem_admitted {session : String} {events : List Event} {options : Options} {x : Entry}
    (hx : x ∈ ofEvents session events options) : x.event ∈ admitted session events := by
  rw [← map_event_fill options 0 (admitted session events)]
  exact List.mem_map_of_mem hx

theorem exists_fill_append (options : Options) (before : Instant) (events later : List Event) :
    ∃ entries : List Entry, fill options before (events ++ later)
      = fill options before events ++ entries := by
  induction events generalizing before with
  | nil => exact ⟨fill options before later, rfl⟩
  | cons e rest ih =>
    obtain ⟨entries, hentries⟩ := ih (e.time.getD before)
    exact ⟨entries, by rw [List.cons_append, fill, fill, hentries, List.cons_append]⟩

theorem of_mem_ofEvents_filter {session : String} {p : UInt64 → Bool} {events : List Event}
    {options : Options} {x : Entry}
    (hx : x ∈ ofEvents session (events.filter fun e ↦ p e.sequence) options) :
    p x.sequence = true :=
  (List.mem_filter.mp (mem_of_mem_admitted (event_mem_admitted hx)).1).2

/-- The entries with numbers below a bound are those of the events with numbers below it. -/
theorem exists_ofEvents_eq_append (session : String) (events : List Event) (options : Options)
    (n : UInt64) :
    ∃ entries : List Entry, ofEvents session events options
      = ofEvents session (events.filter fun e ↦ e.sequence < n) options ++ entries ∧
      ∀ x ∈ entries, n ≤ x.sequence := by
  obtain ⟨entries, hentries⟩ := exists_fill_append options 0
    (admitted session (events.filter fun e ↦ e.sequence < n))
    (admitted session (events.filter fun e ↦ n ≤ e.sequence))
  have hlater : entries.map Entry.event
      = admitted session (events.filter fun e ↦ n ≤ e.sequence) := by
    have hmap := congrArg (List.map Entry.event) hentries
    rw [List.map_append, map_event_fill, map_event_fill] at hmap
    exact (List.append_cancel_left hmap).symm
  refine ⟨entries, by rw [ofEvents, admitted_eq_append session events n, hentries, ofEvents],
    fun x hx ↦ ?_⟩
  have hevent : x.event ∈ admitted session (events.filter fun e ↦ n ≤ e.sequence) :=
    hlater ▸ List.mem_map_of_mem hx
  exact of_decide_eq_true (List.mem_filter.mp (mem_of_mem_admitted hevent).1).2

/-- Events above all others of their session only add entries at the end of the timeline. -/
theorem exists_ofEvents_append_of_above {session : String} {events later : List Event}
    (options : Options)
    (habove : ∀ x ∈ events, ∀ y ∈ later, x.session = session → y.session = session →
      x.sequence < y.sequence) :
    ∃ entries : List Entry, ofEvents session (events ++ later) options
      = ofEvents session events options ++ entries := by
  rw [ofEvents, ofEvents, admitted_append_of_above habove]
  exact exists_fill_append _ _ _ _

end Timeline

end SessionReplay
