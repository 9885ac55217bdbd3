import Mathlib.Data.List.Basic
import Mathlib.Data.List.Induction
import SessionReplay.Turn

/-!
# The model of a turn

A model may change while a turn is under way, and changes are not told in the order of their times.
The turn has the model of the latest change within it. If there is none it has that of the latest
change before it, and if there is none either its model is not known:
`ModelChange.inForce_effective?`.

## Changes at one time

Of several changes at one time the first in the list counts, so the latest change is a matter of the
list and not only of the times in it. `ModelChange.IsLatest` says which one it is by what stands
before it and what stands after it, and there is at most one, `ModelChange.IsLatest.unique`.

## One pass

The model of a turn can be found as the changes go by. A pass over them holds two changes: the
latest one so far within the turn, and the latest one so far that is not after its start. At the end
the first of the two counts, if there is one: `ModelChange.effective?_eq_scan`.
-/

namespace SessionReplay

namespace ModelChange

/-! ## The latest change -/

/-- Of some of the changes, a change is the latest. Those at its time stand after it. -/
def IsLatest (p : ModelChange → Prop) (changes : List ModelChange) (c : ModelChange) : Prop :=
  p c ∧ ∃ before after, changes = before ++ c :: after ∧
    (∀ b ∈ before, p b → b.time < c.time) ∧ ∀ a ∈ after, p a → a.time ≤ c.time

variable {p : ModelChange → Prop} {changes : List ModelChange} {c d : ModelChange}

namespace IsLatest

theorem mem (h : IsLatest p changes c) : c ∈ changes := by
  obtain ⟨-, before, after, rfl, -, -⟩ := h
  exact List.mem_append_right _ List.mem_cons_self

theorem time_le (h : IsLatest p changes c) (hd : d ∈ changes) (hpd : p d) : d.time ≤ c.time := by
  obtain ⟨-, before, after, rfl, hbefore, hafter⟩ := h
  rcases List.mem_append.mp hd with hd | hd
  · exact Int64.le_of_lt (hbefore d hd hpd)
  · rcases List.mem_cons.mp hd with rfl | hd
    · exact Int64.le_refl _
    · exact hafter d hd hpd

theorem unique (hc : IsLatest p changes c) (hd : IsLatest p changes d) : c = d := by
  have hcd := hd.time_le hc.mem hc.1
  have hdc := hc.time_le hd.mem hd.1
  obtain ⟨hpc, before, after, hsplit, hbefore, -⟩ := hc
  obtain ⟨hpd, before', after', hsplit', hbefore', -⟩ := hd
  rw [hsplit, List.append_eq_append_iff] at hsplit'
  -- one of the two stands first, and the other is no earlier
  rcases hsplit' with ⟨between, rfl, htail⟩ | ⟨between, rfl, htail⟩
  · cases between with
    | nil => exact (List.cons.inj htail).1
    | cons x between =>
      obtain ⟨rfl, -⟩ := List.cons.inj htail
      have hlt := hbefore' c (List.mem_append_right _ List.mem_cons_self) hpc
      exact absurd hlt (Int64.not_lt.mpr hdc)
  · cases between with
    | nil => exact (List.cons.inj htail).1.symm
    | cons x between =>
      obtain ⟨rfl, -⟩ := List.cons.inj htail
      have hlt := hbefore d (List.mem_append_right _ List.mem_cons_self) hpd
      exact absurd hlt (Int64.not_lt.mpr hcd)

/-- A change at the end that is no later, or does not count, leaves the latest one as it is. -/
theorem concat (h : IsLatest p changes c) (hd : p d → d.time ≤ c.time) :
    IsLatest p (changes ++ [d]) c := by
  obtain ⟨hpc, before, after, rfl, hbefore, hafter⟩ := h
  refine ⟨hpc, before, after ++ [d], by rw [List.append_assoc, List.cons_append], hbefore, ?_⟩
  intro a ha hpa
  rcases List.mem_append.mp ha with ha | ha
  · exact hafter a ha hpa
  · obtain rfl := List.mem_singleton.mp ha
    exact hd hpa

theorem concat_self (hc : p c) (hbefore : ∀ b ∈ changes, p b → b.time < c.time) :
    IsLatest p (changes ++ [c]) c :=
  ⟨hc, changes, [], rfl, hbefore, fun _ ha ↦ absurd ha List.not_mem_nil⟩

end IsLatest

/-- A change, or the one that is held if the change is no later. -/
def later (held : Option ModelChange) (c : ModelChange) : Option ModelChange :=
  match held with
  | some b => if b.time < c.time then some c else some b
  | none => some c

private theorem later_ne_none (held : Option ModelChange) (c : ModelChange) :
    later held c ≠ none := by
  unfold later
  split
  · split <;> exact Option.some_ne_none _
  · exact Option.some_ne_none _

theorem latest?_concat (changes : List ModelChange) (c : ModelChange) :
    latest? (changes ++ [c]) = later (latest? changes) c :=
  List.foldl_concat _ _ _ _

/-- A change at the end counts among those of a kind if it is of that kind. -/
theorem latest?_filter_concat (p : ModelChange → Bool) (changes : List ModelChange)
    (c : ModelChange) : latest? ((changes ++ [c]).filter p) =
      if p c = true then later (latest? (changes.filter p)) c else latest? (changes.filter p) := by
  rw [List.filter_append]
  split
  · next hc => rw [List.filter_cons_of_pos hc, List.filter_nil, latest?_concat]
  · next hc => rw [List.filter_cons_of_neg hc, List.filter_nil, List.append_nil]

private theorem latest?_eq_none_iff : latest? changes = none ↔ changes = [] := by
  refine ⟨fun h ↦ ?_, fun h ↦ h ▸ rfl⟩
  rcases List.eq_nil_or_concat changes with rfl | ⟨before, c, rfl⟩
  · rfl
  · rw [List.concat_eq_append, latest?_concat] at h
    exact absurd h (later_ne_none _ c)

theorem latest?_filter_eq_none_iff {p : ModelChange → Bool} :
    latest? (changes.filter p) = none ↔ ∀ c ∈ changes, ¬p c = true := by
  rw [latest?_eq_none_iff, List.filter_eq_nil_iff]

private theorem isLatest_of_latest?_filter {p : ModelChange → Bool}
    (h : latest? (changes.filter p) = some c) : IsLatest (p · = true) changes c := by
  induction changes using List.reverseRecOn generalizing c with
  | nil => cases h
  | append_singleton before d ih =>
    rw [latest?_filter_concat] at h
    by_cases hd : p d = true
    · rw [if_pos hd] at h
      cases hbest : latest? (before.filter p) with
      | none =>
        rw [hbest] at h
        obtain rfl := Option.some.inj h
        have hnone := latest?_filter_eq_none_iff.mp hbest
        exact IsLatest.concat_self hd fun b hb hpb ↦ absurd hpb (hnone b hb)
      | some b =>
        have hb := ih hbest
        rw [hbest, later] at h
        split at h
        · next hlt =>
          obtain rfl := Option.some.inj h
          exact IsLatest.concat_self hd fun x hx hpx ↦
            Int64.lt_of_le_of_lt (hb.time_le hx hpx) hlt
        · next hle =>
          obtain rfl := Option.some.inj h
          exact hb.concat fun _ ↦ Int64.not_lt.mp hle
    · rw [if_neg hd] at h
      exact (ih h).concat fun hpd ↦ absurd hpd hd

private theorem latest?_filter_eq_some_iff {p : ModelChange → Bool} :
    latest? (changes.filter p) = some c ↔ IsLatest (p · = true) changes c := by
  refine ⟨isLatest_of_latest?_filter, fun h ↦ ?_⟩
  cases hbest : latest? (changes.filter p) with
  | none => exact absurd h.1 (latest?_filter_eq_none_iff.mp hbest c h.mem)
  | some b => rw [(isLatest_of_latest?_filter hbest).unique h]

/-! ## The model in force -/

/-- A change lies within a turn: after its start, and before the next turn if there is one. -/
def LiesWithin (start : Instant) (next : Option Instant) (c : ModelChange) : Prop :=
  start < c.time ∧ ∀ bound, next = some bound → c.time < bound

private theorem isWithin_iff {start : Instant} {next : Option Instant} :
    isWithin start next c = true ↔ LiesWithin start next c := by
  rw [isWithin, LiesWithin, Bool.and_eq_true, decide_eq_true_iff]
  cases next <;> simp

/-- What the model of a turn should be, if it starts and the next one starts at given times. The
next turn may even start before it, and then no change lies within. -/
structure InForce (changes : List ModelChange) (start : Instant) (next : Option Instant)
    (model : Option ModelLabel) : Prop where
  /-- The model is that of the latest change within the turn, or else of the latest one that is not
  after its start. -/
  eq_some_iff : ∀ label, model = some label ↔
    (∃ c, IsLatest (LiesWithin start next) changes c ∧ c.label = label) ∨
      (∀ c ∈ changes, ¬LiesWithin start next c) ∧
        ∃ c, IsLatest (fun c ↦ c.time ≤ start) changes c ∧ c.label = label
  /-- It is not known only if there are no such changes. -/
  eq_none_iff : model = none ↔
    (∀ c ∈ changes, ¬LiesWithin start next c) ∧ ∀ c ∈ changes, ¬c.time ≤ start

/-- **Models.** The model of a turn is the one in force. -/
theorem inForce_effective? (changes : List ModelChange) (start : Instant) (next : Option Instant) :
    InForce changes start next (effective? changes start next) := by
  have hwithin : ∀ c, latest? (changes.filter (isWithin start next)) = some c ↔
      IsLatest (LiesWithin start next) changes c := fun c ↦ by
    simp only [latest?_filter_eq_some_iff, isWithin_iff]
  have hbefore : ∀ c, latest? (changes.filter fun c ↦ c.time ≤ start) = some c ↔
      IsLatest (fun c ↦ c.time ≤ start) changes c := fun c ↦ by
    simp only [latest?_filter_eq_some_iff, decide_eq_true_iff]
  have hnoneWithin : latest? (changes.filter (isWithin start next)) = none ↔
      ∀ c ∈ changes, ¬LiesWithin start next c := by
    simp only [latest?_filter_eq_none_iff, isWithin_iff]
  have hnoneBefore : latest? (changes.filter fun c ↦ c.time ≤ start) = none ↔
      ∀ c ∈ changes, ¬c.time ≤ start := by
    simp only [latest?_filter_eq_none_iff, decide_eq_true_iff]
  constructor
  · intro label
    rw [effective?, Option.map_eq_some_iff]
    simp only [Option.or_eq_some_iff, hwithin, hbefore, hnoneWithin, or_and_right, exists_or,
      and_assoc, exists_and_left]
  · rw [effective?, Option.map_eq_none_iff, Option.or_eq_none_iff, hnoneWithin, hnoneBefore]

/-! ## One pass -/

/-- The latest changes so far: the one within a turn, and the one that is not after its start. -/
structure Candidates where
  within : Option ModelChange
  before : Option ModelChange

/-- One more change. It is held if it is within the turn, or not after its start, and later than the
one that was held there. -/
def Candidates.step (start : Instant) (next : Option Instant) (s : Candidates) (c : ModelChange) :
    Candidates :=
  if c.time ≤ start then { s with before := later s.before c }
  else if next.all fun bound ↦ c.time < bound then { s with within := later s.within c }
  else s

/-- One pass over the changes. -/
def scan (changes : List ModelChange) (start : Instant) (next : Option Instant) : Candidates :=
  changes.foldl (Candidates.step start next) ⟨none, none⟩

theorem scan_concat (changes : List ModelChange) (c : ModelChange) (start : Instant)
    (next : Option Instant) :
    scan (changes ++ [c]) start next = (scan changes start next).step start next c :=
  List.foldl_concat _ _ _ _

/-- What is not after the start of a turn is not within it, so a change has one place at most. -/
theorem Candidates.step_eq (start : Instant) (next : Option Instant) (s : Candidates)
    (c : ModelChange) : s.step start next c =
      ⟨if isWithin start next c = true then later s.within c else s.within,
        if c.time ≤ start then later s.before c else s.before⟩ := by
  rw [step]
  split
  · next hstart =>
    have hwithin : isWithin start next c = false := by
      rw [isWithin, decide_eq_false (Int64.not_lt.mpr hstart), Bool.false_and]
    rw [hwithin]
    rfl
  · next hstart =>
    have hwithin : isWithin start next c = next.all fun bound ↦ c.time < bound := by
      rw [isWithin, decide_eq_true (Int64.not_le.mp hstart), Bool.true_and]
    rw [hwithin]
    split <;> rfl

/-- The pass ends with the latest change of each kind. -/
theorem scan_eq (changes : List ModelChange) (start : Instant) (next : Option Instant) :
    scan changes start next = ⟨latest? (changes.filter (isWithin start next)),
      latest? (changes.filter fun c ↦ c.time ≤ start)⟩ := by
  induction changes using List.reverseRecOn with
  | nil => rfl
  | append_singleton changes c ih =>
    rw [scan_concat, ih, Candidates.step_eq, latest?_filter_concat, latest?_filter_concat]
    simp only [decide_eq_true_iff]

/-- **One pass.** The change within the turn counts, or else the one that is not after its start. -/
theorem effective?_eq_scan (changes : List ModelChange) (start : Instant) (next : Option Instant) :
    effective? changes start next =
      ((scan changes start next).within.or (scan changes start next).before).map label := by
  rw [effective?, scan_eq]

end ModelChange

end SessionReplay
