import Mathlib.Data.List.Induction

/-!
# The first of each

Things that belong together, such as the pieces of a stream or the start and the end of a tool call,
are shown once, where the first of them stands. `firstOfEach` says where that is: a thing belongs to
the key it has, and one without a key is on its own.

A list is made from the front, so the last element is the one to add or to leave out:
`firstOfEach_concat`, and `eraseDups_concat` where the elements are their own keys.
-/

namespace SessionReplay

variable {α β κ : Type} {key : α → Option κ} {xs : List α} {k : κ}

/-! ## Equal elements -/

theorem eraseDups_concat [BEq α] [LawfulBEq α] (xs : List α) (x : α) :
    (xs ++ [x]).eraseDups = xs.eraseDups ++ if x ∈ xs then [] else [x] := by
  rw [List.eraseDups_append, List.removeAll, List.filter_cons, List.filter_nil]
  by_cases hx : x ∈ xs
  · simp [hx]
  · simp [hx, List.eraseDups_cons]

/-- Of equal elements the first one stays, whether others are left out before or after. -/
theorem eraseDups_filter [BEq α] [LawfulBEq α] (p : α → Bool) (xs : List α) :
    (xs.filter p).eraseDups = xs.eraseDups.filter p := by
  induction xs using List.reverseRecOn with
  | nil => rfl
  | append_singleton xs x ih =>
    rw [List.filter_append, eraseDups_concat, List.filter_append, ← ih]
    by_cases hx : p x = true
    · rw [List.filter_cons_of_pos hx, List.filter_nil, eraseDups_concat]
      simp only [List.mem_filter, hx, and_true]
      split
      · rfl
      · rw [List.filter_cons_of_pos hx, List.filter_nil]
    · rw [List.filter_cons_of_neg hx, List.filter_nil, List.append_nil]
      split
      · exact (List.append_nil _).symm
      · rw [List.filter_cons_of_neg hx, List.filter_nil, List.append_nil]

/-! ## Equal keys -/

/-- If the key of an element is that of its image, the images have the same keys. -/
theorem exists_mem_filterMap_iff {f : α → Option β} {key' : β → Option κ}
    (h : ∀ x, key x = (f x).bind key') :
    (∃ y ∈ xs.filterMap f, key' y = some k) ↔ ∃ x ∈ xs, key x = some k := by
  constructor
  · rintro ⟨y, hy, hk⟩
    obtain ⟨x, hx, hfx⟩ := List.mem_filterMap.mp hy
    exact ⟨x, hx, by rw [h, hfx, Option.bind_some, hk]⟩
  · rintro ⟨x, hx, hk⟩
    rw [h, Option.bind_eq_some_iff] at hk
    obtain ⟨y, hfx, hk⟩ := hk
    exact ⟨y, List.mem_filterMap.mpr ⟨x, hx, hfx⟩, hk⟩

variable [DecidableEq κ]

/-- Of the elements with one key the first one, and every element without a key. -/
def firstOfEach (key : α → Option κ) : List α → List α
  | [] => []
  | a :: rest => a :: (firstOfEach key rest).filter fun b ↦ (key b).isNone || key b != key a

example : firstOfEach id [some 1, none, some 2, some 1, none] = [some 1, none, some 2, none] := by
  decide

private theorem firstOfEach_sublist (key : α → Option κ) (xs : List α) :
    (firstOfEach key xs).Sublist xs := by
  induction xs with
  | nil => exact List.Sublist.refl _
  | cons a rest ih => exact (List.filter_sublist.trans ih).cons_cons a

/-- One more element stays unless it has a key that was there before. -/
theorem firstOfEach_concat (key : α → Option κ) (xs : List α) (a : α) :
    firstOfEach key (xs ++ [a]) = firstOfEach key xs ++
      if key a ≠ none ∧ ∃ x ∈ xs, key x = key a then [] else [a] := by
  induction xs with
  | nil => simp [firstOfEach]
  | cons x rest ih =>
    rw [List.cons_append, firstOfEach, firstOfEach, ih, List.filter_append, List.cons_append]
    congr 2
    by_cases hnone : key a = none
    · simp [hnone]
    · by_cases hx : key x = key a
      · -- the first element of the list has the key
        have hold : key a ≠ none ∧ ∃ y ∈ x :: rest, key y = key a :=
          ⟨hnone, x, List.mem_cons_self, hx⟩
        rw [if_pos hold]
        split <;> simp [hnone, hx]
      · simp only [List.mem_cons, exists_eq_or_imp, hx, false_or]
        split
        · rfl
        · simp [Ne.symm hx]

theorem mem_of_mem_firstOfEach {a : α} (h : a ∈ firstOfEach key xs) : a ∈ xs :=
  (firstOfEach_sublist key xs).subset h

/-- A key that is there has a first element. -/
theorem exists_mem_firstOfEach_iff :
    (∃ a ∈ firstOfEach key xs, key a = some k) ↔ ∃ a ∈ xs, key a = some k := by
  constructor
  · rintro ⟨a, ha, hk⟩
    exact ⟨a, mem_of_mem_firstOfEach ha, hk⟩
  · rintro ⟨a, ha, hk⟩
    induction xs with
    | nil => cases ha
    | cons x rest ih =>
      by_cases hx : key x = some k
      · exact ⟨x, List.mem_cons_self, hx⟩
      · have hrest : a ∈ rest := by
          rcases List.mem_cons.mp ha with rfl | hrest
          · exact absurd hk hx
          · exact hrest
        obtain ⟨y, hy, hyk⟩ := ih hrest
        refine ⟨y, List.mem_cons_of_mem _ (List.mem_filter.mpr ⟨hy, ?_⟩), hyk⟩
        rw [hyk, Bool.or_eq_true, bne_iff_ne]
        exact Or.inr (Ne.symm hx)

/-- Of the elements with one key the first one is left. -/
theorem filter_firstOfEach (xs : List α) (k : κ) :
    (firstOfEach key xs).filter (fun x ↦ key x == some k)
      = (xs.find? fun x ↦ key x == some k).toList := by
  induction xs with
  | nil => rfl
  | cons x rest ih =>
    rw [firstOfEach]
    by_cases hx : key x = some k
    · have hnone : ∀ y ∈ firstOfEach key rest,
          ¬ ((key y == some k && ((key y).isNone || key y != key x)) = true) := by
        intro y _ hy
        rw [hx, Bool.and_eq_true, beq_iff_eq] at hy
        simp [hy.1] at hy
      rw [List.filter_cons_of_pos (by rw [hx, BEq.rfl]),
        List.find?_cons_of_pos (by rw [hx, BEq.rfl]), List.filter_filter,
        List.filter_eq_nil_iff.mpr hnone]
      rfl
    · have hkept : ∀ y ∈ firstOfEach key rest,
          (key y == some k && ((key y).isNone || key y != key x)) = (key y == some k) := by
        intro y _
        by_cases hy : key y = some k
        · simp [hy, Ne.symm hx]
        · simp [hy]
      rw [List.filter_cons_of_neg (by simpa using hx), List.find?_cons_of_neg (by simpa using hx),
        List.filter_filter, List.filter_congr hkept, ih]

/-- What does not look at elements with keys finds the same in all elements. -/
theorem filterMap_firstOfEach_of_unkeyed {f : α → Option β} (h : ∀ x, key x ≠ none → f x = none)
    (xs : List α) : (firstOfEach key xs).filterMap f = xs.filterMap f := by
  induction xs using List.reverseRecOn with
  | nil => rfl
  | append_singleton before a ih =>
    rw [firstOfEach_concat, List.filterMap_append, List.filterMap_append, ih]
    congr 1
    split
    · next hold => exact (List.filterMap_cons_none (h a hold.1)).symm
    · rfl

/-- The first ones are mapped to the first ones. -/
theorem filterMap_firstOfEach {f : α → Option β} {key' : β → Option κ}
    (h : ∀ x, key x = (f x).bind key') (xs : List α) :
    (firstOfEach key xs).filterMap f = firstOfEach key' (xs.filterMap f) := by
  induction xs using List.reverseRecOn with
  | nil => rfl
  | append_singleton before a ih =>
    rw [firstOfEach_concat, List.filterMap_append, List.filterMap_append, ih]
    cases hfa : f a with
    | none =>
      have hkey : key a = none := by rw [h, hfa, Option.bind_none]
      rw [if_neg fun hold ↦ hold.1 hkey, List.filterMap_cons_none hfa, List.filterMap_nil,
        List.append_nil, List.append_nil]
    | some b =>
      have hkey : key a = key' b := by rw [h, hfa, Option.bind_some]
      rw [List.filterMap_cons_some hfa, List.filterMap_nil, firstOfEach_concat, hkey]
      cases hk : key' b with
      | none => simp [hfa]
      | some k =>
        simp only [exists_mem_filterMap_iff h]
        split
        · rfl
        · exact congrArg _ (List.filterMap_cons_some hfa)

/-- To leave out elements without keys leaves the first ones where they are. -/
theorem firstOfEach_filter {p : α → Bool} (h : ∀ x, p x = false → key x = none) (xs : List α) :
    firstOfEach key (xs.filter p) = (firstOfEach key xs).filter p := by
  rw [← List.filterMap_eq_filter, filterMap_firstOfEach]
  intro x
  cases hp : p x with
  | true => simp [Option.guard, hp]
  | false => simp [Option.guard, hp, h x hp]

end SessionReplay
