import Mathlib.Data.List.Forall2

/-!
# Lists that grow

What is on display only grows at its end, while what is there may still change in its place.
`Grows R xs ys` says that `ys` starts with the things of `xs`, each as it was or in a state that `R`
allows after it.
-/

namespace SessionReplay

/-- The second list starts with the things of the first, each in a later state. -/
inductive Grows {α : Type} (R : α → α → Prop) : List α → List α → Prop
  | nil (new : List α) : Grows R [] new
  | cons {x y : α} {xs ys : List α} (head : R x y) (tail : Grows R xs ys) :
    Grows R (x :: xs) (y :: ys)

namespace Grows

variable {α : Type} {R : α → α → Prop} {x y : α} {xs ys zs : List α}

theorem of_forall₂ (h : List.Forall₂ R xs ys) : Grows R xs ys := by
  induction h with
  | nil => exact nil []
  | cons hxy _ ih => exact cons hxy ih

theorem append (hR : ∀ x, R x x) (xs new : List α) : Grows R xs (xs ++ new) := by
  induction xs with
  | nil => exact nil new
  | cons x xs ih => exact cons (hR x) ih

theorem refl (hR : ∀ x, R x x) (xs : List α) : Grows R xs xs := by
  have h := append hR xs []
  rwa [List.append_nil] at h

theorem trans (hR : ∀ {x y z}, R x y → R y z → R x z) (h : Grows R xs ys) (h' : Grows R ys zs) :
    Grows R xs zs := by
  induction h generalizing zs with
  | nil new => exact nil zs
  | cons hxy _ ih =>
    cases h' with
    | cons hyz h' => exact cons (hR hxy hyz) (ih h')

theorem map {f : α → α} (hf : ∀ x, R x (f x)) (xs : List α) : Grows R xs (xs.map f) := by
  induction xs with
  | nil => exact nil []
  | cons x xs ih => exact cons (hf x) ih

theorem set (hR : ∀ x, R x x) {place : Nat} (hx : xs[place]? = some x) (hxy : R x y) :
    Grows R xs (xs.set place y) := by
  induction xs generalizing place with
  | nil => exact nil _
  | cons z zs ih =>
    cases place with
    | zero =>
      obtain rfl : z = x := Option.some.inj hx
      exact cons hxy (refl hR zs)
    | succ place => exact cons (hR z) (ih hx)

/-- What was there comes first, and then comes what is new. -/
theorem exists_append (h : Grows R xs ys) :
    ∃ old new, ys = old ++ new ∧ List.Forall₂ R xs old := by
  induction h with
  | nil new => exact ⟨[], new, rfl, List.Forall₂.nil⟩
  | @cons _ y _ _ hxy _ ih =>
    obtain ⟨old, new, rfl, hold⟩ := ih
    exact ⟨y :: old, new, rfl, List.Forall₂.cons hxy hold⟩

/-- What stands at a place of the first list stands there in the second, in a later state. -/
theorem exists_getElem? (h : Grows R xs ys) {place : Nat} (hx : xs[place]? = some x) :
    ∃ y, ys[place]? = some y ∧ R x y := by
  induction h generalizing place with
  | nil _ => cases hx
  | @cons z y _ _ hzy _ ih =>
    cases place with
    | zero =>
      obtain rfl : z = x := Option.some.inj hx
      exact ⟨y, rfl, hzy⟩
    | succ place => exact ih hx

theorem exists_of_mem (h : Grows R xs ys) (hx : x ∈ xs) : ∃ y ∈ ys, R x y := by
  obtain ⟨place, hplace⟩ := List.mem_iff_getElem?.mp hx
  obtain ⟨y, hy, hxy⟩ := h.exists_getElem? hplace
  exact ⟨y, List.mem_of_getElem? hy, hxy⟩

end Grows

/-- A list is cut in one way only into what has a property and then what has not. -/
theorem eq_of_append_eq_append {α : Type} {p : α → Prop} {xs ys xs' ys' : List α}
    (h : xs ++ ys = xs' ++ ys') (hxs : ∀ x ∈ xs, p x) (hys : ∀ y ∈ ys, ¬p y)
    (hxs' : ∀ x ∈ xs', p x) (hys' : ∀ y ∈ ys', ¬p y) : xs = xs' := by
  classical
  have hcut : ∀ {front back : List α}, (∀ x ∈ front, p x) → (∀ y ∈ back, ¬p y) →
      (front ++ back).filter p = front := by
    intro front back hfront hback
    rw [List.filter_append, List.filter_eq_self.mpr (by simpa using hfront),
      List.filter_eq_nil_iff.mpr (by simpa using hback), List.append_nil]
  rw [← hcut hxs hys, h, hcut hxs' hys']

/-- What holds of every element and those before it, holds so after one more. -/
theorem forall_split_concat_iff {α : Type} {P : List α → α → Prop} {xs : List α} {y : α} :
    (∀ before x after, xs ++ [y] = before ++ x :: after → P before x) ↔
      (∀ before x after, xs = before ++ x :: after → P before x) ∧ P xs y := by
  constructor
  · intro h
    refine ⟨fun before x after heq ↦ h before x (after ++ [y]) ?_, h xs y [] rfl⟩
    rw [heq, List.append_assoc, List.cons_append]
  · rintro ⟨hold, hnew⟩ before x after heq
    -- the split is at the new element, or among the old ones
    rcases List.eq_nil_or_concat after with rfl | ⟨after, z, rfl⟩
    · obtain ⟨rfl, hx⟩ := List.append_inj' heq rfl
      rwa [← List.singleton_inj.mp hx]
    · rw [List.concat_eq_append, ← List.cons_append, ← List.append_assoc] at heq
      exact hold before x after (List.append_inj' heq rfl).1

/-- One more element is where a list is split, or it comes after a split. -/
theorem exists_split_concat_iff {α : Type} {P : List α → α → List α → Prop} {xs : List α} {y : α} :
    (∃ before x after, xs ++ [y] = before ++ x :: after ∧ P before x after) ↔
      P xs y [] ∨ ∃ before x after, xs = before ++ x :: after ∧ P before x (after ++ [y]) := by
  constructor
  · rintro ⟨before, x, after, heq, hsplit⟩
    rcases List.eq_nil_or_concat after with rfl | ⟨after, z, rfl⟩
    · obtain ⟨rfl, ⟨⟩⟩ := List.append_inj' heq rfl
      exact Or.inl hsplit
    · rw [List.concat_eq_append] at heq hsplit
      rw [← List.cons_append, ← List.append_assoc] at heq
      obtain ⟨rfl, ⟨⟩⟩ := List.append_inj' heq rfl
      exact Or.inr ⟨before, x, after, rfl, hsplit⟩
  · rintro (hsplit | ⟨before, x, after, rfl, hsplit⟩)
    · exact ⟨xs, y, [], rfl, hsplit⟩
    · exact ⟨before, x, after ++ [y], List.append_assoc _ _ _, hsplit⟩

end SessionReplay
