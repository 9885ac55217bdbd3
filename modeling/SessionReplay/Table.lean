/-!
# Tables

A table is a finite map from names to values. It is held as a list of entries in strictly
increasing order of names, so that walking a table always meets the names in order, and two tables
that answer every question alike are the same table.

## Why the order is part of the type

Groups, agents and sessions are all shown in the order of their names. With the order in the type
no printer has to sort, and equality of tables is equality of what they say: `Table.ext_get?`.

Main statements: `Table.get?_insert`, `Table.get?_erase` and `Table.get?_modify` say what each
operation does to the answers; `Table.mem_entries_iff` joins the entries to the answers.
-/

namespace SessionReplay

/-! ## Entry lists -/

namespace Entries

variable {α β : Type}

/-- Puts a value under a name: before the first larger name, or in place of the name's old value. -/
def insert (k : String) (v : α) : List (String × α) → List (String × α)
  | [] => [(k, v)]
  | (k', v') :: rest =>
    if k < k' then (k, v) :: (k', v') :: rest
    else if k = k' then (k, v) :: rest
    else (k', v') :: insert k v rest

/-- The entries under other names. -/
def erase (k : String) (es : List (String × α)) : List (String × α) := es.filter fun e ↦ e.1 != k

/-- The same names with changed values. -/
def mapValues (f : α → β) (es : List (String × α)) : List (String × β) :=
  es.map fun e ↦ (e.1, f e.2)

/-- The names stand in strictly increasing order. -/
def Sorted (es : List (String × α)) : Prop := es.Pairwise fun a b ↦ a.1 < b.1

private theorem lookup_insert (k j : String) (v : α) (es : List (String × α)) :
    (insert k v es).lookup j = if j = k then some v else es.lookup j := by
  induction es with
  | nil => simp only [insert, List.lookup_cons, List.lookup_nil]; grind
  | cons e rest ih => simp only [insert]; grind

private theorem lookup_erase (k j : String) (es : List (String × α)) :
    (erase k es).lookup j = if j = k then none else es.lookup j := by
  unfold erase
  induction es with
  | nil => simp
  | cons e rest ih => grind

private theorem lookup_mapValues (f : α → β) (j : String) (es : List (String × α)) :
    (mapValues f es).lookup j = (es.lookup j).map f := by
  unfold mapValues
  induction es with
  | nil => simp
  | cons e rest ih => simp only [List.map_cons, List.lookup_cons, ih]; grind

private theorem sorted_mapValues (f : α → β) {es : List (String × α)} (h : Sorted es) :
    Sorted (mapValues f es) := List.pairwise_map.2 h

theorem mem_insert {k : String} {v : α} {e : String × α} {es : List (String × α)}
    (h : e ∈ insert k v es) : e = (k, v) ∨ e ∈ es := by
  induction es with
  | nil => simpa [insert] using h
  | cons e' rest ih => simp only [insert] at h; grind

theorem sorted_insert (k : String) (v : α) {es : List (String × α)} (h : Sorted es) :
    Sorted (insert k v es) := by
  induction es with
  | nil => simp [insert, Sorted]
  | cons e rest ih =>
    have hr : Sorted rest := (List.pairwise_cons.1 h).2
    have hh := (List.pairwise_cons.1 h).1
    rw [insert]
    split
    · next hk =>
      refine List.pairwise_cons.2 ⟨fun a ha ↦ ?_, h⟩
      rcases List.mem_cons.1 ha with rfl | ha
      · exact hk
      · exact String.lt_trans hk (hh a ha)
    · next hk =>
      split
      · next he => subst he; exact List.pairwise_cons.2 ⟨hh, hr⟩
      · next he =>
        refine List.pairwise_cons.2 ⟨fun a ha ↦ ?_, ih hr⟩
        rcases mem_insert ha with rfl | ha
        · exact String.not_le.1 fun hle ↦ he (String.le_antisymm hle (String.not_lt.1 hk))
        · exact hh a ha

private theorem lookup_eq_none_of_lt {k : String} {es : List (String × α)}
    (h : ∀ e ∈ es, k < e.1) : es.lookup k = none := by
  induction es with
  | nil => rfl
  | cons e rest ih =>
    have he := h e List.mem_cons_self
    have hne : k ≠ e.1 := fun hk ↦ String.lt_irrefl _ (hk ▸ he)
    rw [List.lookup_cons, beq_false_of_ne hne]
    exact ih fun x hx ↦ h x (List.mem_cons_of_mem _ hx)

theorem lookup_eq_some_iff {k : String} {v : α} {es : List (String × α)} (h : Sorted es) :
    es.lookup k = some v ↔ (k, v) ∈ es := by
  induction es with
  | nil => simp
  | cons e rest ih =>
    have hh := (List.pairwise_cons.1 h).1
    have ih := ih (List.pairwise_cons.1 h).2
    rw [List.lookup_cons]
    by_cases hk : k = e.1
    · subst hk
      simp only [BEq.rfl, List.mem_cons]
      constructor
      · intro hv; left; cases hv; rfl
      · rintro (hv | hv)
        · rw [← hv]
        · exact absurd (hh _ hv) (String.lt_irrefl _)
    · rw [beq_false_of_ne hk]
      simp only [ih, List.mem_cons]
      exact ⟨Or.inr, fun hv ↦ hv.resolve_left fun he ↦ hk (congrArg Prod.fst he)⟩

/-- A name smaller than all others is the first of both lists or of neither. -/
theorem not_lt_head {e f : String × α} {es fs : List (String × α)} (hf : Sorted (f :: fs))
    (h : ∀ k, (e :: es).lookup k = (f :: fs).lookup k) : ¬ e.1 < f.1 := fun hlt ↦ by
  have hsome : (e :: es).lookup e.1 = some e.2 := List.lookup_cons_self
  rw [h, lookup_eq_none_of_lt fun x hx ↦ ?_] at hsome
  · cases hsome
  · rcases List.mem_cons.1 hx with rfl | hx
    · exact hlt
    · exact String.lt_trans hlt ((List.pairwise_cons.1 hf).1 x hx)

private theorem eq_of_lookup_eq {es fs : List (String × α)} (he : Sorted es) (hf : Sorted fs)
    (h : ∀ k, es.lookup k = fs.lookup k) : es = fs := by
  induction es generalizing fs with
  | nil =>
    cases fs with
    | nil => rfl
    | cons f rest => have := h f.1; rw [List.lookup_cons_self] at this; cases this
  | cons e es ih =>
    cases fs with
    | nil => have := h e.1; rw [List.lookup_cons_self] at this; cases this
    | cons f fs =>
      have hkey : e.1 = f.1 := String.le_antisymm
        (String.not_lt.1 (not_lt_head he fun k ↦ (h k).symm)) (String.not_lt.1 (not_lt_head hf h))
      obtain ⟨hhe, he'⟩ := List.pairwise_cons.1 he
      obtain ⟨hhf, hf'⟩ := List.pairwise_cons.1 hf
      have hval : e.2 = f.2 := by
        have := h e.1
        rw [List.lookup_cons_self, hkey, List.lookup_cons_self] at this
        exact Option.some.inj this
      obtain rfl : e = f := Prod.ext hkey hval
      congr 1
      refine ih he' hf' fun k ↦ ?_
      by_cases hk : k = e.1
      · subst hk
        rw [lookup_eq_none_of_lt hhe, lookup_eq_none_of_lt hhf]
      · have := h k
        rwa [List.lookup_cons, List.lookup_cons, beq_false_of_ne hk] at this

end Entries

/-! ## The type -/

/-- A finite map from names to values, walked in the order of names. -/
structure Table (α : Type) where
  /-- The entries, each name once. -/
  entries : List (String × α)
  /-- The names stand in strictly increasing order. -/
  sorted : Entries.Sorted entries

/-- A set of names. -/
abbrev Names := Table Unit

namespace Table

variable {α β : Type}

/-- The table without entries. -/
def empty : Table α := ⟨[], List.Pairwise.nil⟩

instance : Inhabited (Table α) := ⟨empty⟩

instance [DecidableEq α] : DecidableEq (Table α) := fun s t ↦
  decidable_of_iff (s.entries = t.entries)
    ⟨fun h ↦ by cases s; cases t; cases h; rfl, fun h ↦ h ▸ rfl⟩

/-- The value under a name. -/
def get? (t : Table α) (k : String) : Option α := t.entries.lookup k

/-- Whether a name has a value. -/
def contains (t : Table α) (k : String) : Bool := (t.get? k).isSome

/-- Puts a value under a name, in place of an older one. -/
def insert (t : Table α) (k : String) (v : α) : Table α :=
  ⟨Entries.insert k v t.entries, Entries.sorted_insert k v t.sorted⟩

/-- Puts a value under a name that has none yet. -/
def insertNew (t : Table α) (k : String) (v : α) : Table α :=
  if t.contains k then t else t.insert k v

/-- Forgets a name. -/
def erase (t : Table α) (k : String) : Table α :=
  ⟨Entries.erase k t.entries, t.sorted.filter _⟩

/-- Changes the value under a name, if it has one. -/
def modify (t : Table α) (k : String) (f : α → α) : Table α :=
  match t.get? k with
  | some v => t.insert k (f v)
  | none => t

/-- Changes every value. -/
def map (f : α → β) (t : Table α) : Table β :=
  ⟨Entries.mapValues f t.entries, Entries.sorted_mapValues f t.sorted⟩

/-- The names, in order. -/
def keys (t : Table α) : List String := t.entries.map Prod.fst

/-- The values, in the order of their names. -/
def values (t : Table α) : List α := t.entries.map Prod.snd

/-- Whether no name has a value. -/
def isEmpty (t : Table α) : Bool := t.entries.isEmpty

/-- Every entry of `t`, and of `u` those under names that `t` lacks. -/
def union (t u : Table α) : Table α := u.entries.foldl (fun acc e ↦ acc.insertNew e.1 e.2) t

/-- The table of a list of entries; of several values under one name the last is kept. -/
def ofList (es : List (String × α)) : Table α := es.foldl (fun t e ↦ t.insert e.1 e.2) empty

/-! ## What each operation does to the answers -/

/-- **Extensionality.** Tables that answer alike are equal. -/
theorem ext_get? {s t : Table α} (h : ∀ k, s.get? k = t.get? k) : s = t := by
  have he : s.entries = t.entries := Entries.eq_of_lookup_eq s.sorted t.sorted h
  cases s; cases t; cases he; rfl

theorem mem_entries_iff {t : Table α} {k : String} {v : α} :
    (k, v) ∈ t.entries ↔ t.get? k = some v :=
  (Entries.lookup_eq_some_iff t.sorted).symm

@[simp] theorem get?_empty (k : String) : (empty : Table α).get? k = none := rfl

theorem get?_insert (t : Table α) (k j : String) (v : α) :
    (t.insert k v).get? j = if j = k then some v else t.get? j :=
  Entries.lookup_insert k j v t.entries

@[simp] theorem get?_insert_self (t : Table α) (k : String) (v : α) :
    (t.insert k v).get? k = some v := by simp [get?_insert]

theorem get?_insert_of_ne (t : Table α) {k j : String} (v : α) (h : j ≠ k) :
    (t.insert k v).get? j = t.get? j := by simp [get?_insert, h]

theorem get?_erase (t : Table α) (k j : String) :
    (t.erase k).get? j = if j = k then none else t.get? j := Entries.lookup_erase k j t.entries

theorem get?_modify (t : Table α) (k j : String) (f : α → α) :
    (t.modify k f).get? j = if j = k then (t.get? k).map f else t.get? j := by
  unfold modify
  cases h : t.get? k with
  | none => grind
  | some v => simp [get?_insert]

theorem get?_insertNew (t : Table α) (k j : String) (v : α) :
    (t.insertNew k v).get? j = if j = k then (t.get? k).or (some v) else t.get? j := by
  unfold insertNew contains
  cases h : t.get? k with
  | none => simp [get?_insert]
  | some w => grind

theorem get?_map (f : α → β) (t : Table α) (k : String) :
    (t.map f).get? k = (t.get? k).map f := Entries.lookup_mapValues f k t.entries

theorem contains_iff {t : Table α} {k : String} : t.contains k = true ↔ ∃ v, t.get? k = some v :=
  Option.isSome_iff_exists

theorem mem_keys_iff {t : Table α} {k : String} : k ∈ t.keys ↔ t.contains k = true := by
  simp only [keys, List.mem_map, contains_iff, ← mem_entries_iff, Prod.exists, exists_and_right,
    exists_eq_right]

theorem mem_values_iff {t : Table α} {v : α} : v ∈ t.values ↔ ∃ k, t.get? k = some v := by
  simp only [values, List.mem_map, ← mem_entries_iff, Prod.exists, exists_eq_right]

end Table

end SessionReplay
