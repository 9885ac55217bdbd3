import Mathlib.Data.List.Basic
import Mathlib.Data.List.Induction
import SessionReplay.Table

/-!
# Tables side by side

Two states of one table are compared name by name: `Table.Related` says that the same names have
values and that the values are related. It is how a step of a larger state is described, since most
steps change the value under one name and leave the rest alone.

The values of a table are also counted, where a table holds queues and something must stand in one
of them once. An insertion leaves all other values where they are:
`Table.perm_values_insert_of_eq_none` and `Table.exists_perm_values_insert`.
-/

namespace SessionReplay

/-! ## Where an insertion happens -/

namespace Entries

variable {α : Type} {k : String} {v w : α} {es : List (String × α)}

private theorem exists_insert_of_lookup_eq_none (h : es.lookup k = none) (v : α) :
    ∃ before after, es = before ++ after ∧ insert k v es = before ++ (k, v) :: after := by
  induction es with
  | nil => exact ⟨[], [], rfl, rfl⟩
  | cons e rest ih =>
    have hne : k ≠ e.1 := by
      rintro rfl
      rw [List.lookup_cons_self] at h
      cases h
    rw [List.lookup_cons, beq_false_of_ne hne] at h
    obtain ⟨before, after, hrest, hinsert⟩ := ih h
    rw [insert, if_neg hne]
    split
    · exact ⟨[], e :: rest, rfl, rfl⟩
    · exact ⟨e :: before, after, by rw [hrest, List.cons_append],
        by rw [hinsert, List.cons_append]⟩

/-- A name above all others goes to the end. -/
theorem insert_eq_concat (h : ∀ e ∈ es, e.1 < k) : insert k v es = es ++ [(k, v)] := by
  induction es with
  | nil => rfl
  | cons e rest ih =>
    obtain ⟨he, hrest⟩ := List.forall_mem_cons.mp h
    have hne : k ≠ e.1 := by
      rintro rfl
      exact String.lt_irrefl _ he
    rw [insert, if_neg (fun hk ↦ String.lt_irrefl _ (String.lt_trans he hk)), if_neg hne, ih hrest,
      List.cons_append]

private theorem exists_insert_of_lookup_eq_some (hs : Sorted es) (h : es.lookup k = some w)
    (v : α) :
    ∃ before after, es = before ++ (k, w) :: after ∧
      insert k v es = before ++ (k, v) :: after := by
  induction es with
  | nil => cases h
  | cons e rest ih =>
    obtain ⟨hhead, hrest⟩ := List.pairwise_cons.mp hs
    rw [insert]
    by_cases hk : k = e.1
    · subst hk
      rw [List.lookup_cons_self] at h
      rw [if_neg (String.lt_irrefl _), if_pos rfl]
      exact ⟨[], rest, by rw [← Option.some.inj h, List.nil_append], rfl⟩
    · rw [List.lookup_cons, beq_false_of_ne hk] at h
      have hlt : e.1 < k := hhead _ ((lookup_eq_some_iff hrest).mp h)
      obtain ⟨before, after, heq, hinsert⟩ := ih hrest h
      rw [if_neg fun hlt' ↦ String.lt_irrefl _ (String.lt_trans hlt hlt'), if_neg hk]
      exact ⟨e :: before, after, by rw [heq, List.cons_append], by rw [hinsert, List.cons_append]⟩

end Entries

namespace Table

variable {α β : Type} {k : String} {v w : α}

theorem perm_values_insert_of_eq_none {t : Table α} (h : t.get? k = none) (v : α) :
    (t.insert k v).values.Perm (v :: t.values) := by
  obtain ⟨before, after, heq, hinsert⟩ := Entries.exists_insert_of_lookup_eq_none h v
  have hvalues : (t.insert k v).values = (before ++ (k, v) :: after).map Prod.snd :=
    congrArg (List.map Prod.snd) hinsert
  rw [hvalues, values, heq, List.map_append, List.map_append, List.map_cons]
  exact List.perm_middle

theorem exists_perm_values_insert {t : Table α} (h : t.get? k = some w) (v : α) :
    ∃ rest, t.values.Perm (w :: rest) ∧ (t.insert k v).values.Perm (v :: rest) := by
  obtain ⟨before, after, heq, hinsert⟩ := Entries.exists_insert_of_lookup_eq_some t.sorted h v
  have hvalues : (t.insert k v).values = (before ++ (k, v) :: after).map Prod.snd :=
    congrArg (List.map Prod.snd) hinsert
  refine ⟨before.map Prod.snd ++ after.map Prod.snd, ?_, ?_⟩
  · rw [values, heq, List.map_append, List.map_cons]
    exact List.perm_middle
  · rw [hvalues, List.map_append, List.map_cons]
    exact List.perm_middle

/-! ## Writing twice, and erasing nothing -/

theorem insert_insert (t : Table α) (k : String) (v w : α) :
    (t.insert k v).insert k w = t.insert k w := by
  refine ext_get? fun j ↦ ?_
  rw [get?_insert, get?_insert, get?_insert]
  split <;> rfl

theorem erase_eq_self {t : Table α} (h : t.get? k = none) : t.erase k = t := by
  refine ext_get? fun j ↦ ?_
  rw [get?_erase]
  split
  · next hj => rw [hj, h]
  · rfl

theorem contains_insert_iff (t : Table α) (k j : String) (v : α) :
    (t.insert k v).contains j = true ↔ j = k ∨ t.contains j = true := by
  rw [contains, get?_insert, contains]
  split
  · next hj => simp [hj]
  · next hj => simp [hj]

theorem contains_insert (t : Table α) (k j : String) (v : α) :
    (t.insert k v).contains j = (j == k || t.contains j) := by
  rw [Bool.eq_iff_iff, contains_insert_iff, Bool.or_eq_true, beq_iff_eq]

theorem contains_modify (t : Table α) (k j : String) (f : α → α) :
    (t.modify k f).contains j = t.contains j := by
  rw [contains, get?_modify, contains]
  split
  · next hj => rw [hj, Option.isSome_map]
  · rfl

theorem contains_insertNew_iff (t : Table α) (k j : String) (v : α) :
    (t.insertNew k v).contains j = true ↔ t.contains j = true ∨ j = k := by
  rw [insertNew]
  split
  · next hold => exact (or_iff_left_of_imp fun hj ↦ hj ▸ hold).symm
  · rw [contains_insert_iff, or_comm]

theorem contains_map (f : α → β) (t : Table α) (k : String) :
    (t.map f).contains k = t.contains k := by
  rw [contains, get?_map, Option.isSome_map, contains]

theorem nodup_keys (t : Table α) : t.keys.Nodup :=
  List.pairwise_map.mpr (t.sorted.imp String.ne_of_lt)

theorem contains_eq_false_iff {t : Table α} : t.contains k = false ↔ t.get? k = none := by
  rw [contains, Option.isSome_eq_false_iff, Option.isNone_iff_eq_none]

theorem isEmpty_eq_false_iff {t : Table α} : t.isEmpty = false ↔ ∃ k, t.contains k = true := by
  simp only [← mem_keys_iff, keys, isEmpty]
  cases t.entries with
  | nil => simp
  | cons e rest => exact iff_of_true rfl ⟨e.1, List.mem_cons_self⟩

theorem insert_erase {t : Table α} (h : t.get? k = some v) : (t.erase k).insert k v = t := by
  refine ext_get? fun j ↦ ?_
  rw [get?_insert, get?_erase]
  split
  · next hj => rw [hj, h]
  · rfl

theorem erase_insert {t : Table α} (h : t.get? k = none) (v : α) : (t.insert k v).erase k = t := by
  refine ext_get? fun j ↦ ?_
  rw [get?_erase, get?_insert]
  split
  · next hj => rw [hj, h]
  · rfl

theorem map_insert (f : α → β) (t : Table α) (k : String) (v : α) :
    (t.insert k v).map f = (t.map f).insert k (f v) := by
  refine ext_get? fun j ↦ ?_
  rw [get?_map, get?_insert, get?_insert, get?_map]
  split <;> rfl

theorem map_modify {f : α → β} {g : α → α} {g' : β → β} (h : ∀ v, f (g v) = g' (f v))
    (t : Table α) (k : String) : (t.modify k g).map f = (t.map f).modify k g' := by
  refine ext_get? fun j ↦ ?_
  rw [get?_map, get?_modify, get?_modify, get?_map, get?_map]
  split
  · rw [Option.map_map, Option.map_map]
    exact congrArg (Option.map · _) (funext h)
  · rfl

/-! ## Some of the names -/

/-- The entries under some of the names. -/
def restrict (t : Table α) (p : String → Bool) : Table α :=
  ⟨t.entries.filter fun e ↦ p e.1, t.sorted.filter _⟩

theorem get?_restrict (t : Table α) (p : String → Bool) (k : String) :
    (t.restrict p).get? k = if p k then t.get? k else none := by
  refine Option.ext fun v ↦ ?_
  rw [← mem_entries_iff, restrict, List.mem_filter, mem_entries_iff]
  split
  · next hk => exact and_iff_left hk
  · next hk => simp [hk]

theorem restrict_insert {p : String → Bool} (t : Table α) (hk : p k = true) (v : α) :
    (t.insert k v).restrict p = (t.restrict p).insert k v := by
  refine ext_get? fun j ↦ ?_
  rw [get?_restrict, get?_insert, get?_insert, get?_restrict]
  split
  · rfl
  · next hj =>
    rw [if_neg]
    rintro rfl
    exact hj hk

theorem restrict_insert_of_eq_false {p : String → Bool} (t : Table α) (hk : p k = false) (v : α) :
    (t.insert k v).restrict p = t.restrict p := by
  refine ext_get? fun j ↦ ?_
  rw [get?_restrict, get?_restrict, get?_insert]
  split
  · next hj =>
    rw [if_neg]
    rintro rfl
    exact Bool.false_ne_true (hk.symm.trans hj)
  · rfl

theorem contains_insert_of_ne (t : Table α) {k j : String} (v : α) (h : j ≠ k) :
    (t.insert k v).contains j = t.contains j := by
  rw [contains, get?_insert_of_ne _ _ h, contains]

/-- Erasing a name is leaving out one more name. -/
theorem erase_restrict (t : Table α) (u : Table β) (k : String) (v : β) :
    (t.restrict fun j ↦ !u.contains j).erase k
      = t.restrict fun j ↦ !(u.insert k v).contains j := by
  refine ext_get? fun j ↦ ?_
  rw [get?_erase, get?_restrict, get?_restrict]
  split
  · next hj => simp [hj, contains]
  · next hj => rw [contains_insert_of_ne _ _ hj]

theorem get?_erase_of_ne (t : Table α) {k j : String} (h : j ≠ k) :
    (t.erase k).get? j = t.get? j := by
  rw [get?_erase, if_neg h]

theorem contains_erase_of_ne (t : Table α) {k j : String} (h : j ≠ k) :
    (t.erase k).contains j = t.contains j := by
  rw [contains, get?_erase_of_ne _ h, contains]

theorem contains_erase_self (t : Table α) (k : String) : (t.erase k).contains k = false := by
  rw [contains, get?_erase, if_pos rfl, Option.isSome_none]

/-- Leaving out one name less, where it is written anew or was not there. -/
theorem insert_restrict (t : Table α) (u : Table β) (k : String) (v : α) :
    (t.restrict fun j ↦ !u.contains j).insert k v
      = (t.insert k v).restrict fun j ↦ !(u.erase k).contains j := by
  refine ext_get? fun j ↦ ?_
  rw [get?_insert, get?_restrict, get?_restrict, get?_insert]
  split
  · next hj => rw [hj, contains_erase_self, Bool.not_false, if_pos rfl]
  · next hj => rw [contains_erase_of_ne _ hj]

theorem restrict_erase {t : Table α} (h : t.get? k = none) (u : Table β) :
    (t.restrict fun j ↦ !u.contains j) = t.restrict fun j ↦ !(u.erase k).contains j := by
  refine ext_get? fun j ↦ ?_
  rw [get?_restrict, get?_restrict]
  by_cases hj : j = k
  · rw [hj, h, ite_self, ite_self]
  · rw [contains_erase_of_ne _ hj]

/-! ## Tables of entries -/

theorem ofList_concat (es : List (String × α)) (e : String × α) :
    ofList (es ++ [e]) = (ofList es).insert e.1 e.2 := List.foldl_concat _ _ _ _

private theorem get?_ofList_eq_some_iff {es : List (String × α)} (h : (es.map Prod.fst).Nodup) :
    (ofList es).get? k = some v ↔ (k, v) ∈ es := by
  induction es using List.reverseRecOn with
  | nil => exact iff_of_false (Option.some_ne_none v).symm List.not_mem_nil
  | append_singleton es e ih =>
    rw [List.map_append, List.nodup_append] at h
    obtain ⟨hes, -, hapart⟩ := h
    rw [ofList_concat, get?_insert, List.mem_append, List.mem_singleton, ← ih hes]
    split
    · next hk =>
      have hnew : (ofList es).get? k ≠ some v := fun hv ↦
        hapart k (List.mem_map_of_mem ((ih hes).mp hv)) e.1 List.mem_cons_self hk
      rw [Option.some_inj, or_iff_right hnew, Prod.ext_iff, hk, eq_self_iff_true, true_and, eq_comm]
    · next hk =>
      exact (or_iff_left fun he ↦ hk (congrArg Prod.fst he)).symm

theorem get?_ofList_eq_none {es : List (String × α)} (h : k ∉ es.map Prod.fst) :
    (ofList es).get? k = none := by
  induction es using List.reverseRecOn with
  | nil => rfl
  | append_singleton es e ih =>
    rw [List.map_append, List.mem_append, not_or] at h
    have hne : k ≠ e.1 := fun hk ↦ h.2 (List.mem_singleton.mpr hk)
    rw [ofList_concat, get?_insert_of_ne _ _ hne]
    exact ih h.1

/-- The order of entries does not matter if each name stands there once. -/
theorem ofList_eq_of_perm {es es' : List (String × α)} (h : (es.map Prod.fst).Nodup)
    (hperm : es.Perm es') : ofList es = ofList es' := by
  have h' : (es'.map Prod.fst).Nodup := (hperm.map _).nodup_iff.mp h
  refine ext_get? fun k ↦ Option.ext fun v ↦ ?_
  rw [get?_ofList_eq_some_iff h, get?_ofList_eq_some_iff h', hperm.mem_iff]

/-! ## Unions -/

private theorem get?_foldl_insertNew (es : List (String × α)) (t : Table α) (k : String) :
    (es.foldl (fun acc e ↦ acc.insertNew e.1 e.2) t).get? k = (t.get? k).or (es.lookup k) := by
  induction es generalizing t with
  | nil => exact Option.or_none.symm
  | cons e rest ih =>
    rw [List.foldl_cons, ih, get?_insertNew, List.lookup_cons]
    split
    · next hk => rw [hk, BEq.rfl, Option.or_assoc, Option.some_or]
    · next hk => rw [beq_false_of_ne hk]

/-- The first table answers, and the second one where the first has no answer. -/
theorem get?_union (t u : Table α) (k : String) :
    (t.union u).get? k = (t.get? k).or (u.get? k) :=
  get?_foldl_insertNew u.entries t k

theorem get?_foldl_union {γ : Type} (f : γ → Table α) (xs : List γ) (t : Table α) (k : String) :
    (xs.foldl (fun acc x ↦ acc.union (f x)) t).get? k
      = (t.get? k).or (xs.findSome? fun x ↦ (f x).get? k) := by
  induction xs generalizing t with
  | nil => exact Option.or_none.symm
  | cons x rest ih =>
    rw [List.foldl_cons, ih, get?_union, Option.or_assoc, List.findSome?_cons]
    cases (f x).get? k with
    | none => rw [Option.none_or]
    | some v => rw [Option.some_or]

/-! ## Related tables -/

/-- The same names have values, and the values are related. -/
def Related (R : α → β → Prop) (t : Table α) (u : Table β) : Prop :=
  ∀ k, Option.Rel R (t.get? k) (u.get? k)

namespace Related

variable {R : α → α → Prop} {t u : Table α}

theorem refl (hR : ∀ a, R a a) (t : Table α) : t.Related R t := fun k ↦ by
  cases t.get? k with
  | none => exact Option.Rel.none
  | some a => exact Option.Rel.some (hR a)

theorem get?_eq_some (h : t.Related R u) (hv : t.get? k = some v) :
    ∃ w, u.get? k = some w ∧ R v w := by
  have hk := h k
  rw [hv] at hk
  cases hk' : u.get? k with
  | none => rw [hk'] at hk; cases hk
  | some w => rw [hk'] at hk; cases hk with | some hR => exact ⟨w, rfl, hR⟩

theorem exists_of_get?_eq_some (h : t.Related R u) (hw : u.get? k = some w) :
    ∃ v, t.get? k = some v ∧ R v w := by
  have hk := h k
  rw [hw] at hk
  cases hk' : t.get? k with
  | none => rw [hk'] at hk; cases hk
  | some v => rw [hk'] at hk; cases hk with | some hR => exact ⟨v, rfl, hR⟩

theorem trans {s : Table α} (hR : ∀ {a b c}, R a b → R b c → R a c) (hst : s.Related R t)
    (htu : t.Related R u) : s.Related R u := fun k ↦ by
  cases hs : s.get? k with
  | some a =>
    obtain ⟨b, hb, hab⟩ := hst.get?_eq_some hs
    obtain ⟨c, hc, hbc⟩ := htu.get?_eq_some hb
    rw [hc]
    exact Option.Rel.some (hR hab hbc)
  | none =>
    cases hu : u.get? k with
    | none => exact Option.Rel.none
    | some c =>
      obtain ⟨b, hb, -⟩ := htu.exists_of_get?_eq_some hu
      obtain ⟨a, ha, -⟩ := hst.exists_of_get?_eq_some hb
      rw [hs] at ha
      cases ha

theorem mono {S : α → α → Prop} (hRS : ∀ {a b}, R a b → S a b) (h : t.Related R u) :
    t.Related S u := fun k ↦ by
  have hk := h k
  generalize t.get? k = v at hk ⊢
  generalize u.get? k = w at hk ⊢
  cases hk with
  | none => exact Option.Rel.none
  | some hvw => exact Option.Rel.some (hRS hvw)

theorem contains_eq (h : t.Related R u) (k : String) : u.contains k = t.contains k := by
  rw [contains, contains]
  have hk := h k
  generalize t.get? k = v at hk
  generalize u.get? k = w at hk
  cases hk <;> rfl

/-- Replacing a value by a related one. -/
theorem insert (hR : ∀ a, R a a) (hv : t.get? k = some v) (hvw : R v w) :
    t.Related R (t.insert k w) := fun j ↦ by
  rw [get?_insert]
  split
  · next hj => rw [hj, hv]; exact Option.Rel.some hvw
  · exact refl hR t j

/-- Changing the value under a name, if there is one. -/
theorem modify (hR : ∀ a, R a a) {f : α → α} (hf : ∀ a, R a (f a)) (t : Table α) (k : String) :
    t.Related R (t.modify k f) := by
  rw [Table.modify]
  split
  · next v hv => exact insert hR hv (hf v)
  · exact refl hR t

end Related

/-! ## Tables that keep their names -/

/-- Every name keeps a value, and the new value is related to the old one. There may be new
names. -/
def Keeps (R : α → β → Prop) (t : Table α) (u : Table β) : Prop :=
  ∀ k v, t.get? k = some v → ∃ w, u.get? k = some w ∧ R v w

namespace Keeps

variable {R : α → α → Prop} {s t u : Table α}

theorem refl (hR : ∀ a, R a a) (t : Table α) : t.Keeps R t := fun _ v hv ↦ ⟨v, hv, hR v⟩

theorem trans (hR : ∀ {a b c}, R a b → R b c → R a c) (hst : s.Keeps R t) (htu : t.Keeps R u) :
    s.Keeps R u := by
  intro k v hv
  obtain ⟨w, hw, hvw⟩ := hst k v hv
  obtain ⟨x, hx, hwx⟩ := htu k w hw
  exact ⟨x, hx, hR hvw hwx⟩

/-- A name that had no value gets one. -/
theorem insertNew (hR : ∀ a, R a a) (t : Table α) (k : String) (v : α) :
    t.Keeps R (t.insertNew k v) := by
  intro j w hw
  refine ⟨w, ?_, hR w⟩
  rw [get?_insertNew]
  split
  · next hj => rw [← hj, hw, Option.some_or]
  · exact hw

theorem insert_of_eq_none (hR : ∀ a, R a a) {k : String} (h : t.get? k = none) (v : α) :
    t.Keeps R (t.insert k v) := by
  have hnew := insertNew hR t k v
  rwa [Table.insertNew, contains_eq_false_iff.mpr h, if_neg Bool.false_ne_true] at hnew

end Keeps

theorem Related.keeps {R : α → α → Prop} {t u : Table α} (h : t.Related R u) : t.Keeps R u :=
  fun _ _ hv ↦ h.get?_eq_some hv

end Table

end SessionReplay
