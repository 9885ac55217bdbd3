import SessionReplay.Proofs.Firsts
import SessionReplay.Settings

/-!
# Clean lists of names

A list of names in a settings file may hold a name several times, with blanks around it, or nothing
but blanks. What is meant is each name once, in the order in which the names first occur:
`Settings.isCleaned_cleanNames`. To clean a list that is clean leaves it as it is,
`Settings.cleanNames_cleanNames`.
-/

namespace SessionReplay

theorem Text.nonBlank?_eq_some_iff {s name : String} :
    nonBlank? s = some name ↔ name ≠ "" ∧ trim s = name := by
  rw [nonBlank?]
  split
  · next h => simp [h, eq_comm]
  · next h =>
    rw [Option.some_inj]
    exact ⟨fun heq ↦ ⟨heq ▸ h, heq⟩, And.right⟩

namespace Settings

variable {names : List String} {name raw : String}

/-- Where a name first occurs in a list, with or without blanks around it. -/
def firstAt (names : List String) (name : String) : Nat :=
  names.findIdx fun raw ↦ Text.trim raw == name

/-- Each name of a list once, without blanks around it, in the order of the first occurrences. -/
structure IsCleaned (names cleaned : List String) : Prop where
  mem_iff : ∀ name, name ∈ cleaned ↔ name ≠ "" ∧ ∃ raw ∈ names, Text.trim raw = name
  nodup : cleaned.Nodup
  inOrder : cleaned.Pairwise fun a b ↦ firstAt names a < firstAt names b

theorem mem_cleanNames_iff :
    name ∈ cleanNames names ↔ name ≠ "" ∧ ∃ raw ∈ names, Text.trim raw = name := by
  rw [cleanNames, List.mem_eraseDups, List.mem_filterMap]
  simp only [Text.nonBlank?_eq_some_iff]
  exact ⟨fun ⟨raw, hraw, hne, heq⟩ ↦ ⟨hne, raw, hraw, heq⟩,
    fun ⟨hne, raw, hraw, heq⟩ ↦ ⟨raw, hraw, hne, heq⟩⟩

/-- One more name is kept if it is a new one. -/
theorem cleanNames_concat (names : List String) (raw : String) :
    cleanNames (names ++ [raw]) = cleanNames names ++
      if Text.trim raw = "" ∨ Text.trim raw ∈ cleanNames names then [] else [Text.trim raw] := by
  rw [cleanNames, cleanNames, List.filterMap_append]
  by_cases hblank : Text.trim raw = ""
  · have hnone : Text.nonBlank? raw = none := if_pos hblank
    rw [List.filterMap_cons_none hnone, List.filterMap_nil, List.append_nil, if_pos (Or.inl hblank),
      List.append_nil]
  · have hsome : Text.nonBlank? raw = some (Text.trim raw) := if_neg hblank
    rw [List.filterMap_cons_some hsome, List.filterMap_nil, eraseDups_concat]
    simp only [hblank, false_or, List.mem_eraseDups]

private theorem firstAt_lt_length_iff :
    firstAt names name < names.length ↔ ∃ raw ∈ names, Text.trim raw = name := by
  rw [firstAt, List.findIdx_lt_length]
  simp only [beq_iff_eq]

/-- What comes after the first occurrence does not move it. -/
theorem firstAt_append (names later : List String) (name : String) :
    firstAt (names ++ later) name = if firstAt names name < names.length then firstAt names name
      else firstAt later name + names.length :=
  List.findIdx_append

private theorem pairwise_cleanNames (names : List String) :
    (cleanNames names).Pairwise fun a b ↦ firstAt names a < firstAt names b := by
  induction names using List.reverseRecOn with
  | nil => exact List.Pairwise.nil
  | append_singleton before raw ih =>
    have hbefore {a : String} (ha : a ∈ cleanNames before) : firstAt before a < before.length :=
      firstAt_lt_length_iff.mpr (mem_cleanNames_iff.mp ha).2
    have hold : (cleanNames before).Pairwise fun a b ↦
        firstAt (before ++ [raw]) a < firstAt (before ++ [raw]) b := by
      refine ih.imp_of_mem fun {a b} ha hb hab ↦ ?_
      rwa [firstAt_append, firstAt_append, if_pos (hbefore ha), if_pos (hbefore hb)]
    rw [cleanNames_concat]
    split
    · rwa [List.append_nil]
    · next hnew =>
      refine List.pairwise_append.mpr ⟨hold, List.pairwise_singleton _ _, fun a ha b hb ↦ ?_⟩
      obtain rfl := List.mem_singleton.mp hb
      obtain ⟨hne, hnot⟩ := not_or.mp hnew
      have hfirst : ¬firstAt before (Text.trim raw) < before.length := fun h ↦
        hnot (mem_cleanNames_iff.mpr ⟨hne, firstAt_lt_length_iff.mp h⟩)
      rw [firstAt_append, firstAt_append, if_pos (hbefore ha), if_neg hfirst]
      exact Nat.lt_of_lt_of_le (hbefore ha) (Nat.le_add_left _ _)

/-- **Cleaning** keeps the first occurrence of each name. -/
theorem isCleaned_cleanNames (names : List String) : IsCleaned names (cleanNames names) where
  mem_iff _ := mem_cleanNames_iff
  nodup := (pairwise_cleanNames names).imp fun hlt heq ↦ Nat.ne_of_lt hlt (congrArg _ heq)
  inOrder := pairwise_cleanNames names

theorem cleanNames_eq_self (hnames : ∀ name ∈ names, name ≠ "" ∧ Text.trim name = name)
    (hnodup : names.Nodup) : cleanNames names = names := by
  induction names using List.reverseRecOn with
  | nil => rfl
  | append_singleton before name ih =>
    obtain ⟨hbefore, hlast⟩ := List.forall_mem_append.mp hnames
    obtain ⟨hne, htrim⟩ := List.forall_mem_singleton.mp hlast
    rw [List.nodup_append] at hnodup
    have hnew : name ∉ before := fun hmem ↦ hnodup.2.2 name hmem name List.mem_cons_self rfl
    rw [cleanNames_concat, ih hbefore hnodup.1, htrim, if_neg (not_or.mpr ⟨hne, hnew⟩)]

theorem cleanNames_cleanNames (names : List String) :
    cleanNames (cleanNames names) = cleanNames names := by
  refine cleanNames_eq_self (fun name hname ↦ ?_) (isCleaned_cleanNames names).nodup
  obtain ⟨hne, raw, -, rfl⟩ := mem_cleanNames_iff.mp hname
  exact ⟨hne, Text.trim_trim raw⟩

end Settings

end SessionReplay
