import SessionReplay.Proofs.Json.Words

/-!
# A printed value stands on one line

The compact layout has no blanks, and inside a text every control character is escaped, so a printed
value holds no character below the blank: `oneLine_renderChars`. This is what lets a log keep one
value to a line.
-/

namespace SessionReplay.Json

/-- Characters that stand on one line. -/
def OneLine (cs : List Char) : Prop := ∀ c ∈ cs, 0x20 ≤ c.toNat

instance : DecidablePred OneLine := fun cs ↦ List.decidableBAll (fun c : Char ↦ 0x20 ≤ c.toNat) cs

theorem oneLine_append {cs ds : List Char} : OneLine (cs ++ ds) ↔ OneLine cs ∧ OneLine ds :=
  List.forall_mem_append

theorem oneLine_cons {c : Char} {cs : List Char} :
    OneLine (c :: cs) ↔ 0x20 ≤ c.toNat ∧ OneLine cs := List.forall_mem_cons

private theorem oneLine_of_all_isDigit {cs : List Char} (h : cs.all Char.isDigit = true) :
    OneLine cs := by
  intro c hc
  have hdigit := List.all_eq_true.mp h c hc
  simp only [Char.isDigit, Bool.and_eq_true, decide_eq_true_eq] at hdigit
  have hzero : 0x30 ≤ c.toNat := hdigit.1
  omega

private theorem le_toNat_of_simpleEscape? {c d : Char} (h : simpleEscape? c = some d) :
    0x20 ≤ c.toNat := by
  unfold simpleEscape? at h
  split at h
  · next hc => rcases hc with rfl | rfl | rfl <;> decide
  · repeat' split at h
    all_goals first | subst_vars; decide | cases h

private theorem le_toNat_digitChar : ∀ n < 16, 0x20 ≤ (Nat.digitChar n).toNat := by decide

private theorem oneLine_escapeChar (c : Char) : OneLine (escapeChar c) := by
  rcases escapeChar_cases c with ⟨letter, hc, -, hletter, -⟩ | ⟨hc, hcontrol, -⟩ | ⟨hc, hplain, -⟩
  · rw [hc]
    exact oneLine_cons.mpr ⟨by decide, List.forall_mem_singleton.mpr
      (le_toNat_of_simpleEscape? hletter)⟩
  · have hhigh := le_toNat_digitChar (c.toNat / 16) (by omega)
    have hlow := le_toNat_digitChar (c.toNat % 16) (by omega)
    rw [hc]
    simp only [oneLine_cons]
    exact ⟨by decide, by decide, by decide, by decide, hhigh, hlow, List.forall_mem_nil _⟩
  · rw [hc]
    exact List.forall_mem_singleton.mpr hplain

theorem oneLine_quote (s : String) : OneLine (quote s) := by
  have hescaped : OneLine (s.toList.flatMap escapeChar) := by
    intro c hc
    obtain ⟨d, -, hd⟩ := List.mem_flatMap.mp hc
    exact oneLine_escapeChar d c hd
  exact oneLine_append.mpr ⟨oneLine_cons.mpr ⟨by decide, hescaped⟩, by decide⟩

private theorem oneLine_writeInt (n : Int) : OneLine (Decimal.writeInt n) := by
  have hdigits := oneLine_of_all_isDigit (Decimal.all_isDigit_toDigits n.natAbs)
  rw [Decimal.writeInt]
  split
  · exact oneLine_cons.mpr ⟨by decide, hdigits⟩
  · exact hdigits

private theorem oneLine_boolText (b : Bool) : OneLine (boolText b) := by
  cases b <;> decide

private theorem oneLine_renderItems {items : List Json}
    (h : ∀ item ∈ items, OneLine item.renderChars) :
    OneLine (renderItems items) := by
  induction items with
  | nil => exact List.forall_mem_nil _
  | cons item items ih =>
    obtain ⟨hitem, hitems⟩ := List.forall_mem_cons.mp h
    cases items with
    | nil => exact hitem
    | cons next items => exact oneLine_append.mpr ⟨hitem, oneLine_cons.mpr ⟨by decide, ih hitems⟩⟩

private theorem oneLine_renderFields {fields : List (String × Json)}
    (h : ∀ field ∈ fields, OneLine field.2.renderChars) : OneLine (renderFields fields) := by
  induction fields with
  | nil => exact List.forall_mem_nil _
  | cons field fields ih =>
    obtain ⟨hfield, hfields⟩ := List.forall_mem_cons.mp h
    have hfirst : OneLine (quote field.1 ++ ':' :: field.2.renderChars) :=
      oneLine_append.mpr ⟨oneLine_quote field.1, oneLine_cons.mpr ⟨by decide, hfield⟩⟩
    cases fields with
    | nil => exact hfirst
    | cons next fields =>
      exact oneLine_append.mpr ⟨hfirst, oneLine_cons.mpr ⟨by decide, ih hfields⟩⟩

/-- A printed value stands on one line. -/
theorem oneLine_renderChars {j : Json} (h : j.Plain) : OneLine j.renderChars := by
  induction h with
  | null => decide
  | bool b => exact oneLine_boolText b
  | int h => exact oneLine_writeInt _
  | string s => exact oneLine_quote s
  | array _ ih =>
    exact oneLine_append.mpr ⟨oneLine_cons.mpr ⟨by decide, oneLine_renderItems ih⟩, by decide⟩
  | object _ ih =>
    exact oneLine_append.mpr ⟨oneLine_cons.mpr ⟨by decide, oneLine_renderFields ih⟩, by decide⟩

end SessionReplay.Json
