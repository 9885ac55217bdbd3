/-!
# Texts

Identifiers and names arrive with stray blanks around them. A blank is a character with the
White_Space property, which is wider than the blanks of a keyboard (it holds the no-break space and
the ideographic space) and does not hold the zero-width characters.

Keywords on the wire are compared without regard to the case of the 26 Latin letters. No other
letter has a case here.

Main statements: `trim_trim`, and `trim_eq_empty_iff` — a text trims to nothing exactly when all its
characters are blank.
-/

namespace SessionReplay.Text

/-! ## Letter case -/

/-- A text with its Latin capitals made small. -/
def lower (s : String) : String := String.ofList (s.toList.map Char.toLower)

/-- Whether two texts are equal but for the case of Latin letters. -/
def sameButCase (s t : String) : Bool := lower s == lower t

/-! ## Blanks -/

/-- The characters with the White_Space property, as closed ranges of code points. -/
def blankRanges : List (Nat × Nat) :=
  [(0x9, 0xd), (0x20, 0x20), (0x85, 0x85), (0xa0, 0xa0), (0x1680, 0x1680), (0x2000, 0x200a),
    (0x2028, 0x2029), (0x202f, 0x202f), (0x205f, 0x205f), (0x3000, 0x3000)]

/-- Whether a character has the White_Space property. -/
def isBlank (c : Char) : Bool := blankRanges.any fun r ↦ r.1 ≤ c.toNat && c.toNat ≤ r.2

/-- A list of characters without the blanks at both ends. -/
def trimChars (cs : List Char) : List Char :=
  ((cs.dropWhile isBlank).reverse.dropWhile isBlank).reverse

/-- A text without the blanks at both ends. -/
def trim (s : String) : String := String.ofList (trimChars s.toList)

/-- The trimmed text, unless nothing is left of it. -/
def nonBlank? (s : String) : Option String :=
  let t := trim s
  if t = "" then none else some t

/-! ## Trimming twice -/

private theorem trimChars_eq_nil_iff {cs : List Char} :
    trimChars cs = [] ↔ ∀ c ∈ cs, isBlank c = true := by
  unfold trimChars
  rw [List.reverse_eq_nil_iff]
  have key : ∀ xs : List Char, xs.dropWhile isBlank = [] ↔ ∀ c ∈ xs, isBlank c = true := by
    intro xs
    induction xs with
    | nil => simp
    | cons x rest ih => by_cases hx : isBlank x <;> simp [hx, ih]
  rw [key, ← key cs]
  constructor
  · intro h
    cases hd : cs.dropWhile isBlank with
    | nil => rfl
    | cons x rest =>
      have hx := List.head?_dropWhile_not isBlank cs
      rw [hd] at hx h
      simp only [List.head?_cons] at hx
      rw [h x (by simp)] at hx
      exact absurd hx (by simp)
  · intro h; simp [h]

private theorem dropWhile_idem (p : Char → Bool) (cs : List Char) :
    (cs.dropWhile p).dropWhile p = cs.dropWhile p := by
  induction cs with
  | nil => rfl
  | cons c rest ih => by_cases hc : p c <;> simp [hc, ih]

/-- A list that starts with no blank keeps its start when blanks are dropped from its end. -/
private theorem dropWhile_dropEnd {cs : List Char} (h : cs.dropWhile isBlank = cs) :
    ((cs.reverse.dropWhile isBlank).reverse).dropWhile isBlank =
      (cs.reverse.dropWhile isBlank).reverse := by
  cases hd : (cs.reverse.dropWhile isBlank).reverse with
  | nil => rfl
  | cons x rest =>
    have hpre : (cs.reverse.dropWhile isBlank).reverse <+: cs := by
      have := List.dropWhile_suffix (l := cs.reverse) isBlank
      rw [← List.reverse_prefix] at this
      simpa using this
    rw [hd] at hpre
    obtain ⟨t, ht⟩ := hpre
    have hx : isBlank x = false := by
      cases hb : isBlank x with
      | false => rfl
      | true =>
        have hlen : (cs.dropWhile isBlank).length = cs.length := by rw [h]
        rw [← ht] at hlen
        have := (List.dropWhile_suffix (l := rest ++ t) isBlank).length_le
        simp only [List.cons_append, List.dropWhile_cons, hb, List.length_cons, if_true] at hlen
        omega
    simp [hx]

private theorem trimChars_trimChars (cs : List Char) : trimChars (trimChars cs) = trimChars cs := by
  unfold trimChars
  rw [dropWhile_dropEnd (dropWhile_idem isBlank cs), List.reverse_reverse, dropWhile_idem]

@[simp] theorem trim_trim (s : String) : trim (trim s) = trim s := by
  simp [trim, trimChars_trimChars]

theorem trim_eq_empty_iff {s : String} : trim s = "" ↔ ∀ c ∈ s.toList, isBlank c = true := by
  rw [← trimChars_eq_nil_iff, trim, ← String.toList_inj, String.toList_ofList]
  rfl

end SessionReplay.Text
