/-!
# Whole numbers in decimal

Reading and writing whole numbers. Digits are the ten ASCII digits; a number has at least one, and
leading zeros are allowed.

Main statements: `readNat?_toDigits` and `readNat?_twoDigits` — reading gives back what was written.
-/

namespace SessionReplay.Decimal

/-- The value of a digit. -/
def digitValue (c : Char) : Nat := c.toNat - '0'.toNat

/-- The number that a list of digits stands for. -/
def ofDigits (cs : List Char) : Nat := cs.foldl (fun n c ↦ 10 * n + digitValue c) 0

/-- A number without a sign. -/
def readNat? (cs : List Char) : Option Nat :=
  if cs ≠ [] ∧ cs.all Char.isDigit then some (ofDigits cs) else none

/-- A number with at most one sign before it. -/
def readInt? : List Char → Option Int
  | '-' :: cs => (readNat? cs).map fun n ↦ -n
  | '+' :: cs => (readNat? cs).map Int.ofNat
  | cs => (readNat? cs).map Int.ofNat

/-- The digits of a number, after a sign if it is negative. -/
def writeInt (n : Int) : List Char :=
  if n < 0 then '-' :: Nat.toDigits 10 n.natAbs else Nat.toDigits 10 n.natAbs

/-- A number in two digits at least. -/
def twoDigits (n : Nat) : List Char :=
  if n < 10 then ['0', Nat.digitChar n] else Nat.toDigits 10 n

/-! ## Reading what was written -/

theorem ofDigits_concat (cs : List Char) (c : Char) :
    ofDigits (cs ++ [c]) = 10 * ofDigits cs + digitValue c := by
  simp [ofDigits, List.foldl_append]

theorem digitValue_digitChar {n : Nat} (h : n < 10) : digitValue (Nat.digitChar n) = n := by
  match n, h with
  | 0, _ | 1, _ | 2, _ | 3, _ | 4, _ | 5, _ | 6, _ | 7, _ | 8, _ | 9, _ => rfl

private theorem isDigit_digitChar {n : Nat} (h : n < 10) : (Nat.digitChar n).isDigit = true := by
  match n, h with
  | 0, _ | 1, _ | 2, _ | 3, _ | 4, _ | 5, _ | 6, _ | 7, _ | 8, _ | 9, _ => rfl

theorem ofDigits_toDigits (n : Nat) : ofDigits (Nat.toDigits 10 n) = n := by
  induction n using Nat.strongRecOn with
  | ind n ih =>
    rcases Nat.lt_or_ge n 10 with h | h
    · rw [Nat.toDigits_of_lt_base h]
      simp [ofDigits, digitValue_digitChar h]
    · rw [Nat.toDigits_of_base_le (by omega) h, ofDigits_concat, ih (n / 10) (by omega),
        digitValue_digitChar (Nat.mod_lt n (by omega))]
      omega

theorem all_isDigit_toDigits (n : Nat) : (Nat.toDigits 10 n).all Char.isDigit = true := by
  induction n using Nat.strongRecOn with
  | ind n ih =>
    rcases Nat.lt_or_ge n 10 with h | h
    · simp [Nat.toDigits_of_lt_base h, isDigit_digitChar h]
    · rw [Nat.toDigits_of_base_le (by omega) h, List.all_append, ih (n / 10) (by omega)]
      simp [isDigit_digitChar (Nat.mod_lt n (by omega : 10 > 0))]

theorem toDigits_ne_nil (n : Nat) : Nat.toDigits 10 n ≠ [] := by
  rcases Nat.lt_or_ge n 10 with h | h
  · simp [Nat.toDigits_of_lt_base h]
  · simp [Nat.toDigits_of_base_le (by omega) h]

theorem readNat?_toDigits (n : Nat) : readNat? (Nat.toDigits 10 n) = some n := by
  rw [readNat?, if_pos ⟨toDigits_ne_nil n, all_isDigit_toDigits n⟩, ofDigits_toDigits]

theorem all_isDigit_of_readNat? {cs : List Char} {n : Nat} (h : readNat? cs = some n) :
    cs.all Char.isDigit = true := by
  rw [readNat?] at h
  split at h
  · next hdigits => exact hdigits.2
  · cases h

/-- A zero before a number does not change it. -/
theorem readNat?_zero_cons {cs : List Char} {n : Nat} (h : readNat? cs = some n) :
    readNat? ('0' :: cs) = some n := by
  rw [readNat?] at h ⊢
  split at h
  · next hdigits =>
    rw [if_pos ⟨List.cons_ne_nil _ _, hdigits.2⟩]
    exact h
  · cases h

theorem readNat?_twoDigits (n : Nat) : readNat? (twoDigits n) = some n := by
  rw [twoDigits]
  split
  · next h =>
    rw [← Nat.toDigits_of_lt_base h]
    exact readNat?_zero_cons (readNat?_toDigits n)
  · exact readNat?_toDigits n

end SessionReplay.Decimal
