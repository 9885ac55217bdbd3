import Mathlib.Data.String.Basic

/-!
# Texts in the order of their bytes

Texts are compared character by character, and in a file they are bytes. Both give one order, since
UTF-8 writes a higher character with higher bytes: `bytes_lt_bytes_iff`.
-/

namespace SessionReplay.Text

/-- The bytes of a text. -/
def bytes (s : String) : List UInt8 := s.toUTF8.data.toList

private theorem bytes_eq_flatMap (s : String) :
    bytes s = s.toList.flatMap String.utf8EncodeChar := by
  have h := String.toByteArray_ofList (l := s.toList)
  rw [String.ofList_toList] at h
  rw [bytes, String.toUTF8_eq_toByteArray, h, List.utf8Encode, List.data_toByteArray]

private theorem ofNat_lt_ofNat_iff {m n : Nat} :
    UInt8.ofNat m < UInt8.ofNat n ↔ m % 256 < n % 256 := by
  rw [UInt8.lt_iff_toNat_lt, UInt8.toNat_ofNat', UInt8.toNat_ofNat']

private theorem ofNat_eq_ofNat_iff {m n : Nat} :
    UInt8.ofNat m = UInt8.ofNat n ↔ m % 256 = n % 256 := by
  rw [← UInt8.toNat_inj, UInt8.toNat_ofNat', UInt8.toNat_ofNat']

/-- A higher character is written with higher bytes, whatever follows. -/
private theorem utf8EncodeChar_append_lt {c d : Char} (h : c < d) (xs ys : List UInt8) :
    String.utf8EncodeChar c ++ xs < String.utf8EncodeChar d ++ ys := by
  have hlt : c.val.toNat < d.val.toNat := h
  have hvalid : d.val.toNat < 0x110000 := by
    have := d.valid
    simp only [UInt32.isValidChar, Nat.isValidChar] at this
    omega
  rw [String.utf8EncodeChar, String.utf8EncodeChar]
  generalize c.val.toNat = m at hlt ⊢
  generalize d.val.toNat = n at hlt hvalid ⊢
  have hdigits (n : Nat) : n / 4096 = n / 64 / 64 ∧ n / 262144 = n / 64 / 64 / 64 := by omega
  rw [(hdigits m).1, (hdigits m).2, (hdigits n).1, (hdigits n).2]
  -- A character with more bytes has a higher first byte. Two with as many bytes are compared digit
  -- by digit.
  repeat' split
  all_goals
    simp only [List.cons_append, List.nil_append, List.cons_lt_cons_iff, ofNat_lt_ofNat_iff,
      ofNat_eq_ofNat_iff]
    omega

theorem bytes_lt_bytes {s t : String} (h : s < t) : bytes s < bytes t := by
  rw [String.lt_iff_toList_lt] at h
  rw [bytes_eq_flatMap, bytes_eq_flatMap]
  generalize s.toList = cs at h ⊢
  generalize t.toList = ds at h ⊢
  induction h with
  | @nil d ds =>
    obtain ⟨b, bs, hbytes⟩ := List.exists_cons_of_ne_nil (String.utf8EncodeChar_ne_nil (c := d))
    rw [List.flatMap_nil, List.flatMap_cons, hbytes]
    exact List.nil_lt_cons _ _
  | rel h => exact utf8EncodeChar_append_lt h _ _
  | cons h ih => exact List.append_left_lt ih

/-- **The order of texts is that of their bytes.** -/
theorem bytes_lt_bytes_iff {s t : String} : bytes s < bytes t ↔ s < t := by
  refine ⟨fun h ↦ ?_, bytes_lt_bytes⟩
  by_contra hle
  rcases (not_lt.mp hle).eq_or_lt with rfl | hgt
  · exact List.lt_irrefl _ h
  · exact List.lt_asymm h (bytes_lt_bytes hgt)

end SessionReplay.Text
