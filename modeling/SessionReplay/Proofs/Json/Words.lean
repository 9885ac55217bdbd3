import SessionReplay.Json.Printer
import SessionReplay.Json.Token

/-!
# The words of a printed value

Printing a value and cutting the text into words gives the words of the value, one after the other:
`tokens?_renderChars`. Doubles are the exception. Their text is the shortest decimal that rounds to
them, and reading rounds twice on the way back, so a double may come back as its neighbour; the
values here are `Plain`.

## What may follow a number

A number is the only word that does not say where it ends: it takes all the digits there are. So the
step from one word to the next is stated for a text that goes on with the end of something,
`EndsWord`, and inside a printed value nothing else ever follows a number.
-/

namespace SessionReplay.Json

/-! ## Values without doubles -/

/-- A number that some text stands for: a whole number fits a word of 64 bits, signed or
unsigned. -/
def Number.Fits : Number → Prop
  | .whole n => Int64.minValue.toInt ≤ n ∧ n < UInt64.size
  | .double _ => True

/-- A value whose numbers are all whole and fit a word. -/
inductive Plain : Json → Prop
  | null : Plain .null
  | bool (b : Bool) : Plain (.bool b)
  | int {n : Int} (h : (Number.whole n).Fits) : Plain (int n)
  | string (s : String) : Plain (.string s)
  | array {items : List Json} (h : ∀ item ∈ items, Plain item) : Plain (.array items)
  | object {fields : List (String × Json)} (h : ∀ field ∈ fields, Plain field.2) :
    Plain (.object fields)

/-! ## Texts -/

/-- How a character stands in a printed text: as itself, or by its number. -/
def pieceOf (c : Char) : Piece :=
  if c.toNat < 0x20 ∧ c ∉ ['\x08', '\t', '\n', '\x0c', '\r'] then .unit c.toNat else .char c

private theorem hexValue?_digitChar : ∀ n < 16, hexValue? (Nat.digitChar n) = some n := by decide

private theorem hexUnit?_digitChar {n : Nat} (h : n < 256) :
    hexUnit? '0' '0' (Nat.digitChar (n / 16)) (Nat.digitChar (n % 16)) = some n := by
  have hzero : hexValue? '0' = some 0 := by decide
  have hhigh : hexValue? (Nat.digitChar (n / 16)) = some (n / 16) :=
    hexValue?_digitChar _ (by omega)
  have hlow : hexValue? (Nat.digitChar (n % 16)) = some (n % 16) := hexValue?_digitChar _ (by omega)
  simp only [hexUnit?, hzero, hhigh, hlow, Option.bind_eq_bind, Option.bind_some]
  congr 1
  omega

/-- A character is escaped by a letter, by its number, or not at all. -/
theorem escapeChar_cases (c : Char) :
    (∃ letter, escapeChar c = ['\\', letter] ∧ letter ≠ 'u' ∧ simpleEscape? letter = some c ∧
      pieceOf c = .char c) ∨
    (escapeChar c =
        ['\\', 'u', '0', '0', Nat.digitChar (c.toNat / 16), Nat.digitChar (c.toNat % 16)] ∧
      c.toNat < 0x20 ∧ pieceOf c = .unit c.toNat) ∨
    (escapeChar c = [c] ∧ 0x20 ≤ c.toNat ∧ c ≠ '"' ∧ c ≠ '\\' ∧ pieceOf c = .char c) := by
  by_cases hletter : c ∈ ['"', '\\', '\x08', '\t', '\n', '\x0c', '\r']
  · refine Or.inl ?_
    simp only [List.mem_cons, List.not_mem_nil, or_false] at hletter
    rcases hletter with rfl | rfl | rfl | rfl | rfl | rfl | rfl <;>
      exact ⟨_, rfl, by decide, by decide, by decide⟩
  · simp only [List.mem_cons, List.not_mem_nil, or_false, not_or] at hletter
    by_cases hcontrol : c.toNat < 0x20
    · exact Or.inr (Or.inl ⟨by simp [escapeChar, hletter, hcontrol], hcontrol,
        by simp [pieceOf, hletter, hcontrol]⟩)
    · exact Or.inr (Or.inr ⟨by simp [escapeChar, hletter, hcontrol], Nat.le_of_not_lt hcontrol,
        hletter.1, hletter.2.1, by simp [pieceOf, hcontrol]⟩)

private theorem scanPieces_escapeChar (before : List Piece) (c : Char) (rest : List Char) :
    scanPieces before (escapeChar c ++ rest) = scanPieces (pieceOf c :: before) rest := by
  rcases escapeChar_cases c with ⟨letter, hc, hu, hletter, hpiece⟩ | ⟨hc, hcontrol, hpiece⟩
    | ⟨hc, hcontrol, hquote, hslash, hpiece⟩
  · rw [hc, hpiece, List.cons_append, List.cons_append, List.nil_append, scanPieces, hletter]
    · rfl
    · exact fun _ _ _ _ _ hletter' _ ↦ hu hletter'
  · simp only [hc, hpiece, List.cons_append, List.nil_append, scanPieces,
      hexUnit?_digitChar (show c.toNat < 256 by omega), Option.bind_eq_bind, Option.bind_some]
  · rw [hc, hpiece, List.singleton_append, scanPieces, if_neg (not_or.mpr ⟨by omega, hslash⟩)]
    · exact hquote
    · exact fun _ _ _ _ _ hc' _ ↦ hslash hc'
    · exact fun _ _ hc' _ ↦ hslash hc'

private theorem scanPieces_quoted (before : List Piece) (cs rest : List Char) :
    scanPieces before (cs.flatMap escapeChar ++ '"' :: rest)
      = some (before.reverse ++ cs.map pieceOf, rest) := by
  induction cs generalizing before with
  | nil => simp [scanPieces]
  | cons c cs ih =>
    rw [List.flatMap_cons, List.append_assoc, scanPieces_escapeChar, ih]
    simp

/-- A control character is no half of another one, whatever follows it. -/
theorem joinPieces_unit {n : Nat} (h : n < 0x20) (before : List Char) (rest : List Piece) :
    joinPieces before (.unit n :: rest) = joinPieces (Char.ofNat n :: before) rest := by
  have hlow : ¬ 0xd800 ≤ n := by omega
  have hhigh : ¬ 0xdc00 ≤ n := by omega
  cases rest with
  | nil => simp [joinPieces, hlow]
  | cons piece rest =>
    cases piece with
    | char c => simp [joinPieces, hlow]
    | unit m => simp [joinPieces, hlow, hhigh]

private theorem joinPieces_map_pieceOf (before cs : List Char) :
    joinPieces before (cs.map pieceOf) = some (before.reverse ++ cs) := by
  induction cs generalizing before with
  | nil => simp [joinPieces]
  | cons c cs ih =>
    have hcons : joinPieces before ((c :: cs).map pieceOf)
        = joinPieces (c :: before) (cs.map pieceOf) := by
      rw [List.map_cons]
      rcases escapeChar_cases c with ⟨-, -, -, -, hpiece⟩ | ⟨-, hcontrol, hpiece⟩
        | ⟨-, -, -, -, hpiece⟩
      · rw [hpiece, joinPieces]
      · rw [hpiece, joinPieces_unit hcontrol, Char.ofNat_toNat]
      · rw [hpiece, joinPieces]
    rw [hcons, ih]
    simp

private theorem scanToken_quote (s : String) (rest : List Char) :
    scanToken (quote s ++ rest) = some (.string (some s), rest) := by
  have htext : textOf? (s.toList.map pieceOf) = some s := by
    rw [textOf?, joinPieces_map_pieceOf]
    simp
  simp [quote, scanToken, scanPieces_quoted, htext]

/-! ## Numbers -/

/-- What follows a number in a printed value: nothing, a comma or the end of an array or object. -/
def EndsWord (rest : List Char) : Prop := ∀ c ∈ rest.head?, c = ',' ∨ c = ']' ∨ c = '}'

theorem endsWord_nil : EndsWord [] := fun _ h ↦ nomatch h

theorem endsWord_cons {c : Char} (h : c = ',' ∨ c = ']' ∨ c = '}') (rest : List Char) :
    EndsWord (c :: rest) := fun _ hc ↦ Option.some.inj hc ▸ h

private theorem head?_toDigits {n : Nat} (h : n ≠ 0) : (Nat.toDigits 10 n).head? ≠ some '0' := by
  induction n using Nat.strongRecOn with
  | ind n ih =>
    rcases Nat.lt_or_ge n 10 with hn | hn
    · rw [Nat.toDigits_of_lt_base hn, List.head?_singleton]
      intro hdigit
      have hvalue := Decimal.digitValue_digitChar hn
      rw [Option.some.inj hdigit] at hvalue
      exact h hvalue.symm
    · rw [Nat.toDigits_of_base_le (by omega) hn,
        List.head?_append]
      have hne := ih (n / 10) (by omega) (by omega)
      cases hd : Nat.toDigits 10 (n / 10) with
      | nil => exact absurd hd (Decimal.toDigits_ne_nil _)
      | cons c cs => rwa [hd] at hne

private theorem spanDigits_append {ds rest : List Char} (hds : ds.all Char.isDigit = true)
    (hrest : EndsWord rest) : spanDigits (ds ++ rest) = (ds, rest) := by
  have hds : ∀ c ∈ ds, c.isDigit = true := List.all_eq_true.mp hds
  have hstop : rest.takeWhile Char.isDigit = [] ∧ rest.dropWhile Char.isDigit = rest := by
    cases rest with
    | nil => exact ⟨rfl, rfl⟩
    | cons c rest =>
      have hc : c.isDigit = false := by
        rcases hrest c rfl with rfl | rfl | rfl <;> rfl
      simp [hc]
  rw [spanDigits, List.takeWhile_append_of_pos hds, List.dropWhile_append_of_pos hds, hstop.1,
    hstop.2, List.append_nil]

private theorem scanFraction_of_endsWord {rest : List Char} (h : EndsWord rest) :
    scanFraction rest = some ([], rest) := by
  cases rest with
  | nil => rfl
  | cons c rest => rcases h c rfl with rfl | rfl | rfl <;> rfl

private theorem scanExponent_of_endsWord {rest : List Char} (h : EndsWord rest) :
    scanExponent rest = some (none, rest) := by
  cases rest with
  | nil => rfl
  | cons c rest => rcases h c rfl with rfl | rfl | rfl <;> rfl

private theorem scanUnsigned_toDigits (negative : Bool) (n : Nat) {rest : List Char}
    (h : EndsWord rest) :
    scanUnsigned negative (Nat.toDigits 10 n ++ rest)
      = some ((Literal.mk negative (Nat.toDigits 10 n) [] none true).number?, rest) := by
  have hlead : ¬ (Nat.toDigits 10 n = [] ∨
      ((Nat.toDigits 10 n).head? = some '0' ∧ (Nat.toDigits 10 n).length ≠ 1)) := by
    rintro (hnil | ⟨hzero, hlength⟩)
    · exact Decimal.toDigits_ne_nil n hnil
    · by_cases hn : n = 0
      · subst hn
        exact hlength rfl
      · exact head?_toDigits hn hzero
  rw [scanUnsigned, spanDigits_append (Decimal.all_isDigit_toDigits n) h]
  simp only [if_neg hlead, scanFraction_of_endsWord h, scanExponent_of_endsWord h,
    Option.bind_eq_bind, Option.bind_some]
  rfl

private theorem number?_toDigits {n : Int} (h : (Number.whole n).Fits) :
    (Literal.mk (decide (n < 0)) (Nat.toDigits 10 n.natAbs) [] none true).number?
      = some (.whole n) := by
  obtain ⟨hleast, hgreatest⟩ := h
  simp only [Literal.number?, Decimal.ofDigits_toDigits]
  by_cases hn : n < 0
  · have habs : (n.natAbs : Int) = -n := by omega
    rw [if_neg (by simp [hn]),
      if_pos ⟨trivial, by simpa using hn, by omega, by rw [habs]; omega⟩, habs]
    simp
  · have habs : (n.natAbs : Int) = n := by omega
    rw [if_pos ⟨trivial, by simpa using hn, by omega⟩, habs]

private theorem exists_toDigits_eq_cons (n : Nat) :
    ∃ c cs, Nat.toDigits 10 n = c :: cs ∧ c.isDigit = true := by
  have hdigits := Decimal.all_isDigit_toDigits n
  cases hd : Nat.toDigits 10 n with
  | nil => exact absurd hd (Decimal.toDigits_ne_nil _)
  | cons c cs =>
    rw [hd, List.all_cons, Bool.and_eq_true] at hdigits
    exact ⟨c, cs, rfl, hdigits.1⟩

/-- The first character of a number. -/
theorem exists_writeInt_eq_cons (n : Int) :
    ∃ c cs, Decimal.writeInt n = c :: cs ∧ (c.isDigit = true ∨ c = '-') := by
  rw [Decimal.writeInt]
  split
  · exact ⟨_, _, rfl, Or.inr rfl⟩
  · obtain ⟨c, cs, hcs, hc⟩ := exists_toDigits_eq_cons n.natAbs
    exact ⟨c, cs, hcs, Or.inl hc⟩

private theorem scanNumber_of_isDigit {c : Char} (h : c.isDigit = true) (cs : List Char) :
    scanNumber (c :: cs) = scanUnsigned false (c :: cs) := by
  rw [scanNumber]
  rintro cs' hcs
  rw [(List.cons.inj hcs).1] at h
  exact absurd h (by decide)

private theorem scanNumber_writeInt {n : Int} (h : (Number.whole n).Fits) {rest : List Char}
    (hrest : EndsWord rest) :
    scanNumber (Decimal.writeInt n ++ rest) = some (some (.whole n), rest) := by
  have hnumber := number?_toDigits h
  have hscan (negative : Bool) := scanUnsigned_toDigits negative n.natAbs hrest
  by_cases hn : n < 0
  · rw [decide_eq_true hn] at hnumber
    rw [Decimal.writeInt, if_pos hn, List.cons_append, scanNumber, hscan, hnumber]
  · rw [decide_eq_false hn] at hnumber
    obtain ⟨c, cs, hcs, hc⟩ := exists_toDigits_eq_cons n.natAbs
    rw [Decimal.writeInt, if_neg hn, ← hnumber, ← hscan, hcs]
    exact scanNumber_of_isDigit hc _

private theorem scanToken_of_isDigit {c : Char} (h : c.isDigit = true ∨ c = '-') (cs : List Char) :
    scanToken (c :: cs) = (scanNumber (c :: cs)).map fun (n, rest) ↦ (.number n, rest) := by
  have hpunctuation : punctuation? c = none := by
    unfold punctuation?
    rcases h with h | rfl
    · repeat' split
      all_goals simp_all
    · rfl
  rw [scanToken.eq_def]
  split <;> simp_all

private theorem scanToken_writeInt {n : Int} (h : (Number.whole n).Fits) {rest : List Char}
    (hrest : EndsWord rest) :
    scanToken (Decimal.writeInt n ++ rest) = some (.number (some (.whole n)), rest) := by
  have hscan := scanNumber_writeInt h hrest
  obtain ⟨c, cs, hcs, hc⟩ := exists_writeInt_eq_cons n
  rw [hcs, List.cons_append] at hscan ⊢
  rw [scanToken_of_isDigit hc, hscan]
  rfl

/-! ## Values -/

mutual

/-- The words of a value. -/
def words : Json → List Token
  | .null => [.null]
  | .bool b => [.bool b]
  | .number n => [.number (some n)]
  | .string s => [.string (some s)]
  | .array items => .openBracket :: wordsOfItems items ++ [.closeBracket]
  | .object fields => .openBrace :: wordsOfFields fields ++ [.closeBrace]

/-- The words of items with commas between them. -/
def wordsOfItems : List Json → List Token
  | [] => []
  | [item] => words item
  | item :: next :: rest => words item ++ .comma :: wordsOfItems (next :: rest)

/-- The words of fields with commas between them. -/
def wordsOfFields : List (String × Json) → List Token
  | [] => []
  | [(name, value)] => .string (some name) :: .colon :: words value
  | (name, value) :: next :: rest =>
    .string (some name) :: .colon :: words value ++ .comma :: wordsOfFields (next :: rest)

end

/-- Characters, before others, are cut into words. -/
def CutsInto (cs : List Char) (ts : List Token) (rest : List Char) : Prop :=
  ∀ before, tokensAfter? before (cs ++ rest) = tokensAfter? (ts.reverse ++ before) rest

section

variable {cs ds rest : List Char} {ts us : List Token} {t : Token}

theorem CutsInto.append (h : CutsInto cs ts (ds ++ rest)) (h' : CutsInto ds us rest) :
    CutsInto (cs ++ ds) (ts ++ us) rest := by
  intro before
  rw [List.append_assoc, h, h', List.reverse_append, List.append_assoc]

theorem tokensAfter?_cons {c : Char} (h : isSpace c = false) (before : List Token)
    (cs : List Char) :
    tokensAfter? before (c :: cs)
      = (scanToken (c :: cs)).bind fun p ↦ tokensAfter? (p.1 :: before) p.2 := by
  rw [tokensAfter?, if_neg (by simp [h])]
  split <;> simp_all

theorem CutsInto.word (hspace : ∀ c ∈ cs.head?, isSpace c = false) (hne : cs ≠ [])
    (h : scanToken (cs ++ rest) = some (t, rest)) : CutsInto cs [t] rest := by
  intro before
  obtain ⟨c, cs, rfl⟩ := List.exists_cons_of_ne_nil hne
  rw [List.cons_append] at h ⊢
  rw [tokensAfter?_cons (hspace c rfl), h]
  rfl

theorem cutsInto_quote (s : String) : CutsInto (quote s) [.string (some s)] rest :=
  .word (fun _ hc ↦ Option.some.inj hc ▸ rfl) (List.cons_ne_nil _ _) (scanToken_quote s rest)

private theorem cutsInto_writeInt {n : Int} (h : (Number.whole n).Fits) (hrest : EndsWord rest) :
    CutsInto (Decimal.writeInt n) [.number (some (.whole n))] rest := by
  obtain ⟨c, cs, hcs, hc⟩ := exists_writeInt_eq_cons n
  refine .word ?_ (hcs ▸ List.cons_ne_nil c cs) (scanToken_writeInt h hrest)
  intro d hd
  rw [hcs] at hd
  obtain rfl := Option.some.inj hd
  unfold isSpace
  rcases hc with hc | rfl
  · simp only [Bool.or_eq_false_iff, decide_eq_false_iff_not]
    refine ⟨⟨⟨?_, ?_⟩, ?_⟩, ?_⟩ <;> rintro rfl <;> exact absurd hc (by decide)
  · rfl

private theorem cutsInto_boolText (b : Bool) : CutsInto (boolText b) [.bool b] rest := by
  cases b with
  | false => exact .word (fun _ hc ↦ Option.some.inj hc ▸ rfl) (List.cons_ne_nil _ _) rfl
  | true => exact .word (fun _ hc ↦ Option.some.inj hc ▸ rfl) (List.cons_ne_nil _ _) rfl

/-- A word of one character. -/
theorem CutsInto.punctuation {c : Char} (h : punctuation? c = some t) : CutsInto [c] [t] rest := by
  have hscan : isSpace c = false ∧
      scanToken (c :: rest) = (punctuation? c).map fun t ↦ (t, rest) := by
    have hc : c ∈ ['{', '}', '[', ']', ',', ':'] := by
      unfold punctuation? at h
      repeat' split at h
      all_goals simp_all
    simp only [List.mem_cons, List.not_mem_nil, or_false] at hc
    rcases hc with rfl | rfl | rfl | rfl | rfl | rfl <;> exact ⟨rfl, rfl⟩
  refine .word ?_ (List.cons_ne_nil _ _) ?_
  · exact fun _ hd ↦ Option.some.inj hd ▸ hscan.1
  · rw [List.singleton_append, hscan.2, h]
    rfl

theorem CutsInto.enclose {a b : Char} {u : Token} (ha : punctuation? a = some t)
    (hb : punctuation? b = some u) (h : CutsInto cs ts (b :: rest)) :
    CutsInto (a :: cs ++ [b]) (t :: ts ++ [u]) rest :=
  CutsInto.append (CutsInto.append (.punctuation ha) h) (.punctuation hb)

/-- Characters that are cut into words before everything that may follow a value. -/
def CutsBeforeEnd (cs : List Char) (ts : List Token) : Prop :=
  ∀ rest, EndsWord rest → CutsInto cs ts rest

theorem CutsBeforeEnd.comma (h : CutsBeforeEnd cs ts) (h' : CutsBeforeEnd ds us) :
    CutsBeforeEnd (cs ++ ',' :: ds) (ts ++ .comma :: us) := by
  intro rest hrest
  refine CutsInto.append (h _ (endsWord_cons (Or.inl rfl) _)) ?_
  exact CutsInto.append (.punctuation rfl) (h' rest hrest)

theorem cutsBeforeEnd_nil : CutsBeforeEnd [] [] := fun _ _ _ ↦ rfl

private theorem cutsBeforeEnd_renderItems {items : List Json}
    (h : ∀ item ∈ items, CutsBeforeEnd item.renderChars item.words) :
    CutsBeforeEnd (renderItems items) (wordsOfItems items) := by
  induction items with
  | nil => exact cutsBeforeEnd_nil
  | cons item items ih =>
    obtain ⟨hitem, hitems⟩ := List.forall_mem_cons.mp h
    cases items with
    | nil => exact hitem
    | cons next items => exact hitem.comma (ih hitems)

private theorem cutsBeforeEnd_field (name : String) {value : Json}
    (h : CutsBeforeEnd value.renderChars value.words) :
    CutsBeforeEnd (quote name ++ ':' :: value.renderChars)
      (.string (some name) :: .colon :: value.words) := by
  intro rest hrest
  refine CutsInto.append (cutsInto_quote name) ?_
  exact CutsInto.append (.punctuation rfl) (h rest hrest)

private theorem cutsBeforeEnd_renderFields {fields : List (String × Json)}
    (h : ∀ field ∈ fields, CutsBeforeEnd field.2.renderChars field.2.words) :
    CutsBeforeEnd (renderFields fields) (wordsOfFields fields) := by
  induction fields with
  | nil => exact cutsBeforeEnd_nil
  | cons field fields ih =>
    obtain ⟨hfield, hfields⟩ := List.forall_mem_cons.mp h
    cases fields with
    | nil => exact cutsBeforeEnd_field field.1 hfield
    | cons next fields => exact (cutsBeforeEnd_field field.1 hfield).comma (ih hfields)

private theorem cutsBeforeEnd_renderChars {j : Json} (h : j.Plain) :
    CutsBeforeEnd j.renderChars j.words := by
  induction h with
  | null =>
    intro rest hrest
    exact .word (fun _ hc ↦ Option.some.inj hc ▸ rfl) (List.cons_ne_nil _ _) rfl
  | bool b => exact fun _ _ ↦ cutsInto_boolText b
  | int h => exact fun _ hrest ↦ cutsInto_writeInt h hrest
  | string s => exact fun _ _ ↦ cutsInto_quote s
  | array _ ih =>
    intro rest hrest
    exact .enclose rfl rfl
      (cutsBeforeEnd_renderItems ih _ (endsWord_cons (Or.inr (Or.inl rfl)) rest))
  | object _ ih =>
    intro rest hrest
    exact .enclose rfl rfl
      (cutsBeforeEnd_renderFields ih _ (endsWord_cons (Or.inr (Or.inr rfl)) rest))

/-- **The words of a printed value.** Printing and cutting into words gives the words of the
value. -/
theorem tokens?_renderChars {j : Json} (h : j.Plain) : tokens? j.renderChars = some j.words := by
  have hcuts := cutsBeforeEnd_renderChars h [] endsWord_nil []
  rw [List.append_nil, List.append_nil] at hcuts
  rw [tokens?, hcuts, tokensAfter?, List.reverse_reverse]

end

end SessionReplay.Json
