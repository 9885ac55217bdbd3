import SessionReplay.Json.Value

/-!
# JSON tokens

The words of a JSON text. A number or a text may be well formed and still stand for nothing: a
number beyond the doubles, a text with half of a surrogate pair. Such a token is no mistake as long
as nobody keeps its value, so its value is optional.
-/

namespace SessionReplay.Json

/-- A word of a JSON text. -/
inductive Token
  | openBrace
  | closeBrace
  | openBracket
  | closeBracket
  | comma
  | colon
  | null
  | bool (b : Bool)
  | number (n : Option Number)
  | string (s : Option String)
deriving DecidableEq, Repr

/-! ## Numbers -/

/-- The parts of a number on the page. -/
structure Literal where
  negative : Bool
  whole : List Char
  fraction : List Char
  /-- The sign and the digits of the exponent. -/
  exponent : Option (Bool × List Char)
  /-- Whether there is neither a fraction nor an exponent. -/
  isWhole : Bool

/-- Takes digits into a significand as long as it fits a word; also how many it took. -/
def absorb (significand : Nat) : List Char → Nat × Nat
  | [] => (significand, 0)
  | c :: cs =>
    let next := 10 * significand + Decimal.digitValue c
    if next < UInt64.size then
      let (s, count) := absorb next cs
      (s, count + 1)
    else (significand, 0)

namespace Literal

/-- The double of a literal. Whole digits that no longer fit the significand count as zeros, digits
of the fraction that no longer fit are ignored. -/
def double? (l : Literal) : Option Decimal.Binary64 :=
  let (s, count) := absorb 0 l.whole
  let (s, places) := absorb s l.fraction
  let shift : Int := (l.whole.length - count : Nat) - (places : Int)
  let exponent : Int := match l.exponent with
    | some (negative, ds) => if negative then -Decimal.ofDigits ds else Decimal.ofDigits ds
    | none => 0
  Decimal.Binary64.ofDigits? l.negative s (shift + exponent)

/-- The number of a literal: whole if it is written as a whole number and fits a word, and not the
negative zero. -/
def number? (l : Literal) : Option Number :=
  let n := Decimal.ofDigits l.whole
  if l.isWhole ∧ l.negative = false ∧ n < UInt64.size then some (.whole n)
  else if l.isWhole ∧ l.negative = true ∧ 0 < n ∧ Int64.minValue.toInt ≤ -n then some (.whole (-n))
  else l.double?.map .double

end Literal

/-- The digits at the start, and what follows them. -/
def spanDigits (cs : List Char) : List Char × List Char :=
  (cs.takeWhile Char.isDigit, cs.dropWhile Char.isDigit)

/-- The fraction, if a point stands here. -/
def scanFraction : List Char → Option (List Char × List Char)
  | '.' :: cs =>
    let (ds, rest) := spanDigits cs
    if ds = [] then none else some (ds, rest)
  | cs => some ([], cs)

/-- The exponent, if its mark stands here. -/
def scanExponent : List Char → Option (Option (Bool × List Char) × List Char)
  | c :: cs =>
    if c = 'e' ∨ c = 'E' then
      let (negative, cs) := match cs with
        | '-' :: cs => (true, cs)
        | '+' :: cs => (false, cs)
        | cs => (false, cs)
      let (ds, rest) := spanDigits cs
      if ds = [] then none else some (some (negative, ds), rest)
    else some (none, c :: cs)
  | [] => some (none, [])

/-- A number without its sign. A leading zero stands alone. -/
def scanUnsigned (negative : Bool) (cs : List Char) : Option (Option Number × List Char) := do
  let (whole, cs) := spanDigits cs
  if whole = [] ∨ (whole.head? = some '0' ∧ whole.length ≠ 1) then none else
  let (fraction, cs) ← scanFraction cs
  let (exponent, cs) ← scanExponent cs
  let l : Literal := ⟨negative, whole, fraction, exponent, fraction.isEmpty && exponent.isNone⟩
  some (l.number?, cs)

/-- A number. -/
def scanNumber : List Char → Option (Option Number × List Char)
  | '-' :: cs => scanUnsigned true cs
  | cs => scanUnsigned false cs

/-! ## Texts -/

/-- What stands in a text: a character, or the number of a UTF-16 unit. -/
inductive Piece
  | char (c : Char)
  | unit (n : Nat)
deriving DecidableEq, Repr

/-- The value of a hexadecimal digit. -/
def hexValue? (c : Char) : Option Nat :=
  if c.isDigit then some (c.toNat - '0'.toNat)
  else if 'a' ≤ c ∧ c ≤ 'f' then some (c.toNat - 'a'.toNat + 10)
  else if 'A' ≤ c ∧ c ≤ 'F' then some (c.toNat - 'A'.toNat + 10)
  else none

/-- The number of four hexadecimal digits. -/
def hexUnit? (a b c d : Char) : Option Nat := do
  let a ← hexValue? a
  let b ← hexValue? b
  let c ← hexValue? c
  let d ← hexValue? d
  some (((a * 16 + b) * 16 + c) * 16 + d)

/-- The character that a letter after a backslash stands for. -/
def simpleEscape? (c : Char) : Option Char :=
  if c = '"' ∨ c = '\\' ∨ c = '/' then some c
  else if c = 'b' then some '\x08'
  else if c = 'f' then some '\x0c'
  else if c = 'n' then some '\n'
  else if c = 'r' then some '\r'
  else if c = 't' then some '\t'
  else none

/-- The pieces up to the closing quote, after those already read, and what follows the quote. -/
def scanPieces (before : List Piece) : List Char → Option (List Piece × List Char)
  | [] => none
  | '"' :: rest => some (before.reverse, rest)
  | '\\' :: 'u' :: a :: b :: c :: d :: rest => do
    let n ← hexUnit? a b c d
    scanPieces (.unit n :: before) rest
  | '\\' :: c :: rest => do
    let e ← simpleEscape? c
    scanPieces (.char e :: before) rest
  | c :: rest => if c.toNat < 0x20 ∨ c = '\\' then none else scanPieces (.char c :: before) rest

/-- Joins surrogate pairs; `none` if half of one stands alone. -/
def joinPieces (before : List Char) : List Piece → Option (List Char)
  | [] => some before.reverse
  | .char c :: rest => joinPieces (c :: before) rest
  | .unit high :: .unit low :: rest =>
    if 0xd800 ≤ high ∧ high < 0xdc00 then
      if 0xdc00 ≤ low ∧ low < 0xe000 then
        joinPieces (Char.ofNat (0x10000 + (high - 0xd800) * 0x400 + (low - 0xdc00)) :: before) rest
      else none
    else if 0xdc00 ≤ high ∧ high < 0xe000 then none
    else joinPieces (Char.ofNat high :: before) (.unit low :: rest)
  | .unit n :: rest =>
    if 0xd800 ≤ n ∧ n < 0xe000 then none else joinPieces (Char.ofNat n :: before) rest

/-- The text that pieces stand for. -/
def textOf? (pieces : List Piece) : Option String := (joinPieces [] pieces).map String.ofList

/-! ## Words -/

/-- The blanks between words. -/
def isSpace (c : Char) : Bool := c = ' ' || c = '\n' || c = '\t' || c = '\r'

/-- A word that is one character. -/
def punctuation? (c : Char) : Option Token :=
  if c = '{' then some .openBrace
  else if c = '}' then some .closeBrace
  else if c = '[' then some .openBracket
  else if c = ']' then some .closeBracket
  else if c = ',' then some .comma
  else if c = ':' then some .colon
  else none

/-- The word that starts here, and what follows it. -/
def scanToken : List Char → Option (Token × List Char)
  | [] => none
  | 'n' :: 'u' :: 'l' :: 'l' :: rest => some (.null, rest)
  | 't' :: 'r' :: 'u' :: 'e' :: rest => some (.bool true, rest)
  | 'f' :: 'a' :: 'l' :: 's' :: 'e' :: rest => some (.bool false, rest)
  | '"' :: rest => (scanPieces [] rest).map fun (ps, rest) ↦ (.string (textOf? ps), rest)
  | c :: rest =>
    match punctuation? c with
    | some t => some (t, rest)
    | none => (scanNumber (c :: rest)).map fun (n, rest) ↦ (.number n, rest)

/-! ## Every word takes characters -/

private theorem scanPieces_length {before : List Piece} {cs : List Char} {ps : List Piece}
    {rest : List Char} (h : scanPieces before cs = some (ps, rest)) : rest.length < cs.length := by
  fun_induction scanPieces before cs <;> simp_all [Option.bind_eq_some_iff] <;> grind

theorem spanDigits_length (cs : List Char) :
    (spanDigits cs).1.length + (spanDigits cs).2.length = cs.length := by
  rw [spanDigits, ← List.length_append, List.takeWhile_append_dropWhile]

private theorem scanFraction_length {cs digits rest : List Char}
    (h : scanFraction cs = some (digits, rest)) : rest.length ≤ cs.length := by
  unfold scanFraction at h
  split at h
  · next after =>
    have hspan := spanDigits_length after
    obtain ⟨-, h⟩ := Option.ite_none_left_eq_some.mp h
    cases h
    show (spanDigits after).2.length ≤ after.length + 1
    omega
  · cases h
    exact Nat.le_refl _

private theorem scanExponent_length {cs : List Char} {exponent : Option (Bool × List Char)}
    {rest : List Char} (h : scanExponent cs = some (exponent, rest)) : rest.length ≤ cs.length := by
  unfold scanExponent at h
  split at h
  · next c after =>
    split at h
    · split at h
      next negative unsigned hsign =>
      have hunsigned : unsigned.length ≤ after.length := by
        split at hsign <;> cases hsign <;> simp
      have hspan := spanDigits_length unsigned
      obtain ⟨-, h⟩ := Option.ite_none_left_eq_some.mp h
      cases h
      show (spanDigits unsigned).2.length ≤ after.length + 1
      omega
    · cases h
      exact Nat.le_refl _
  · cases h
    exact Nat.le_refl _

private theorem scanUnsigned_length {negative : Bool} {cs : List Char} {n : Option Number}
    {rest : List Char} (h : scanUnsigned negative cs = some (n, rest)) :
    rest.length < cs.length := by
  have hspan := spanDigits_length cs
  simp only [scanUnsigned] at h
  split at h
  · cases h
  · next hwhole =>
    have hpos : 0 < (spanDigits cs).1.length :=
      List.length_pos_iff.mpr fun hnil ↦ hwhole (Or.inl hnil)
    simp only [Option.bind_eq_bind, Option.bind_eq_some_iff, Prod.exists] at h
    obtain ⟨digits, afterFraction, hfraction, exponent, afterExponent, hexponent, h⟩ := h
    cases h
    have hfraction := scanFraction_length hfraction
    have hexponent := scanExponent_length hexponent
    omega

private theorem scanToken_length {cs : List Char} {t : Token} {rest : List Char}
    (h : scanToken cs = some (t, rest)) : rest.length < cs.length := by
  unfold scanToken at h
  split at h
  · cases h
  · simp_all; omega
  · simp_all; omega
  · simp_all; omega
  · next r =>
    simp only [Option.map_eq_some_iff, Prod.exists, Prod.mk.injEq] at h
    obtain ⟨ps, r', hs, -, rfl⟩ := h
    have := scanPieces_length hs
    simp only [List.length_cons]; omega
  · next c r _ _ _ _ =>
    split at h
    · simp_all
    · simp only [Option.map_eq_some_iff, Prod.exists, Prod.mk.injEq] at h
      obtain ⟨n, r', hs, -, rfl⟩ := h
      unfold scanNumber at hs
      split at hs
      · next cs heq =>
        cases heq
        have := scanUnsigned_length hs
        simp only [List.length_cons]
        omega
      · exact scanUnsigned_length hs

/-- The words of a text, after those already read. -/
def tokensAfter? (before : List Token) (cs : List Char) : Option (List Token) :=
  match cs with
  | [] => some before.reverse
  | c :: rest =>
    if isSpace c then tokensAfter? before rest
    else match _h : scanToken (c :: rest) with
      | some (t, rest') => tokensAfter? (t :: before) rest'
      | none => none
termination_by cs.length
decreasing_by
  · simp
  · exact scanToken_length _h

/-- The words of a text; `none` if it holds anything else. -/
def tokens? (cs : List Char) : Option (List Token) := tokensAfter? [] cs

end SessionReplay.Json
