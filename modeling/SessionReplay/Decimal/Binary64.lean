/-!
# Binary floating point numbers

A double is a sign and a whole significand times a power of two. All arithmetic here is exact
arithmetic on whole numbers followed by one rounding to the nearest double, a tie going to the even
significand, so nothing depends on the machine's own floating point unit.
-/

namespace SessionReplay.Decimal

/-- A quotient rounded to a whole number, a half going to the even neighbour. -/
def divEven (n d : Nat) : Nat :=
  if d < 2 * (n % d) ∨ (d = 2 * (n % d) ∧ n / d % 2 = 1) then n / d + 1 else n / d

/-- Two to a power, and one for a negative power. -/
def twoTo (k : Int) : Nat := Nat.pow 2 k.toNat

/-- Ten to a power, and one for a negative power. -/
def tenTo (k : Int) : Nat := Nat.pow 10 k.toNat

/-- A finite double: the number `significand * 2 ^ exponent`, with a sign that zero has too. The
significand of a number that is not zero is below `2 ^ 53`, and at least `2 ^ 52` unless the
exponent is the least one. -/
structure Binary64 where
  negative : Bool
  significand : Nat
  exponent : Int
deriving DecidableEq, Repr

namespace Binary64

/-- The exponent of the last bit of the smallest doubles. -/
def leastExponent : Int := -1074

/-- The exponent of the last bit of the largest doubles. -/
def greatestExponent : Int := 971

/-- The double zero of a sign. -/
def zero (negative : Bool) : Binary64 := ⟨negative, 0, leastExponent⟩

/-- The exponent of the last of the 53 leading bits of `n / d`, but no less than the least one. -/
def unitExponent (n d : Nat) : Int :=
  let guess : Int := (n.log2 : Int) - d.log2 - 52
  let below := n < d * twoTo (guess + 52) ∧ 0 ≤ guess + 52 ∨
    n * twoTo (-(guess + 52)) < d ∧ guess + 52 < 0
  max (if below then guess - 1 else guess) leastExponent

/-- The double nearest to `n / d`; `none` if that lies beyond the largest one. -/
def ofQuotient? (negative : Bool) (n d : Nat) : Option Binary64 :=
  if n = 0 then some (zero negative) else
  let e := unitExponent n d
  let m := divEven (n * twoTo (-e)) (d * twoTo e)
  let r : Binary64 := if m = twoTo 53 then ⟨negative, twoTo 52, e + 1⟩ else ⟨negative, m, e⟩
  if r.exponent ≤ greatestExponent then some r else none

/-- The product of two magnitudes, rounded. -/
def mul? (x y : Binary64) : Option Binary64 :=
  let e := x.exponent + y.exponent
  ofQuotient? x.negative (x.significand * y.significand * twoTo e) (twoTo (-e))

/-- The quotient of two magnitudes, rounded. -/
def div? (x y : Binary64) : Option Binary64 :=
  let e := x.exponent - y.exponent
  ofQuotient? x.negative (x.significand * twoTo e) (y.significand * twoTo (-e))

/-- The double nearest to a power of ten, for powers within range. -/
def powerOfTen (k : Nat) : Binary64 := (ofQuotient? false (tenTo k) 1).getD (zero false)

/-- The largest power of ten that is a finite double. -/
def greatestPower : Nat := 308

/-- A double times a power of ten: one rounded product or quotient with a rounded power, after as
many rounded quotients by the greatest power as the exponent asks for. -/
def scale? (x : Binary64) (k : Int) : Option Binary64 :=
  if k.natAbs ≤ greatestPower then
    if 0 ≤ k then x.mul? (powerOfTen k.natAbs) else x.div? (powerOfTen k.natAbs)
  else if x.significand = 0 then some x
  else if _h : 0 ≤ k then none
  else (x.div? (powerOfTen greatestPower)).bind fun y ↦ scale? y (k + greatestPower)
termination_by k.natAbs
decreasing_by simp only [greatestPower] at *; omega

/-- The double read from the digits `significand` with the decimal point moved by `k`. The digits
are rounded before they are scaled. -/
def ofDigits? (negative : Bool) (significand : Nat) (k : Int) : Option Binary64 :=
  (ofQuotient? negative significand 1).bind fun x ↦ x.scale? k

/-- The whole part, toward zero. -/
def truncate (x : Binary64) : Int :=
  let magnitude := x.significand * twoTo x.exponent / twoTo (-x.exponent)
  if x.negative then -magnitude else magnitude

end Binary64

end SessionReplay.Decimal
