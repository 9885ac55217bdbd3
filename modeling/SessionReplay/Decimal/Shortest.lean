import SessionReplay.Decimal.Binary64

/-!
# The shortest decimal of a double

A double stands for all the reals that round to it. Among the decimals in that interval the text of
a double takes one with the fewest digits, and of those the nearest.

## How the digits are found

For one digit, two digits, and so on up to seventeen, the two neighbours of the value on that
decimal grid are tested in exact arithmetic. If any point of a grid lies in the interval, so does
one of the two neighbours, so the first grid with a hit has the fewest digits.
-/

namespace SessionReplay.Decimal

/-- A decimal: the whole number `digits` with its point moved by `exponent`. -/
structure Scaled where
  digits : Nat
  exponent : Int
deriving DecidableEq, Repr

/-- A decimal without trailing zeros in its digits. -/
def Scaled.stripped (s : Scaled) : Scaled :=
  if h : s.digits ≠ 0 ∧ s.digits % 10 = 0 then
    Scaled.stripped ⟨s.digits / 10, s.exponent + 1⟩
  else s
termination_by s.digits
decreasing_by obtain ⟨h0, -⟩ := h; exact Nat.div_lt_self (by omega) (by omega)

/-- `c * 10 ^ k ≤ n / d`. -/
def pointLe (c : Nat) (k : Int) (n d : Nat) : Bool := c * tenTo k * d ≤ n * tenTo (-k)

/-- `n / d ≤ c * 10 ^ k`. -/
def lePoint (n d : Nat) (c : Nat) (k : Int) : Bool := n * tenTo (-k) ≤ c * tenTo k * d

/-- The exponent of the leading decimal digit of `n / d`. -/
def leadingExponent (n d : Nat) : Int :=
  let guess : Int := ((n.log2 : Int) - d.log2) * 30103 / 100000
  if pointLe 1 (guess + 1) n d then guess + 1
  else if pointLe 1 guess n d then guess
  else guess - 1

namespace Binary64

/-- The ends of the interval that rounds to a positive double, and the double itself, as numerators
over one denominator: lower end, value, upper end, denominator. -/
def interval (x : Binary64) : Nat × Nat × Nat × Nat :=
  let up := twoTo x.exponent
  let down := twoTo (-x.exponent)
  let lower := if x.significand = twoTo 52 ∧ leastExponent < x.exponent then 1 else 2
  ((4 * x.significand - lower) * up, 4 * x.significand * up, (4 * x.significand + 2) * up, 4 * down)

/-- Whether `c * 10 ^ k` rounds to the double; the ends of the interval do when the significand is
even. -/
def roundsTo (x : Binary64) (c : Nat) (k : Int) : Bool :=
  let (lo, _, hi, d) := x.interval
  if x.significand % 2 = 0 then lePoint lo d c k && pointLe c k hi d
  else !pointLe c k lo d && !lePoint hi d c k

/-- The nearest decimal of so many digits, if it rounds to the double. -/
def decimal? (x : Binary64) (count : Nat) : Option Scaled :=
  let (_, v, _, d) := x.interval
  let k := leadingExponent v d - count + 1
  let below := v * tenTo (-k) / (d * tenTo k)
  let nearest := divEven (v * tenTo (-k)) (d * tenTo k)
  let other := if nearest = below then below + 1 else below
  if x.roundsTo nearest k then some ⟨nearest, k⟩
  else if x.roundsTo other k then some ⟨other, k⟩
  else none

/-- The shortest decimal that rounds to the magnitude of a double, the nearest of those. -/
def shortest (x : Binary64) : Scaled :=
  if x.significand = 0 then ⟨0, 0⟩
  else (((List.range' 1 17).findSome? x.decimal?).getD ⟨x.significand, x.exponent⟩).stripped

end Binary64

/-! ## Layout -/

/-- Where positional notation ends: it is used while the decimal point stands after position `least`
and no later than position `greatest`, counted from the first digit. -/
structure Layout where
  least : Int
  greatest : Int

/-- The text of a double. Positional notation always shows a point and a digit after it; the other
notation has one digit before the point, no point when there is a single digit, and always a sign in
the exponent. -/
def Layout.render (layout : Layout) (x : Binary64) : List Char :=
  let s := x.shortest
  let ds := Nat.toDigits 10 s.digits
  let point := ds.length + s.exponent
  let body :=
    if s.digits = 0 then ['0', '.', '0']
    else if 0 ≤ s.exponent ∧ point ≤ layout.greatest then
      ds ++ List.replicate s.exponent.toNat '0' ++ ['.', '0']
    else if 0 < point ∧ point ≤ layout.greatest then
      ds.take point.toNat ++ '.' :: ds.drop point.toNat
    else if layout.least < point ∧ point ≤ 0 then
      '0' :: '.' :: List.replicate (-point).toNat '0' ++ ds
    else
      let exponent := point - 1
      ds.take 1 ++ (if ds.length = 1 then [] else '.' :: ds.drop 1) ++
        'e' :: (if exponent < 0 then '-' else '+') :: Nat.toDigits 10 exponent.natAbs
  if x.negative then '-' :: body else body

end SessionReplay.Decimal
