/-!
# Instants

An instant is a number of milliseconds since the start of 1970, held in a signed word of 64 bits.
Clocks on the wire may be wrong, run backwards or sit at the ends of the word, so no arithmetic on
instants wraps: a result that does not fit is the nearest one that does.

Main statement: `toInt_clamp` — clamping is the identity on the word's range and sends everything
else to the nearer end.
-/

namespace SessionReplay

/-- Milliseconds since the start of 1970; also the length of a span in milliseconds. -/
abbrev Instant := Int64

namespace Instant

/-- The least instant, as a number. -/
def least : Int := -9223372036854775808

/-- The greatest instant, as a number. -/
def greatest : Int := 9223372036854775807

/-- The instant nearest to a number. -/
def clamp (n : Int) : Instant := Int64.ofInt (max least (min n greatest))

/-- The sum of two spans, or of an instant and a span. -/
def plus (a b : Instant) : Instant := clamp (a.toInt + b.toInt)

/-- The span from one instant to another, negative if the second lies before the first. -/
def since (start stop : Instant) : Instant := clamp (stop.toInt - start.toInt)

/-- The span from one instant to another, or nothing if the second lies before the first. -/
def span (start stop : Instant) : Instant := max (since start stop) 0

theorem toInt_clamp (n : Int) : (clamp n).toInt = max least (min n greatest) := by
  apply Int64.toInt_ofInt_of_le <;> simp only [least, greatest] <;> omega

theorem least_le_toInt (t : Instant) : least ≤ t.toInt := Int64.le_toInt t

theorem toInt_le_greatest (t : Instant) : t.toInt ≤ greatest := Int64.toInt_le t

theorem clamp_toInt (t : Instant) : clamp t.toInt = t := by
  apply Int64.toInt_inj.1
  have := least_le_toInt t
  have := toInt_le_greatest t
  rw [toInt_clamp]
  omega

theorem toInt_plus (a b : Instant) :
    (plus a b).toInt = max least (min (a.toInt + b.toInt) greatest) := toInt_clamp _

theorem toInt_max (a b : Instant) : (max a b).toInt = max a.toInt b.toInt := by
  have h : max a b = if a ≤ b then b else a := rfl
  rw [h, Int.max_def]
  simp only [Int64.le_iff_toInt_le]
  split <;> rfl

theorem toInt_span (start stop : Instant) :
    (span start stop).toInt = max 0 (min (stop.toInt - start.toInt) greatest) := by
  rw [span, toInt_max, since, toInt_clamp]
  simp only [least, greatest, Int64.toInt_zero]
  omega

end Instant

end SessionReplay
