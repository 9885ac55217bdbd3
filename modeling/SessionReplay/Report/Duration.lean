import SessionReplay.Decimal.Whole
import SessionReplay.Instant.Basic

/-!
# Durations

A duration is shown in whole seconds, cut into hours, minutes and seconds. Leading parts that are
zero are left out, and a part after the first one has two digits.
-/

namespace SessionReplay

/-- Whole seconds, cut into hours, minutes and seconds. -/
structure Duration where
  hours : Nat
  minutes : Nat
  seconds : Nat
deriving DecidableEq, Repr

namespace Duration

/-- The duration of so many seconds. -/
def ofSeconds (n : Nat) : Duration := ⟨n / 3600, n % 3600 / 60, n % 60⟩

/-- The whole seconds of a span; none if it is negative. -/
def wholeSeconds (span : Instant) : Nat := span.toInt.toNat / 1000

/-- The duration of a span. -/
def ofSpan (span : Instant) : Duration := ofSeconds (wholeSeconds span)

/-- How many seconds a duration has. -/
def toSeconds (d : Duration) : Nat := d.hours * 3600 + d.minutes * 60 + d.seconds

theorem toSeconds_ofSeconds (n : Nat) : (ofSeconds n).toSeconds = n := by
  simp only [toSeconds, ofSeconds]
  omega

/-- The text of a duration. -/
def render (d : Duration) : String :=
  if 0 < d.hours then
    String.ofList (Nat.toDigits 10 d.hours ++ 'h' :: ' ' :: Decimal.twoDigits d.minutes ++
      'm' :: ' ' :: Decimal.twoDigits d.seconds ++ ['s'])
  else if 0 < d.minutes then
    String.ofList (Nat.toDigits 10 d.minutes ++ 'm' :: ' ' :: Decimal.twoDigits d.seconds ++ ['s'])
  else String.ofList (Nat.toDigits 10 d.seconds ++ ['s'])

end Duration

/-- The text of a span. -/
def durationText (span : Instant) : String := (Duration.ofSpan span).render

end SessionReplay
