import Mathlib.Order.Basic
import SessionReplay.EventStore

/-!
# Looking up a number

A history is in the order of its numbers, so an event is looked up in it by binary search:
`Event.binSearchContains_iff`. The search narrows a range of places down, and what it keeps is that
an event with the number stands in the range if it stands anywhere, `Event.binSearchAux_iff`.
-/

namespace SessionReplay

namespace Event

theorem isLower_iff {a b : Event} : a.isLower b = true ↔ a.sequence < b.sequence := by
  rw [isLower, decide_eq_true_iff]

/-- An event with the number stands at one of the places from the first to the last. -/
def FoundIn (events : Array Event) (n : UInt64) (first last : Nat) : Prop :=
  ∃ i, ∃ h : i < events.size, (first ≤ i ∧ i ≤ last) ∧ events[i].sequence = n

variable {events : Array Event} {e : Event}

/-- Two ranges are alike if they have the same places with the number. -/
theorem foundIn_congr {n : UInt64} {first last first' last' : Nat}
    (h : ∀ i (hi : i < events.size), events[i].sequence = n →
      (first ≤ i ∧ i ≤ last ↔ first' ≤ i ∧ i ≤ last')) :
    FoundIn events n first last ↔ FoundIn events n first' last' :=
  exists_congr fun i ↦ exists_congr fun hi ↦ and_congr_left (h i hi)

section Rising

variable (h : events.toList.Pairwise fun a b ↦ a.sequence < b.sequence)
include h

/-- Places and numbers are in the same order. -/
theorem sequence_lt_iff {i j : Nat} (hi : i < events.size) (hj : j < events.size) :
    events[i].sequence < events[j].sequence ↔ i < j := by
  have hlt : ∀ {i j : Nat} (hi : i < events.size) (hj : j < events.size), i < j →
      events[i].sequence < events[j].sequence := fun hi hj hij ↦
    List.pairwise_iff_getElem.mp h _ _ hi hj hij
  refine ⟨fun hsequence ↦ ?_, hlt hi hj⟩
  by_contra hij
  rcases Nat.eq_or_lt_of_le (Nat.le_of_not_lt hij) with rfl | hij
  · exact UInt64.lt_irrefl _ hsequence
  · exact UInt64.lt_irrefl _ (UInt64.lt_trans hsequence (hlt hj hi hij))

/-- What has the number stands behind every event with a lower one. -/
theorem behind_of_isLower {m i : Nat} (hm : m < events.size) (hlower : events[m].isLower e = true)
    (hi : i < events.size) (heq : events[i].sequence = e.sequence) : m < i := by
  rwa [isLower_iff, ← heq, sequence_lt_iff h hm hi] at hlower

/-- What has the number stands in front of every event with a higher one. -/
theorem inFront_of_isLower {m i : Nat} (hm : m < events.size)
    (hhigher : e.isLower events[m] = true) (hi : i < events.size)
    (heq : events[i].sequence = e.sequence) : i < m := by
  rwa [isLower_iff, ← heq, sequence_lt_iff h hi hm] at hhigher

theorem binSearchAux_iff (e : Event) (lo : Fin (events.size + 1)) (hi : Fin events.size)
    (hlo : lo.1 ≤ hi.1) :
    Array.binSearchAux isLower Option.isSome events e lo hi hlo = true ↔
      FoundIn events e.sequence lo hi := by
  fun_induction Array.binSearchAux isLower Option.isSome events e lo hi hlo with
  | case1 lo hi hlo m a hlower hnext _ ih =>
    rw [ih]
    refine foundIn_congr fun i hi heq ↦ ?_
    have hmi := behind_of_isLower h _ hlower hi heq
    simp only [m] at hmi ⊢
    omega
  | case2 lo hi hlo m a hlower hlast _ =>
    refine iff_of_false Bool.false_ne_true ?_
    rintro ⟨i, hi, hrange, heq⟩
    have hmi := behind_of_isLower h _ hlower hi heq
    omega
  | case3 lo hi hlo m a _ hhigher hfirst _ =>
    refine iff_of_false Bool.false_ne_true ?_
    rintro ⟨i, hi, hrange, heq⟩
    have him := inFront_of_isLower h _ hhigher hi heq
    omega
  | case4 lo hi hlo m a _ hhigher hfirst _ ih =>
    rw [ih]
    refine foundIn_congr fun i hi heq ↦ ?_
    have him := inFront_of_isLower h _ hhigher hi heq
    simp only [m] at him ⊢
    omega
  | case5 lo hi hlo m a hlower hhigher _ =>
    refine iff_of_true rfl ⟨m, by omega, by omega, ?_⟩
    rw [isLower_iff] at hlower hhigher
    exact UInt64.le_antisymm (UInt64.not_lt.mp hhigher) (UInt64.not_lt.mp hlower)

/-- **Binary search** finds a number exactly if an event has it. -/
theorem binSearchContains_iff (e : Event) :
    events.binSearchContains e isLower = true ↔ ∃ c ∈ events, c.sequence = e.sequence := by
  rw [Array.binSearchContains]
  split
  · next hsize =>
    rw [dif_pos (Nat.zero_le _), binSearchAux_iff h]
    constructor
    · rintro ⟨i, hi, -, heq⟩
      exact ⟨events[i], Array.getElem_mem hi, heq⟩
    · rintro ⟨c, hc, heq⟩
      obtain ⟨i, hi, rfl⟩ := Array.mem_iff_getElem.mp hc
      refine ⟨i, hi, ⟨Nat.zero_le i, ?_⟩, heq⟩
      dsimp only
      split <;> omega
  · next hempty =>
    refine iff_of_false Bool.false_ne_true ?_
    rintro ⟨c, hc, -⟩
    obtain ⟨i, hi, rfl⟩ := Array.mem_iff_getElem.mp hc
    omega

end Rising

end Event

end SessionReplay
