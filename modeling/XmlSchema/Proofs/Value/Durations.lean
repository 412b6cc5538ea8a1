import Mathlib.Algebra.Order.Field.Rat
import Mathlib.Order.Compare
import Mathlib.Tactic.Linarith
import Mathlib.Tactic.Positivity
import XmlSchema.Proofs.Value.Calendar
import XmlSchema.Value.Basic

/-!
The order of durations. They are ordered by their months, and by their seconds only if the months are equal, so the
order respects the time that durations take as long as their months do.
-/

namespace XmlSchema

namespace Decimal

def toRat (x : Decimal) : ℚ := x.unscaled / 10 ^ x.scale

theorem toRat_lt_iff {x y : Decimal} :
    x.toRat < y.toRat ↔ x.unscaled * (10 ^ y.scale : Nat) < y.unscaled * (10 ^ x.scale : Nat) := by
  rw [toRat, toRat, div_lt_div_iff₀ (by positivity) (by positivity)]
  exact_mod_cast Iff.rfl

theorem compare_toRat (x y : Decimal) :
    (Number.ofDecimal x).order? (.ofDecimal y) = some (compare x.toRat y.toRat) := by
  rw [Number.ofDecimal, Number.ofDecimal, Number.order?, Option.some.injEq, Nat.pow_eq, Nat.pow_eq]
  rcases lt_trichotomy x.toRat y.toRat with h | h | h
  · rw [compare_lt_iff_lt.2 h]
    exact compare_lt_iff_lt.2 (toRat_lt_iff.1 h)
  · rw [compare_eq_iff_eq.2 h, compare_eq_iff_eq]
    apply le_antisymm
    · exact not_lt.1 fun hlt => (toRat_lt_iff.2 hlt).ne' h
    · exact not_lt.1 fun hlt => (toRat_lt_iff.2 hlt).ne h
  · rw [compare_gt_iff_gt.2 h]
    exact compare_gt_iff_gt.2 (toRat_lt_iff.1 h)

end Decimal

theorem Value.compare_duration (m m' : Int) (s s' : Decimal) :
    (Value.duration m s).compare (.duration m' s') =
      .ordered ((Ord.compare m m').then (Ord.compare s.toRat s'.toRat)) := by
  have hmonths : (Number.ofInt m).order? (.ofInt m') = some (Ord.compare m m') := by
    rw [Number.ofInt, Number.ofInt, Number.order?, Nat.cast_one, mul_one, mul_one]
  simp only [Value.compare, number?, parts?]
  rw [hmonths, Decimal.compare_toRat]
  cases Ord.compare m m' <;> rfl

/-! ### The time that durations take -/

/-- The days of so many months, from the first day of one of them on. -/
def daysOfMonths (year month : Nat) : Nat → Nat
  | 0 => 0
  | n + 1 => daysInMonth year month +
      if month < 12 then daysOfMonths year (month + 1) n else daysOfMonths (year + 1) 1 n

theorem daysOfMonths_bounds (year month n : Nat) :
    28 * n ≤ daysOfMonths year month n ∧ daysOfMonths year month n ≤ 31 * n := by
  induction n generalizing year month with
  | zero => exact ⟨Nat.le_refl _, Nat.le_refl _⟩
  | succ n ih =>
      have hmin := le_daysInMonth year month
      have hmax := daysInMonth_le year month
      rw [daysOfMonths]
      split
      · have := ih year (month + 1)
        omega
      · have := ih (year + 1) 1
        omega

/-- The seconds that a duration takes from the first day of a month on. -/
def secondsFrom (year month : Nat) (m : Int) (s : Decimal) : ℚ := 86400 * daysOfMonths year month m.toNat + s.toRat

/-- A duration takes less time than another even if its months are the longest and those of the other the shortest.
Neither has a minus. -/
structure IsShorter (m : Int) (s : Decimal) (m' : Int) (s' : Decimal) : Prop where
  months : 0 ≤ m
  months' : 0 ≤ m'
  seconds : 0 ≤ s.toRat
  seconds' : 0 ≤ s'.toRat
  less : 31 * 86400 * (m : ℚ) + s.toRat < 28 * 86400 * (m' : ℚ) + s'.toRat

namespace IsShorter

variable {m m' : Int} {s s' : Decimal}

/-- It takes less time from every month on. -/
theorem secondsFrom_lt (h : IsShorter m s m' s') (year month year' month' : Nat) :
    secondsFrom year month m s < secondsFrom year' month' m' s' := by
  obtain ⟨n, rfl⟩ := Int.eq_ofNat_of_zero_le h.months
  obtain ⟨n', rfl⟩ := Int.eq_ofNat_of_zero_le h.months'
  have hmax : (daysOfMonths year month n : ℚ) ≤ 31 * n := by exact_mod_cast (daysOfMonths_bounds year month n).2
  have hmin : 28 * (n' : ℚ) ≤ daysOfMonths year' month' n' := by exact_mod_cast (daysOfMonths_bounds year' month' n').1
  have hless := h.less
  push_cast at hless
  rw [secondsFrom, secondsFrom, Int.toNat_natCast, Int.toNat_natCast]
  linarith

theorem seconds_lt (h : IsShorter m s m' s') (hm : m' < m) : 31 * 86400 + s.toRat < s'.toRat := by
  have hmonths : (m' : ℚ) + 1 ≤ m := by exact_mod_cast hm
  have hmonths' : (0 : ℚ) ≤ m' := by exact_mod_cast h.months'
  linarith [h.less]

theorem compare_eq (h : IsShorter m s m' s') :
    (Value.duration m s).compare (.duration m' s') = .ordered (if m ≤ m' then .lt else .gt) := by
  rw [Value.compare_duration]
  rcases lt_trichotomy m m' with hm | rfl | hm
  · rw [compare_lt_iff_lt.2 hm, if_pos hm.le]
    rfl
  · have hmonths : (0 : ℚ) ≤ m := by exact_mod_cast h.months
    have hs : s.toRat < s'.toRat := by linarith [h.less]
    rw [compare_eq_iff_eq.2 rfl, compare_lt_iff_lt.2 hs, if_pos le_rfl]
    rfl
  · rw [compare_gt_iff_gt.2 hm, if_neg hm.not_ge]
    rfl

theorem compare_swap_eq (h : IsShorter m s m' s') :
    (Value.duration m' s').compare (.duration m s) = .ordered (if m ≤ m' then .gt else .lt) := by
  have hcompare := h.compare_eq
  rw [Value.compare_duration, Comparison.ordered.injEq] at hcompare
  have hmonths : Ord.compare m' m = (Ord.compare m m').swap := Std.OrientedCmp.eq_swap
  have hseconds : Ord.compare s'.toRat s.toRat = (Ord.compare s.toRat s'.toRat).swap := Std.OrientedCmp.eq_swap
  rw [Value.compare_duration, hmonths, hseconds, ← Ordering.swap_then, hcompare]
  split <;> rfl

end IsShorter

end XmlSchema
