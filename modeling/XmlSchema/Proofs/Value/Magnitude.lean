import Mathlib.Algebra.Order.Ring.Nat
import Mathlib.Data.List.Induction
import XmlSchema.Proofs.Outcome
import XmlSchema.Value.Lexical

/-!
How large numbers get. A text has room for so many digits before the point, and every step of arithmetic adds but a few
to them, so that only very long texts denote numbers beyond those that arithmetic allows.
-/

namespace XmlSchema

/-! ### Digits -/

theorem Numeral.digitCountBelow_le {p d n : Nat} (h : n < 10 ^ d) : digitCountBelow p n ≤ d := by
  induction p generalizing n d with
  | zero =>
      rw [digitCountBelow]
      split
      · exact Nat.zero_le d
      · cases d with
        | zero => omega
        | succ d => omega
  | succ p ih =>
      rw [digitCountBelow]
      simp only [Nat.pow_eq]
      split
      · exact ih h
      · next hle =>
          have hlt := Nat.lt_of_le_of_lt (Nat.le_of_not_lt hle) h
          have hhalf : 2 ^ p < d := (Nat.pow_lt_pow_iff_right (by decide)).1 hlt
          have hrest : n / 10 ^ 2 ^ p < 10 ^ (d - 2 ^ p) := by
            rw [Nat.div_lt_iff_lt_mul (Nat.pow_pos (by decide)), ← Nat.pow_add]
            rwa [Nat.sub_add_cancel hhalf.le]
          have := ih hrest
          omega

theorem Numeral.digitCount_le {d n : Nat} (h : n < 10 ^ d) : digitCount n ≤ d := digitCountBelow_le h

theorem CodePoint.digitValue_le (c : CodePoint) : c.digitValue?.getD 0 ≤ 9 := by
  rw [digitValue?]
  split
  · split
    · next h =>
        simp only [isAsciiDigit, Bool.and_eq_true, decide_eq_true_eq] at h
        simp only [Option.getD_some]
        omega
    · simp
  · cases digitRuns.find? fun r => decide (r.1 ≤ c.val) && decide (c.val ≤ r.2) with
    | none => simp
    | some r =>
        simp only [Option.map_some, Option.getD_some]
        omega

theorem Text.digitsValue_lt (t : Text) : digitsValue t < 10 ^ t.length := by
  induction t using List.reverseRecOn with
  | nil => decide
  | append_singleton t c ih =>
      have := c.digitValue_le
      rw [digitsValue_concat, List.length_append, List.length_singleton, Nat.pow_succ]
      omega

theorem roundHalfEven_le (n d : Nat) : roundHalfEven n d ≤ n / d + 1 := by
  rw [roundHalfEven]
  split
  · omega
  · split
    · omega
    · split <;> omega

/-! ### Decimals -/

namespace Decimal

/-- A decimal has at most so many digits before the point. -/
def Below (whole : Nat) (x : Decimal) : Prop := x.unscaled.natAbs < 10 ^ (whole + x.scale)

variable {m n : Nat} {x y : Decimal}

theorem Below.mono (h : x.Below m) (hle : m ≤ n) : x.Below n :=
  Nat.lt_of_lt_of_le h (Nat.pow_le_pow_right (by decide) (Nat.add_le_add_right hle _))

theorem below_ofScaled {u : Int} {s : Nat} (h : u.natAbs < 10 ^ (n + s)) : (ofScaled u s).Below n := by
  induction s generalizing u with
  | zero => exact h
  | succ s ih =>
      rw [ofScaled]
      split
      · refine ih ?_
        rw [← Nat.add_assoc, Nat.pow_succ] at h
        omega
      · exact h

theorem below_ofInt {u : Int} (h : u.natAbs < 10 ^ n) : (ofInt u).Below n := below_ofScaled h

theorem Below.neg (h : x.Below n) : x.neg.Below n := below_ofScaled (by rwa [Int.natAbs_neg])

theorem Below.mul (hx : x.Below m) (hy : y.Below n) : (x.mul y).Below (m + n) := by
  refine below_ofScaled ?_
  rw [Int.natAbs_mul]
  calc x.unscaled.natAbs * y.unscaled.natAbs < 10 ^ (m + x.scale) * 10 ^ (n + y.scale) := Nat.mul_lt_mul'' hx hy
    _ = 10 ^ (m + n + (x.scale + y.scale)) := by rw [← Nat.pow_add]; congr 1; omega

theorem Below.scaled (h : x.Below n) {s : Nat} (hs : x.scale ≤ s) :
    (x.unscaled * (Nat.pow 10 (s - x.scale) : Nat)).natAbs < 10 ^ (n + s) := by
  rw [Int.natAbs_mul, Int.natAbs_natCast]
  calc x.unscaled.natAbs * 10 ^ (s - x.scale) < 10 ^ (n + x.scale) * 10 ^ (s - x.scale) :=
        Nat.mul_lt_mul_of_pos_right h (Nat.pow_pos (by decide))
    _ = 10 ^ (n + s) := by rw [← Nat.pow_add]; congr 1; omega

theorem Below.add (hx : x.Below n) (hy : y.Below n) : (x.add y).Below (n + 1) := by
  refine below_ofScaled ?_
  have hx' := hx.scaled (Nat.le_max_left x.scale y.scale)
  have hy' := hy.scaled (Nat.le_max_right x.scale y.scale)
  rw [Nat.add_right_comm, Nat.pow_succ]
  omega

theorem Below.digitCount_le (h : x.Below n) : Numeral.digitCount x.unscaled.natAbs ≤ n + x.scale :=
  Numeral.digitCount_le h

/-- Rounding may carry into one more digit. -/
theorem Below.round (h : x.Below n) : x.round.Below (n + 1) := by
  have hcount := h.digitCount_le
  have hexcess : x.excess ≤ n + x.scale := by
    rw [excess]
    omega
  have hq : roundHalfEven x.unscaled.natAbs (10 ^ x.excess) ≤ 10 ^ (n + x.scale - x.excess) := by
    have hdiv : x.unscaled.natAbs / 10 ^ x.excess < 10 ^ (n + x.scale - x.excess) := by
      rw [Nat.div_lt_iff_lt_mul (Nat.pow_pos (by decide)), ← Nat.pow_add, Nat.sub_add_cancel hexcess]
      exact h
    exact Nat.le_trans (roundHalfEven_le _ _) hdiv
  have hlt {w : Nat} {u : Int} {s : Nat} (hu : u.natAbs ≤ 10 ^ (w + s)) : u.natAbs < 10 ^ (w + 1 + s) := by
    rw [Nat.add_right_comm, Nat.pow_succ]
    have : 0 < 10 ^ (w + s) := Nat.pow_pos (by decide)
    omega
  rw [Decimal.round]
  simp only [Nat.pow_eq]
  -- the digits that are left may all be nines, and rounding makes one with zeros of them
  generalize hu : (if x.unscaled < 0 then -(roundHalfEven x.unscaled.natAbs (10 ^ x.excess) : Int)
    else roundHalfEven x.unscaled.natAbs (10 ^ x.excess)) = u
  have hu : u.natAbs ≤ 10 ^ (n + x.scale - x.excess) := by
    have : u.natAbs = roundHalfEven x.unscaled.natAbs (10 ^ x.excess) := by
      rw [← hu]
      split <;> simp
    rwa [this]
  split
  · next hle =>
      refine below_ofScaled (hlt ?_)
      rwa [← Nat.add_sub_assoc hle]
  · next hlt' =>
      refine below_ofInt (hlt (s := 0) ?_)
      rw [Int.natAbs_mul, Int.natAbs_natCast]
      calc u.natAbs * 10 ^ (x.excess - x.scale) ≤ 10 ^ (n + x.scale - x.excess) * 10 ^ (x.excess - x.scale) :=
            Nat.mul_le_mul_right _ hu
        _ = 10 ^ (n + 0) := by rw [← Nat.pow_add]; congr 1; omega

/-- A number with few enough digits can be rounded. -/
theorem Below.round? (h : x.Below n) (hn : n < maxWhole) : ∃ y, x.round? = some y ∧ y.Below (n + 1) := by
  have hround := h.round
  have := hround.digitCount_le
  rw [Decimal.round?, if_neg (by omega)]
  exact ⟨_, rfl, hround⟩

end Decimal

end XmlSchema
