import XmlSchema.Text
import XmlSchema.Text.Numeral
import XmlSchema.Value.Rounding

/-!
Exact decimal numbers in lowest terms, and arithmetic that keeps 28 significant digits.
-/

namespace XmlSchema

/-- The number `unscaled / 10 ^ scale`, with the least scale that can write it. -/
structure Decimal where
  unscaled : Int
  scale : Nat
  lowest : scale = 0 ∨ unscaled % 10 ≠ 0
deriving DecidableEq

namespace Decimal

/-- The decimal `u / 10 ^ s`. -/
def ofScaled (u : Int) : (s : Nat) → Decimal
  | 0 => ⟨u, 0, .inl rfl⟩
  | s + 1 => if h : u % 10 = 0 then ofScaled (u / 10) s else ⟨u, s + 1, .inr h⟩

def ofInt (i : Int) : Decimal := ofScaled i 0

instance : Inhabited Decimal := ⟨ofInt 0⟩

/-- The significant digits that arithmetic keeps. -/
def precision : Nat := 28

/-- The fraction digits that arithmetic keeps at most. -/
def maxScale : Nat := 1000026

/-- The digits that arithmetic allows before the point. -/
def maxWhole : Nat := 1000000

/-- The number of digits of a number beyond those that arithmetic keeps. -/
def excess (x : Decimal) : Nat := max (Numeral.digitCount x.unscaled.natAbs - precision) (x.scale - maxScale)

/-- The nearest number of those digits that arithmetic keeps, a half to the even last digit. -/
def round (x : Decimal) : Decimal :=
  let k := x.excess
  let q := roundHalfEven x.unscaled.natAbs (Nat.pow 10 k)
  let u : Int := if x.unscaled < 0 then -(q : Int) else q
  if k ≤ x.scale then ofScaled u (x.scale - k) else ofInt (u * Nat.pow 10 (k - x.scale))

def add (x y : Decimal) : Decimal :=
  let s := max x.scale y.scale
  ofScaled (x.unscaled * Nat.pow 10 (s - x.scale) + y.unscaled * Nat.pow 10 (s - y.scale)) s

def mul (x y : Decimal) : Decimal := ofScaled (x.unscaled * y.unscaled) (x.scale + y.scale)

def neg (x : Decimal) : Decimal := ofScaled (-x.unscaled) x.scale

def order (x y : Decimal) : Ordering :=
  let s := max x.scale y.scale
  compare (x.unscaled * Nat.pow 10 (s - x.scale)) (y.unscaled * Nat.pow 10 (s - y.scale))

/-- The number after rounding, unless it has more digits before the point than arithmetic allows. -/
def round? (x : Decimal) : Option Decimal :=
  let y := x.round
  if maxWhole + y.scale < Numeral.digitCount y.unscaled.natAbs then none else some y

/-- The total digits and the fraction digits of a number after rounding, without insignificant zeros: the zeros before
the point of a whole number are significant, and every fraction digit counts. -/
def digits? (x : Decimal) : Option (Nat × Nat) :=
  x.round?.map fun y =>
    if y.unscaled = 0 then (1, 0) else (max (Numeral.digitCount y.unscaled.natAbs) y.scale, y.scale)

/-- The number in plain notation. -/
def text (x : Decimal) : Text :=
  let ds := (Numeral.digits x.unscaled.natAbs).flatMap Text.ofNat
  let padded := List.replicate (x.scale + 1 - ds.length) ('0' : CodePoint) ++ ds
  let whole := padded.take (padded.length - x.scale)
  let fraction := padded.drop (padded.length - x.scale)
  let sign : Text := if x.unscaled < 0 then "-" else ""
  if x.scale = 0 then sign ++ whole else sign ++ whole ++ "." ++ fraction

end Decimal

end XmlSchema
