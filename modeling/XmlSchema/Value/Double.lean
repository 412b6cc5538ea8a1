import XmlSchema.Text
import XmlSchema.Text.Numeral
import XmlSchema.Value.Rounding

/-!
Binary floating-point numbers of 64 bits: reading a decimal with correct rounding, and the bits of the format.
-/

namespace XmlSchema

/-- A finite number is `significand * 2 ^ exponent`, with the exponent of the format: at least -1074, and larger only
if the significand has its full 53 bits. -/
inductive Double where
  | nan
  | infinite (negative : Bool)
  | finite (negative : Bool) (significand : Nat) (exponent : Int)
deriving DecidableEq

namespace Double

def minExponent : Int := -1074

def maxExponent : Int := 971

def zero (negative : Bool) : Double := finite negative 0 minExponent

def bitCount (n : Nat) : Nat := if n = 0 then 0 else n.log2 + 1

/-- `n / d` divided by `2 ^ e`, to the nearest, a half to even. -/
def scaled (n d : Nat) (e : Int) : Nat :=
  if 0 ≤ e then roundHalfEven n (d * Nat.pow 2 e.toNat) else roundHalfEven (n * Nat.pow 2 (-e).toNat) d

/-- The greatest `e` for which `n / d` divided by `2 ^ e` is at least `2 ^ 52`, but no less than the least exponent. -/
def exponentFor (n d : Nat) : Int :=
  let guess : Int := (bitCount n : Int) - bitCount d - 53
  let reaches (e : Int) : Bool :=
    if 0 ≤ e then d * Nat.pow 2 (52 + e.toNat) ≤ n else d * Nat.pow 2 52 ≤ n * Nat.pow 2 (-e).toNat
  max minExponent (if reaches (guess + 1) then guess + 1 else guess)

/-- The double nearest to `n / d`. -/
def ofQuotient (negative : Bool) (n d : Nat) : Double :=
  let e := exponentFor n d
  let s := scaled n d e
  let (s, e) := if s = Nat.pow 2 53 then (Nat.pow 2 52, e + 1) else (s, e)
  if maxExponent < e then infinite negative else finite negative s e

/-- The double nearest to `n * 10 ^ e`; numbers far beyond the range need no arithmetic. -/
def ofDecimal (negative : Bool) (n : Nat) (e : Int) : Double :=
  let size : Int := Numeral.digitCount n + e
  if n = 0 then zero negative
  else if 400 < size then infinite negative
  else if size < -400 then zero negative
  else if 0 ≤ e then ofQuotient negative (n * Nat.pow 10 e.toNat) 1
  else ofQuotient negative n (Nat.pow 10 (-e).toNat)

def signBit (negative : Bool) : Nat := if negative then Nat.pow 2 63 else 0

def bits : Double → Nat
  | nan => 0x7FF8000000000000
  | infinite negative => signBit negative + 0x7FF0000000000000
  | finite negative s e =>
    signBit negative + (if s < Nat.pow 2 52 then s else (e + 1075).toNat * Nat.pow 2 52 + (s - Nat.pow 2 52))

end Double

end XmlSchema
