import XmlSchema.Value.Double

/-!
Sums and the order of floating-point numbers, and a short text of them: six significant digits, without zeros at the
end, and with an exponent when the number is very large or very small.
-/

namespace XmlSchema.Double

/-- The integer that a finite number is a multiple of `2 ^ e` by, for an `e` no greater than its exponent. -/
def multiple (negative : Bool) (significand : Nat) (exponent e : Int) : Int :=
  let size : Int := significand * Nat.pow 2 (exponent - e).toNat
  if negative then -size else size

/-- The double nearest to `n * 2 ^ e`. -/
def ofMultiple (negative : Bool) (n : Nat) (e : Int) : Double :=
  if n = 0 then zero negative
  else if 0 ≤ e then ofQuotient negative (n * Nat.pow 2 e.toNat) 1 else ofQuotient negative n (Nat.pow 2 (-e).toNat)

def add : Double → Double → Double
  | nan, _ => nan
  | _, nan => nan
  | infinite a, infinite b => if a = b then infinite a else nan
  | infinite a, finite .. => infinite a
  | finite .., infinite b => infinite b
  | finite a s e, finite b t f =>
    let least := min e f
    let sum := multiple a s e least + multiple b t f least
    ofMultiple (if sum = 0 then a && b else decide (sum < 0)) sum.natAbs least

/-- Nothing is less than what is no number, nor greater. -/
def less : Double → Double → Bool
  | nan, _ => false
  | _, nan => false
  | infinite a, infinite b => a && !b
  | infinite a, finite .. => a
  | finite .., infinite b => !b
  | finite a s e, finite b t f => multiple a s e (min e f) < multiple b t f (min e f)

/-- Whether a double is less than an integer, which is not rounded. -/
def lessInt : Double → Int → Bool
  | nan, _ => false
  | infinite negative, _ => negative
  | finite negative s e, n => multiple negative s e (min e 0) < n * Nat.pow 2 (-(min e 0)).toNat

/-- The number of significant digits of the short text. -/
def shownDigits : Nat := 6

/-- The power of ten of the first digit of `n / d`. -/
def leadingPower (n d : Nat) : Int :=
  let guess : Int := Numeral.digitCount n - Numeral.digitCount d
  if d * Nat.pow 10 guess.toNat ≤ n * Nat.pow 10 (-guess).toNat then guess else guess - 1

/-- `n / d` rounded to the shown digits, and the power of ten of the first of them. -/
def roundedDigits (n d : Nat) : Nat × Int :=
  let power := leadingPower n d
  let last := power - (shownDigits - 1)
  let digits := roundHalfEven (n * Nat.pow 10 (-last).toNat) (d * Nat.pow 10 last.toNat)
  if digits = Nat.pow 10 shownDigits then (Nat.pow 10 (shownDigits - 1), power + 1) else (digits, power)

def zeroDigit : CodePoint := '0'

def zeros (count : Nat) : Text := List.replicate count zeroDigit

def withoutEndZeros (t : Text) : Text := (t.reverse.dropWhile (· = zeroDigit)).reverse

/-- A whole part and a fraction, with a point unless the fraction is empty. -/
def withFraction (whole fraction : Text) : Text := if fraction.isEmpty then whole else whole ++ "." ++ fraction

/-- An exponent has a sign and at least two digits. -/
def exponentText (power : Int) : Text :=
  let digits := Text.ofNat power.natAbs
  (if power < 0 then ("e-" : Text) else "e+") ++ zeros (2 - digits.length) ++ digits

def generalQuotient (n d : Nat) : Text :=
  let (digits, power) := roundedDigits n d
  let shown := withoutEndZeros (Text.ofNat digits)
  if power < -4 || shownDigits ≤ power then withFraction (shown.take 1) (shown.drop 1) ++ exponentText power
  else if power < 0 then "0." ++ zeros (power.natAbs - 1) ++ shown
  else
    let places := power.toNat + 1
    withFraction (shown.take places ++ zeros (places - shown.length))
      (shown.drop places)

def general : Double → Text
  | nan => "nan"
  | infinite negative => if negative then "-inf" else "inf"
  | finite negative s e =>
    let size : Text :=
      if s = 0 then "0"
      else if 0 ≤ e then generalQuotient (s * Nat.pow 2 e.toNat) 1
      else generalQuotient s (Nat.pow 2 (-e).toNat)
    if negative then "-" ++ size else size

end XmlSchema.Double
