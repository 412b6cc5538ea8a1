import XmlSchema.Configuration.Basic
import XmlSchema.FileTree.Basic
import XmlSchema.Text.Blank
import XmlSchema.Value.Lexical

/-!
Settings as they are given, and what they mean to a field: an integer may be written as a text, a text never as an
integer.
-/

namespace XmlSchema

inductive Setting where
  | null
  | bool (value : Bool)
  | int (value : Int)
  | double (value : Double)
  | text (value : Text)
  /-- A value of parts, which no field takes. -/
  | compound

namespace Setting

/-! ### Numerals -/

/-- Without single underscores between other characters; others stay, and no numeral has them. -/
def withoutUnderscores? (t : Text) : Option Text :=
  let mark : CodePoint := '_'
  if t.head? = some mark || t.getLast? = some mark || !t.contains mark || (Text.splitAt? "__" t).isSome then none
  else some (t.filter (· ≠ mark))

/-- What follows the leading zeros of a numeral and the underscores among them; the last of these stays before a point,
and at the end. -/
def afterZeros? (last : CodePoint) : Text → Option Text
  | [] => some [last]
  | c :: t =>
    if c = CodePoint.ofChar '0' || c = CodePoint.ofChar '_' then afterZeros? c t
    else if c.isAsciiDigit || c = CodePoint.ofChar '-' then some (c :: t)
    else if c = CodePoint.ofChar '.' then some (last :: c :: t)
    else none

/-- A numeral without leading zeros. It has to begin with a digit or a minus sign. -/
def withoutLeadingZeros? : Text → Option Text
  | [] => none
  | c :: t =>
    if c = CodePoint.ofChar '0' then afterZeros? c t
    else if c.isAsciiDigit || c = CodePoint.ofChar '-' then some (c :: t)
    else none

def withoutZeroFraction (t : Text) : Text :=
  match Text.splitAt? "." t with
  | some (whole, fraction) => if !fraction.isEmpty && fraction.all (· = CodePoint.ofChar '0') then whole else t
  | none => t

/-- The most characters of an integer without zeros in front. -/
def maxIntLength : Nat := 4300

def plainInt? (t : Text) : Option Int :=
  let (negative, digits) := match Text.dropPrefix? "-" t with
    | some digits => (true, digits)
    | none => (false, t)
  if maxIntLength < t.length || digits.isEmpty || !digits.all CodePoint.isAsciiDigit then none
  else
    let n : Int := Text.digitsValue digits
    some (if negative then -n else n)

/-- Reads an integer, with zeros in front and a fraction of zeros, if any. -/
def readInt? (t : Text) : Option Int := do
  let t := Text.strip CodePoint.isMargin t
  let unsigned := (Text.dropPrefix? "+" t).getD t
  if unsigned.length < t.length && Text.startsWith unsigned "-" then failure
  let numeral := withoutZeroFraction (← withoutLeadingZeros? unsigned)
  plainInt? ((withoutUnderscores? numeral).getD numeral)

def readPlainDouble? (t : Text) : Option Double :=
  let (negative, size) := match Text.dropPrefix? "-" t with
    | some size => (true, size)
    | none => (false, (Text.dropPrefix? "+" t).getD t)
  let word := size.map CodePoint.toAsciiLower
  if word = Text.ofString "inf" || word = Text.ofString "infinity" then some (.infinite negative)
  else if word = Text.ofString "nan" then some .nan
  else Lexical.finiteDouble? t

def readDouble? (t : Text) : Option Double :=
  readPlainDouble? (Text.strip CodePoint.isMargin t) <|> (withoutUnderscores? t).bind readPlainDouble?

/-! ### Fields -/

/-- The integer of a double that is one and has at most 63 bits. -/
def wholeNumber? : Double → Option Int
  | .finite negative s e =>
    let n? : Option Nat :=
      if 0 ≤ e then if 64 < e then none else some (s * Nat.pow 2 e.toNat)
      else if s % Nat.pow 2 (-e).toNat = 0 then some (s / Nat.pow 2 (-e).toNat) else none
    (n?.filter (· < Nat.pow 2 63)).map fun n => if negative then -(n : Int) else n
  | _ => none

def toInt? : Setting → Option Int
  | bool value => some (if value then 1 else 0)
  | int value => some value
  | double value => wholeNumber? value
  | text value => readInt? value
  | _ => none

def toOptionalInt? : Setting → Option (Option Int)
  | null => some none
  | given => given.toInt?.map some

/-- An integer beyond the range of doubles is none. -/
def toDouble? : Setting → Option Double
  | bool value => some (Double.ofDecimal false (if value then 1 else 0) 0)
  | int value =>
    match Double.ofDecimal (value < 0) value.natAbs 0 with
    | .infinite _ => none
    | d => some d
  | double value => some value
  | text value => readDouble? value
  | _ => none

def toText? : Setting → Option Text
  | text value => some value
  | _ => none

def toTransport? (given : Setting) : Option Transport := given.toText?.bind Transport.ofName?

/-- A path without empty steps and dots. Exactly two slashes at its start stay two. -/
def plainPath (t : Text) : Text :=
  let root : Text :=
    if Text.startsWith t "//" && !Text.startsWith t "///" then "//" else if Text.startsWith t "/" then "/" else []
  let path := root ++ Text.join "/" (FileTree.movingSteps t)
  if path.isEmpty then "." else path

def toPath? (given : Setting) : Option Text := given.toText?.map plainPath

end Setting

end XmlSchema
