import XmlSchema.Text
import XmlSchema.Text.Category
import XmlSchema.Text.Numeral

/-!
Blanks and decimal digits of all scripts, and the reading of numerals written with them.
-/

namespace XmlSchema

namespace CodePoint

/-- The blanks of all scripts, with the four separators that close ASCII's control block. -/
def blanks : List Nat :=
  [0x9, 0xA, 0xB, 0xC, 0xD, 0x1C, 0x1D, 0x1E, 0x1F, 0x20, 0x85, 0xA0, 0x1680, 0x2000, 0x2001, 0x2002, 0x2003, 0x2004,
    0x2005, 0x2006, 0x2007, 0x2008, 0x2009, 0x200A, 0x2028, 0x2029, 0x202F, 0x205F, 0x3000]

def isBlank (c : CodePoint) : Bool := blanks.contains c.val

/-- The blanks that may stand around a numeral; the separators of ASCII's control block may not. -/
def isMargin (c : CodePoint) : Bool := c.isBlank && !(0x1C ≤ c.val && c.val ≤ 0x1F)

/-- The four characters that markup counts as white space. -/
def isSpace (c : CodePoint) : Bool := c.val = 0x20 || c.val = 0x9 || c.val = 0xA || c.val = 0xD

/-- The runs of decimal digits; each run is made of whole rows from zero to nine. -/
def digitRuns : List (Nat × Nat) := Category.rangesWhere (· = .nd)

def digitValue? (c : CodePoint) : Option Nat :=
  if c.val < 0x80 then if c.isAsciiDigit then some (c.val - 0x30) else none
  else (digitRuns.find? fun (first, last) => first ≤ c.val && c.val ≤ last).map fun (first, _) => (c.val - first) % 10

def isDigit (c : CodePoint) : Bool := c.digitValue?.isSome

end CodePoint

namespace Text

def stripStart (p : CodePoint → Bool) (t : Text) : Text := t.dropWhile p

def strip (p : CodePoint → Bool) (t : Text) : Text := ((t.dropWhile p).reverse.dropWhile p).reverse

def trim (t : Text) : Text := strip CodePoint.isBlank t

def words (t : Text) : List Text :=
  let (word, later) := t.foldr (fun c (word, later) =>
    if c.isBlank then ([], if word.isEmpty then later else word :: later) else (c :: word, later))
    (([], []) : Text × List Text)
  if word.isEmpty then later else word :: later

def digitsValue (t : Text) : Nat :=
  Numeral.ofDigits t.length 10 (t.map fun c => c.digitValue?.getD 0).reverse

theorem digitsValue_concat (t : Text) (c : CodePoint) :
    digitsValue (t ++ [c]) = 10 * digitsValue t + c.digitValue?.getD 0 := by
  simp only [digitsValue, Numeral.ofDigits_eq, List.map_append, List.map_cons, List.map_nil, List.reverse_append,
    List.reverse_cons, List.reverse_nil, List.nil_append, List.cons_append, Numeral.value]
  omega

/-- The most digits a numeral may have. -/
def maxDigits : Nat := 4300

/-- The number of a run of digits; a longer run than a numeral may have denotes none. -/
def boundedValue? (t : Text) : Option Nat := if t.length ≤ maxDigits then some (digitsValue t) else none

/-- The digits of a numeral in which single underscores may stand between digits. -/
def digitsOfGrouped? : Text → Option Text
  | [] => none
  | [c] => if c.isDigit then some [c] else none
  | c :: d :: t =>
    if c.isDigit then
      if d = '_' then (digitsOfGrouped? t).map (c :: ·) else (digitsOfGrouped? (d :: t)).map (c :: ·)
    else none

/-- Reads an integer numeral: margins around it, a sign, and digits of any script that single underscores may
group. -/
def toInt? (t : Text) : Option Int :=
  let (negative, digits) := match strip CodePoint.isMargin t with
    | [] => (false, [])
    | c :: rest => if c = '-' then (true, rest) else if c = '+' then (false, rest) else (false, c :: rest)
  match (digitsOfGrouped? digits).bind boundedValue? with
  | none => none
  | some n => some (if negative then -(n : Int) else n)

/-- The decimal digits of a number, with a comma before each group of three. -/
def grouped (n : Nat) : Text :=
  let digits := ofNat n
  let lead := digits.length % 3
  let rec groups : Text → Text
    | a :: b :: c :: rest => ',' :: a :: b :: c :: groups rest
    | short => short
  if lead = 0 then (groups digits).drop 1 else digits.take lead ++ groups (digits.drop lead)

def groupedInt (i : Int) : Text := if i < 0 then '-' :: grouped i.natAbs else grouped i.natAbs

end Text

end XmlSchema
