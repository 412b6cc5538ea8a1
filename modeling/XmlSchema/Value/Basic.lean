import XmlSchema.Value.Calendar
import XmlSchema.Value.Decimal
import XmlSchema.Value.Double

/-!
The primitive datatypes, the values that their lexical forms denote, and the order of values. `Value.compare` orders
what can be ordered: numbers of all kinds among each other by their exact value, texts and bytes lexicographically,
pairs by their first difference, moments by their instant.
-/

namespace XmlSchema

inductive Primitive where
  | anySimpleType | string | anyURI | boolean | decimal | float | double | duration | dateTime | date | time
  | gYear | gYearMonth | gMonthDay | gDay | gMonth | hexBinary | base64Binary | qname | notationName
deriving DecidableEq

namespace Primitive

/-- All primitives, in the order of the table of types. -/
def all : List Primitive :=
  [anySimpleType, string, anyURI, boolean, decimal, float, double, duration, dateTime, date, time, gYear, gYearMonth,
    gMonthDay, gDay, gMonth, hexBinary, base64Binary, qname, notationName]

def name : Primitive → Text
  | anySimpleType => "anySimpleType"
  | string => "string"
  | anyURI => "anyURI"
  | boolean => "boolean"
  | decimal => "decimal"
  | float => "float"
  | double => "double"
  | duration => "duration"
  | dateTime => "dateTime"
  | date => "date"
  | time => "time"
  | gYear => "gYear"
  | gYearMonth => "gYearMonth"
  | gMonthDay => "gMonthDay"
  | gDay => "gDay"
  | gMonth => "gMonth"
  | hexBinary => "hexBinary"
  | base64Binary => "base64Binary"
  | qname => "QName"
  | notationName => "NOTATION"

def ofName? (t : Text) : Option Primitive := all.find? fun p => p.name = t

def isOrdered : Primitive → Bool
  | decimal | float | double | duration | dateTime | date | time
  | gYear | gYearMonth | gMonthDay | gDay | gMonth => true
  | _ => false

def hasLength : Primitive → Bool
  | anySimpleType | string | anyURI | hexBinary | base64Binary => true
  | _ => false

end Primitive

inductive Value where
  | boolean (b : Bool)
  | text (t : Text)
  | integer (i : Int)
  | decimal (d : Decimal)
  | double (x : Double)
  | bytes (b : List UInt8)
  | pair (first second : Int)
  | duration (months : Int) (seconds : Decimal)
  | moment (t : DateTime)
deriving DecidableEq

/-- A number of any kind: a quotient, an infinity, or no number. -/
inductive Number where
  | nan
  | infinite (negative : Bool)
  | quotient (n : Int) (d : Nat)

namespace Number

def ofInt (i : Int) : Number := quotient i 1

def ofDecimal (d : Decimal) : Number := quotient d.unscaled (Nat.pow 10 d.scale)

def ofDouble : Double → Number
  | .nan => nan
  | .infinite negative => infinite negative
  | .finite negative s e =>
    let n : Int := if negative then -(s : Int) else s
    if 0 ≤ e then quotient (n * Nat.pow 2 e.toNat) 1 else quotient n (Nat.pow 2 (-e).toNat)

/-- The order of two numbers; the number that is none has no place in it. -/
def order? : Number → Number → Option Ordering
  | nan, _ => none
  | _, nan => none
  | infinite a, infinite b => some (if a = b then .eq else if a then .lt else .gt)
  | infinite a, quotient _ _ => some (if a then .lt else .gt)
  | quotient _ _, infinite b => some (if b then .gt else .lt)
  | quotient n d, quotient m e => some (compare (n * e) (m * d))

end Number

/-- The outcome of comparing two values. A comparison with the number that is none counts as a tie among binary
numbers and integers, and is an error against a decimal. -/
inductive Comparison where
  | ordered (o : Ordering)
  | incomparable
  | undefined
deriving DecidableEq

namespace Value

def isDecimal : Value → Bool
  | decimal _ => true
  | _ => false

def isNaN : Value → Bool
  | double .nan => true
  | _ => false

def number? : Value → Option Number
  | boolean b => some (.ofInt (if b then 1 else 0))
  | integer i => some (.ofInt i)
  | decimal d => some (.ofDecimal d)
  | double x => some (.ofDouble x)
  | _ => none

/-- The two parts of a value that is a pair, as numbers. -/
def parts? : Value → Option (Number × Number)
  | pair a b => some (.ofInt a, .ofInt b)
  | duration m s => some (.ofInt m, .ofDecimal s)
  | _ => none

def orderBytes : List UInt8 → List UInt8 → Ordering
  | [], [] => .eq
  | [], _ :: _ => .lt
  | _ :: _, [] => .gt
  | a :: s, b :: t => if a < b then .lt else if b < a then .gt else orderBytes s t

def compareNumbers (a b : Value) (x y : Number) : Comparison :=
  match x.order? y with
  | some o => .ordered o
  | none => if a.isDecimal || b.isDecimal then .undefined else .ordered .eq

def compare (a b : Value) : Comparison :=
  match a, b with
  | text s, text t => .ordered (Text.order s t)
  | bytes s, bytes t => .ordered (orderBytes s t)
  | moment s, moment t => .ordered (Ord.compare s.instant t.instant)
  | _, _ =>
    match a.number?, b.number?, a.parts?, b.parts? with
    | some x, some y, _, _ => compareNumbers a b x y
    | _, _, some (x, x'), some (y, y') =>
      match x.order? y with
      | some .eq => .ordered ((x'.order? y').getD .eq)
      | o => .ordered (o.getD .eq)
    | _, _, _, _ => .incomparable

/-- Equality in the value space: a number that is none equals nothing, and moments are equal at one instant. -/
def equal (a b : Value) : Bool := !a.isNaN && !b.isNaN && a.compare b = .ordered .eq

end Value

end XmlSchema
