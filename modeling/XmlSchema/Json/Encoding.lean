import XmlSchema.Json.Reader
import XmlSchema.Text.Utf8

/-!
Encodings of JSON. A text in JSON begins with two characters of ASCII, so the zeros among its first bytes tell how many
bytes a unit takes, and in which order they stand.
-/

namespace XmlSchema.Json

/-- Units of one, two or four bytes; those of more than one begin with the highest byte, or with the lowest. -/
inductive Encoding where
  | bytes
  | pairs (highFirst : Bool)
  | fours (highFirst : Bool)
deriving DecidableEq

namespace Encoding

def detect : List UInt8 → Encoding
  | [a, b] => if a = 0 then pairs true else if b = 0 then pairs false else bytes
  | a :: b :: c :: d :: _ =>
    if a = 0 then if b = 0 then fours true else pairs true
    else if b = 0 then if c = 0 && d = 0 then fours false else pairs false
    else bytes
  | _ => bytes

/-- The number that bytes make. -/
def unit (highFirst : Bool) (unit : List UInt8) : Nat :=
  (if highFirst then unit else unit.reverse).foldl (fun n b => 256 * n + b.toNat) 0

/-- Units of two bytes; none if a byte is left over. `read` have been read, the last one first. -/
def readPairs? (highFirst : Bool) (read : List Nat) : List UInt8 → Option (List Nat)
  | [] => some read.reverse
  | [_] => none
  | a :: b :: rest => readPairs? highFirst (unit highFirst [a, b] :: read) rest

/-- Units of four bytes; none if bytes are left over. -/
def readFours? (highFirst : Bool) (read : List Nat) : List UInt8 → Option (List Nat)
  | [] => some read.reverse
  | a :: b :: c :: d :: rest => readFours? highFirst (unit highFirst [a, b, c, d] :: read) rest
  | _ => none

/-- The text of units of two bytes. A surrogate that is no part of a pair stands for itself. -/
def joinUnits (read : Text) : List Nat → Text
  | [] => read.reverse
  | [n] => (CodePoint.clamp n :: read).reverse
  | n :: m :: rest =>
    if isHigh n && isLow m then joinUnits (joinPair n m :: read) rest
    else joinUnits (CodePoint.clamp n :: read) (m :: rest)

def decode? : Encoding → List UInt8 → Option Text
  | bytes, all => Text.Utf8.decode? all
  | pairs highFirst, all => (readPairs? highFirst [] all).map (joinUnits [])
  | fours highFirst, all => (readFours? highFirst [] all).bind fun units => units.mapM CodePoint.ofNat?

end Encoding

/-- A mark of the byte order that a text may begin with. -/
def orderMark : Text := [CodePoint.clamp 0xFEFF]

/-- The text that was meant where `t` was sent, in units of one byte: the same one, unless its first bytes tell
otherwise. -/
def meantText? (t : Text) : Option Text :=
  match Encoding.detect (Text.Utf8.encode (t.take 4)) with
  | .bytes => some ((Text.dropPrefix? orderMark t).getD t)
  | encoding => encoding.decode? (Text.Utf8.encode t)

end XmlSchema.Json
