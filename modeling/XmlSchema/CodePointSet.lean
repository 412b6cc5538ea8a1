import XmlSchema.Text

/-!
Sets of code points as lists of ranges. `normalize` gives the one ascending list of disjoint ranges with gaps
between them; `complement` and `subtract` are the set operations, and `text` writes a set as a character class.
-/

namespace XmlSchema

structure CodePointRange where
  lo : Nat
  hi : Nat
deriving DecidableEq

abbrev CodePointSet := List CodePointRange

namespace CodePointRange

/-- Ascending by first, then by last code point. -/
def le (a b : CodePointRange) : Bool := a.lo < b.lo || (a.lo = b.lo && a.hi ≤ b.hi)

def contains (r : CodePointRange) (n : Nat) : Bool := r.lo ≤ n && n ≤ r.hi

end CodePointRange

namespace CodePointSet

def contains (s : CodePointSet) (n : Nat) : Bool := s.any (·.contains n)

def single (n : Nat) : CodePointSet := [⟨n, n⟩]

/-- Joins ranges that overlap or touch; `done` holds the joined ranges, last first. -/
def merge (done : CodePointSet) : CodePointSet → CodePointSet
  | [] => done.reverse
  | r :: rest =>
    match done with
    | [] => merge [r] rest
    | last :: before =>
      if r.lo ≤ last.hi + 1 then merge (⟨last.lo, max last.hi r.hi⟩ :: before) rest
      else merge (r :: last :: before) rest

def normalize (s : CodePointSet) : CodePointSet := merge [] (s.mergeSort CodePointRange.le)

/-- The gaps from `start` on between ascending ranges. -/
def gaps (start : Nat) : CodePointSet → CodePointSet
  | [] => if start ≤ CodePoint.maximum then [⟨start, CodePoint.maximum⟩] else []
  | r :: rest => if start < r.lo then ⟨start, r.lo - 1⟩ :: gaps (r.hi + 1) rest else gaps (r.hi + 1) rest

def complement (s : CodePointSet) : CodePointSet := gaps 0 s.normalize

/-- The parts of one range that lie in ascending ranges. -/
def clip (r : CodePointRange) (keep : CodePointSet) : CodePointSet :=
  (keep.takeWhile (·.lo ≤ r.hi)).filterMap fun k =>
    if max r.lo k.lo ≤ min r.hi k.hi then some ⟨max r.lo k.lo, min r.hi k.hi⟩ else none

def subtract (s removed : CodePointSet) : CodePointSet := s.normalize.flatMap (clip · removed.complement)

def hexDigits (n : Nat) : Text :=
  let digits := Nat.toDigits 16 n
  (List.replicate (8 - digits.length) '0' ++ digits).map CodePoint.ofChar

/-- A code point in a class: an ASCII letter or digit as itself, any other by its number. -/
def pointText (n : Nat) : Text :=
  let c := CodePoint.clamp n
  if c.isAsciiAlnum then [c] else "\\U" ++ hexDigits n

def rangeText (r : CodePointRange) : Text :=
  if r.lo = r.hi then pointText r.lo else pointText r.lo ++ "-" ++ pointText r.hi

/-- The set as a character class; the empty set is an expression that matches nowhere. -/
def text (s : CodePointSet) : Text :=
  match s.normalize with
  | [] => "(?!)"
  | ranges => "[" ++ ranges.flatMap rangeText ++ "]"

end CodePointSet

end XmlSchema
