/-!
Text as a list of Unicode code points. A code point may be a surrogate, which no character is: the texts
handed to the library are not always valid Unicode, and lengths and offsets count code points.
-/

namespace XmlSchema

/-- A number from 0 to 10FFFF, surrogates included. -/
structure CodePoint where
  val : Nat
  val_le : val ≤ 0x10FFFF
deriving DecidableEq

namespace CodePoint

def maximum : Nat := 0x10FFFF

def ofNat? (n : Nat) : Option CodePoint :=
  if h : n ≤ 0x10FFFF then some ⟨n, h⟩ else none

/-- Numbers beyond the last code point become the last code point. -/
def clamp (n : Nat) : CodePoint := ⟨min n 0x10FFFF, Nat.min_le_right _ _⟩

def ofChar (c : Char) : CodePoint := ⟨c.val.toNat, by
  have h : c.val.toNat.isValidChar := c.valid
  simp only [Nat.isValidChar] at h
  omega⟩

instance : Coe Char CodePoint := ⟨ofChar⟩

instance : Inhabited CodePoint := ⟨⟨0, by decide⟩⟩

instance : Hashable CodePoint := ⟨fun c => hash c.val⟩

instance : LT CodePoint := ⟨fun a b => a.val < b.val⟩

instance (a b : CodePoint) : Decidable (a < b) := inferInstanceAs (Decidable (a.val < b.val))

def isSurrogate (c : CodePoint) : Bool := 0xD800 ≤ c.val && c.val ≤ 0xDFFF

/-- The character of a code point; a surrogate has none. -/
def toChar? (c : CodePoint) : Option Char :=
  if h : c.val.isValidChar then some (Char.ofNatAux c.val h) else none

def isAsciiDigit (c : CodePoint) : Bool := 0x30 ≤ c.val && c.val ≤ 0x39

def isAsciiUpper (c : CodePoint) : Bool := 0x41 ≤ c.val && c.val ≤ 0x5A

def isAsciiLower (c : CodePoint) : Bool := 0x61 ≤ c.val && c.val ≤ 0x7A

def isAsciiLetter (c : CodePoint) : Bool := c.isAsciiUpper || c.isAsciiLower

def isAsciiAlnum (c : CodePoint) : Bool := c.isAsciiLetter || c.isAsciiDigit

def toAsciiUpper (c : CodePoint) : CodePoint := if c.isAsciiLower then clamp (c.val - 32) else c

def toAsciiLower (c : CodePoint) : CodePoint :=
  if c.isAsciiUpper then clamp (c.val + 32) else c

def hexValue? (c : CodePoint) : Option Nat :=
  if c.isAsciiDigit then some (c.val - 0x30)
  else if 0x61 ≤ c.val && c.val ≤ 0x66 then some (c.val - 0x61 + 10)
  else if 0x41 ≤ c.val && c.val ≤ 0x46 then some (c.val - 0x41 + 10)
  else none

theorem ext_val {a b : CodePoint} (h : a.val = b.val) : a = b := by
  cases a; cases b; cases h; rfl

end CodePoint

abbrev Text := List CodePoint

namespace Text

def ofString (s : String) : Text := s.toList.map CodePoint.ofChar

instance : Coe String Text := ⟨ofString⟩

/-- The text as a string, when it holds no surrogate. -/
def toString? (t : Text) : Option String := (t.mapM CodePoint.toChar?).map String.ofList

/-- What follows `lead`, when the text starts with it. -/
def dropPrefix? : (lead t : Text) → Option Text
  | [], t => some t
  | _ :: _, [] => none
  | l :: lead, c :: t => if l = c then dropPrefix? lead t else none

def startsWith (t lead : Text) : Bool := (dropPrefix? lead t).isSome

def endsWith (t tail : Text) : Bool := startsWith t.reverse tail.reverse

/-- Looks for `mark` in `t`, with what was passed already, last first, in `passed`. -/
def splitAtFrom? (mark passed : Text) : Text → Option (Text × Text)
  | [] => (dropPrefix? mark []).map fun after => (passed.reverse, after)
  | c :: t =>
    match dropPrefix? mark (c :: t) with
    | some after => some (passed.reverse, after)
    | none => splitAtFrom? mark (c :: passed) t

/-- The text before the first occurrence of `mark` and the text behind it. -/
def splitAt? (mark t : Text) : Option (Text × Text) := splitAtFrom? mark [] t

theorem dropPrefix?_length {lead t after : Text} (h : dropPrefix? lead t = some after) :
    lead.length + after.length = t.length := by
  induction lead generalizing t with
  | nil => simp_all [dropPrefix?]
  | cons l lead ih =>
    cases t with
    | nil => simp [dropPrefix?] at h
    | cons c t =>
      simp only [dropPrefix?] at h
      split at h
      · have := ih h
        simp only [List.length_cons]
        omega
      · simp at h

theorem splitAtFrom?_length {mark passed t : Text} {parts : Text × Text}
    (h : splitAtFrom? mark passed t = some parts) : mark.length + parts.2.length ≤ t.length := by
  induction t generalizing passed with
  | nil =>
    simp only [splitAtFrom?, Option.map_eq_some_iff] at h
    obtain ⟨after, ha, rfl⟩ := h
    exact Nat.le_of_eq (dropPrefix?_length ha)
  | cons c t ih =>
    simp only [splitAtFrom?] at h
    split at h
    · rename_i after ha
      cases h
      exact Nat.le_of_eq (dropPrefix?_length ha)
    · exact Nat.le_succ_of_le (ih h)

theorem splitAt?_length {mark t : Text} {parts : Text × Text} (h : splitAt? mark t = some parts) :
    mark.length + parts.2.length ≤ t.length := splitAtFrom?_length h

/-- Splits at every occurrence of one code point; a text without it is one part. -/
def splitOn (mark : CodePoint) (t : Text) : List Text :=
  t.foldr (fun c parts =>
    if c = mark then [] :: parts
    else match parts with
      | [] => [[c]]
      | part :: later => (c :: part) :: later) [[]]

/-- The text before the last occurrence of one code point and the text behind it. -/
def splitLast? (mark : CodePoint) (t : Text) : Option (Text × Text) :=
  match t.reverse.span (· ≠ mark) with
  | (_, []) => none
  | (after, _ :: before) => some (before.reverse, after.reverse)

def join (separator : Text) : List Text → Text
  | [] => []
  | t :: ts => t ++ ts.flatMap (separator ++ ·)

def replace (mark fill : CodePoint) (t : Text) : Text := t.map fun c => if c = mark then fill else c

def order : Text → Text → Ordering
  | [], [] => .eq
  | [], _ :: _ => .lt
  | _ :: _, [] => .gt
  | a :: s, b :: t => if a.val < b.val then .lt else if b.val < a.val then .gt else order s t

def sort (ts : List Text) : List Text := ts.mergeSort fun a b => order a b != .gt

def ofNat (n : Nat) : Text := (Nat.toDigits 10 n : List Char).map CodePoint.ofChar

def ofInt (i : Int) : Text := if i < 0 then '-' :: ofNat i.natAbs else ofNat i.natAbs

def quoted (t : Text) : Text := "'" ++ t ++ "'"

end Text

end XmlSchema
