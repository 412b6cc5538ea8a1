import XmlSchema.Pattern.Escape
import XmlSchema.Text.Blank

/-!
Reading of patterns. Each reader takes the text that is left and gives what it read with the text behind it; the
first flaw from the left is the one reported.
-/

namespace XmlSchema.Pattern

/-- Reads one member of a class: a character or what an escape stands for. -/
def readMember : Text → Except Failure (Item × Text)
  | [] => .error (.flaw .unexpectedEnd)
  | c :: rest =>
    if c = '\\' then readEscape rest
    else if c = '[' then .error (.flaw .unescapedBracket)
    else .ok (.point c, rest)

/-- Whether the text goes on with a range: a hyphen before a character that can end one. -/
def rangeFollows : Text → Bool
  | c :: d :: _ => c = '-' && d ≠ ']' && d ≠ '['
  | _ => false

/-- How deep a pattern may nest. A class that is taken away from another one takes room of one. -/
def maxRoom : Nat := 984

def groupRoom : Nat := 4

mutual

/-- Reads a class behind its opening bracket. A circumflex in front complements the members before the class that
follows a hyphen is taken away. Classes nest as deep as there is room. -/
def readClass : (fuel room : Nat) → Text → Except Failure (CodePointSet × Text)
  | 0, _, _ => .error (.flaw .unterminatedClass)
  | fuel + 1, room, t => do
    let negated := Text.startsWith t "^"
    let (members, removed, rest) ← readMembers fuel room true [] (if negated then t.drop 1 else t)
    let kept := if negated then CodePointSet.complement members else members
    match removed with
    | none => return (kept, rest)
    | some s => return (kept.subtract s, rest)

/-- Reads the members up to the closing bracket, and the class to take away, if there is one. -/
def readMembers : (fuel room : Nat) → (first : Bool) → CodePointSet → Text →
    Except Failure (CodePointSet × Option CodePointSet × Text)
  | 0, _, _, _, _ => .error (.flaw .unterminatedClass)
  | _ + 1, _, _, _, [] => .error (.flaw .unterminatedClass)
  | fuel + 1, room, first, members, c :: t =>
    if c = ']' && !first then .ok (members, none, t)
    else if c = '-' && Text.startsWith t "[" && !first then do
      if room = 0 then throw .tooDeep
      let (removed, rest) ← readClass fuel (room - 1) (t.drop 1)
      match Text.dropPrefix? "]" rest with
      | some after => return (members, some removed, after)
      | none => .error (.flaw .subtractionNotLast)
    else do
      let (item, rest) ← readMember (c :: t)
      match item with
      | .set s => readMembers fuel room false (s ++ members) rest
      | .point lo =>
        if rangeFollows rest then do
          let (item, rest) ← readMember (rest.drop 1)
          match item with
          | .set _ => .error (.flaw .invalidRange)
          | .point hi =>
            if hi < lo then .error (.flaw .invalidRange)
            else readMembers fuel room false (⟨lo.val, hi.val⟩ :: members) rest
        else readMembers fuel room false (⟨lo.val, lo.val⟩ :: members) rest

end

/-- The two numerals of a bound: digits, and behind a comma the digits of the maximum, which may be missing. -/
def boundParts? (body : Text) : Option (Text × Option Text) :=
  let (low, rest) := body.span CodePoint.isDigit
  if low.isEmpty then none
  else match rest with
    | [] => some (low, none)
    | c :: high => if c = ',' && high.all CodePoint.isDigit then some (low, some high) else none

def boundedNumber (digits : Text) : Except Failure Nat :=
  match Text.boundedValue? digits with
  | some n => .ok n
  | none => .error .numeralTooLong

def readBounds (body : Text) : Except Failure Occurs :=
  match boundParts? body with
  | none => .error (.flaw (.invalidQuantifier body))
  | some (low, none) => do
    let n ← boundedNumber low
    return ⟨n, some n⟩
  | some (low, some []) => do
    let n ← boundedNumber low
    return ⟨n, none⟩
  | some (low, some high) => do
    let n ← boundedNumber low
    let m ← boundedNumber high
    if m < n then .error (.flaw (.invalidQuantifier body)) else return ⟨n, some m⟩

def readQuantifier (atom : Expression) : Text → Except Failure (Expression × Text)
  | [] => .ok (atom, [])
  | c :: rest =>
    if c = '?' then .ok (.repeated atom .optional, rest)
    else if c = '*' then .ok (.repeated atom .star, rest)
    else if c = '+' then .ok (.repeated atom .plus, rest)
    else if c = '{' then
      match Text.splitAt? "\x7d" rest with
      | none => .error (.flaw .unterminatedQuantifier)
      | some (body, after) => do
        let range ← readBounds body
        return (.repeated atom (.counted body range), after)
    else .ok (atom, c :: rest)

mutual

def readBranches : (fuel room : Nat) → Text → Except Failure (List Expression × Text)
  | 0, _, _ => .error (.flaw .unexpectedEnd)
  | fuel + 1, room, t => do
    let (pieces, rest) ← readPieces fuel room t
    match Text.dropPrefix? "|" rest with
    | some after => do
      let (branches, rest) ← readBranches fuel room after
      return (.sequence pieces :: branches, rest)
    | none => return ([.sequence pieces], rest)

def readPieces : (fuel room : Nat) → Text → Except Failure (List Expression × Text)
  | 0, _, _ => .error (.flaw .unexpectedEnd)
  | _ + 1, _, [] => .ok ([], [])
  | fuel + 1, room, c :: t =>
    if c = '|' || c = ')' then .ok ([], c :: t)
    else do
      let (atom, rest) ← readAtom fuel room c t
      let (piece, rest) ← readQuantifier atom rest
      let (pieces, rest) ← readPieces fuel room rest
      return (piece :: pieces, rest)

def readAtom : (fuel room : Nat) → (c : CodePoint) → Text → Except Failure (Expression × Text)
  | 0, _, _, _ => .error (.flaw .unexpectedEnd)
  | fuel + 1, room, c, t =>
    if c = '(' then do
      if room < groupRoom then throw .tooDeep
      let (branches, rest) ← readBranches fuel (room - groupRoom) t
      match Text.dropPrefix? ")" rest with
      | some after => return (.choice branches, after)
      | none => .error (.flaw .missingParenthesis)
    else if c = '[' then (readClass (2 * t.length + 2) room t).map fun (s, rest) => (.set s, rest)
    else if c = '\\' then (readEscape t).map fun (item, rest) =>
      match item with
      | .point d => (.point d, rest)
      | .set s => (.set s, rest)
    else if c = '.' then .ok (.set anySet, t)
    else if c = '?' || c = '*' || c = '+' || c = '{' then .error (.flaw (.danglingQuantifier c))
    else .ok (.point c, t)

end

def read (source : Text) : Except Failure (List Expression) := do
  let (branches, rest) ← readBranches (3 * source.length + 3) maxRoom source
  if rest.isEmpty then return branches
  else .error (.flaw (.unbalanced (source.length - rest.length)))

/-- The pattern in the dialect of common regular expression engines. -/
def regexText (source : Text) : Except Failure Text := (read source).map alternativesText

end XmlSchema.Pattern
