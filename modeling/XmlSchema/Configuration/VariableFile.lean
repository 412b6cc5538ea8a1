import XmlSchema.Text.Blank
import XmlSchema.Text.Lines

/-!
Files of variables: lines of a name, an equals sign and a value. A value may be quoted, and may refer to other
variables; a number sign begins a comment. A line that cannot be read is passed over.
-/

namespace XmlSchema.VariableFile

def isBreak (c : CodePoint) : Bool := c.val = 0xA

/-- A blank that does not end the line. -/
def isLineBlank (c : CodePoint) : Bool := c.isBlank && !isBreak c

def skipLineBlanks (t : Text) : Text := t.dropWhile isLineBlank

def nextLine (t : Text) : Text := (t.dropWhile (!isBreak ·)).drop 1

def singleQuote : CodePoint := '\''

def doubleQuote : CodePoint := '"'

def backslash : CodePoint := '\\'

def numberSign : CodePoint := '#'

/-- A name, and what follows it. A comment has none. -/
def readName? : Text → Option (Option Text × Text)
  | [] => none
  | c :: t =>
    if c = numberSign then some (none, c :: t)
    else if c = singleQuote then
      match t.span (· ≠ singleQuote) with
      | (name, _ :: rest) => if name.isEmpty then none else some (some name, rest)
      | _ => none
    else
      let (name, rest) := (c :: t).span fun c => c ≠ CodePoint.ofChar '=' && c ≠ numberSign && !c.isBlank
      if name.isEmpty then none else some (some name, rest)

/-- A quoted text and what follows it, from behind the opening quote; `read` has been read, the last character first. A
character behind a backslash closes nothing. -/
def readQuoted? (quote : CodePoint) (read : Text) : Text → Option (Text × Text)
  | [] => none
  | [c] => if c = quote then some (read.reverse, []) else none
  | c :: d :: t =>
    if c = quote then some (read.reverse, d :: t)
    else if c = backslash then readQuoted? quote (d :: c :: read) t
    else readQuoted? quote (c :: read) (d :: t)

/-- The control character that a letter behind a backslash stands for. -/
def control? (c : CodePoint) : Option CodePoint :=
  ([('a', 0x7), ('b', 0x8), ('f', 0xC), ('n', 0xA), ('r', 0xD), ('t', 0x9), ('v', 0xB)] : List (Char × Nat)).findSome?
    fun (letter, code) => if c = CodePoint.ofChar letter then some (CodePoint.clamp code) else none

/-- What a character behind a backslash stands for, if it is an escape within these quotes. -/
def escape? (quote c : CodePoint) : Option CodePoint :=
  if c = backslash || c = singleQuote then some c
  else if quote = doubleQuote then if c = doubleQuote then some c else control? c
  else none

def unescape (quote : CodePoint) : Text → Text
  | [] => []
  | [c] => [c]
  | c :: d :: t =>
    match (if c = backslash then escape? quote d else none) with
    | some e => e :: unescape quote t
    | none => c :: unescape quote (d :: t)

/-- A value that is not quoted, without the comment behind a blank and the blanks before it. -/
def withoutComment (t : Text) : Text :=
  let rec go (kept : Text) : Text → Text
    | [] => kept.reverse
    | c :: t =>
      let rest := (c :: t).dropWhile CodePoint.isBlank
      if c.isBlank && rest.head? = some numberSign then kept.reverse else go (c :: kept) t
  ((go [] t).reverse.dropWhile CodePoint.isBlank).reverse

def readValue? (t : Text) : Option (Text × Text) :=
  match skipLineBlanks t with
  | [] => some ([], [])
  | c :: rest =>
    if c = singleQuote || c = doubleQuote then
      (readQuoted? c [] rest).map fun (value, rest) => (unescape c value, rest)
    else
      let (value, rest) := t.span (!isBreak ·)
      some (skipLineBlanks (withoutComment value), rest)

/-- What follows the rest of a line that holds only blanks and a comment. -/
def readEnd? (t : Text) : Option Text :=
  match skipLineBlanks t with
  | [] => some []
  | c :: rest =>
    if isBreak c then some rest
    else if c = numberSign then some (nextLine rest)
    else none

/-- The value of a reading, or the text at which it stopped. -/
def orStop {α : Type} (t : Text) : Option α → Except Text α
  | some a => .ok a
  | none => .error t

/-- One line from its first character: a name, with a value if there is an equals sign. -/
def readLine (t : Text) : Except Text (Option (Text × Option Text) × Text) := do
  let t := match Text.dropPrefix? "export" t with
    | some rest => if (rest.head?.map isLineBlank).getD false then skipLineBlanks rest else t
    | none => t
  let (name, rest) ← orStop t (readName? t)
  let rest := skipLineBlanks rest
  let (value, rest) ← match Text.dropPrefix? "=" rest with
    | some rest => (orStop rest (readValue? rest)).map fun (value, rest) => (some value, rest)
    | none => .ok (none, rest)
  return (name.map (·, value), ← orStop rest (readEnd? rest))

/-- Reads at most `count` lines. What is left of a line that cannot be read is passed over. -/
def readLines : (count : Nat) → Text → List (Text × Option Text)
  | 0, _ => []
  | count + 1, t =>
    match t.dropWhile CodePoint.isBlank with
    | [] => []
    | first :: rest =>
      match readLine (first :: rest) with
      | .ok (some entry, later) => entry :: readLines count later
      | .ok (none, later) => readLines count later
      | .error stopped => readLines count (nextLine stopped)

def byteOrderMark : Text := [CodePoint.clamp 0xFEFF]

/-- The variables of a file, in order; a name without an equals sign has no value. A byte order mark may stand before
them. -/
def read (t : Text) : List (Text × Option Text) :=
  let t := Text.withLineFeeds ((Text.dropPrefix? byteOrderMark t).getD t)
  readLines (t.length + 1) t

/-! ### References -/

/-- A reference to a variable: its name, and the text that stands in for it when it is missing. -/
structure Reference where
  name : Text
  fallback : Text

def closingBrace : CodePoint := '\x7d'

def readReference? (t : Text) : Option (Reference × Text) := do
  let inside ← Text.dropPrefix? "$\x7b" t
  let (name, rest) := inside.span fun c => c ≠ closingBrace && c ≠ CodePoint.ofChar ':'
  let (fallback, rest) := match Text.dropPrefix? ":-" rest with
    | some rest => rest.span (· ≠ closingBrace)
    | none => ([], rest)
  match rest with
  | c :: rest => if c = closingBrace then some (⟨name, fallback⟩, rest) else none
  | [] => none

/-- Replaces references by what `find?` knows, in a text of at most `count` parts. -/
def resolve (find? : Text → Option Text) : (count : Nat) → Text → Text
  | 0, t => t
  | _, [] => []
  | count + 1, c :: t =>
    match readReference? (c :: t) with
    | some (r, rest) => (find? r.name).getD r.fallback ++ resolve find? count rest
    | none => c :: resolve find? count t

def set (name : Text) (value : Option Text) : List (Text × Option Text) → List (Text × Option Text)
  | [] => [(name, value)]
  | (other, old) :: rest => if other = name then (name, value) :: rest else (other, old) :: set name value rest

/-- The variables of a file. A reference may name a variable set before, or one of the `outer` variables; a variable
that was set without a value hides an outer one and is empty. -/
def definitions (outer : List (Text × Text)) (t : Text) : List (Text × Option Text) :=
  (read t).foldl (fun known (name, value) =>
    let find? (name : Text) : Option Text :=
      match known.lookup name with
      | some value => some (value.getD [])
      | none => outer.lookup name
    set name (value.map fun value => resolve find? value.length value) known) []

end XmlSchema.VariableFile
