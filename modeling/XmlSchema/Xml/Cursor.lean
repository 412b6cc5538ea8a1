import XmlSchema.NameCharacter
import XmlSchema.Text.Blank
import XmlSchema.Text.Lines
import XmlSchema.Text.Utf8
import XmlSchema.Xml.Log

/-!
A place in a text that is being read, and the reading of the smallest parts of markup: characters, names, references,
quoted values. A reading that meets a fault gives the number of a line: that of the first error, or else its own.
-/

namespace XmlSchema.Xml

/-- The text that is left, the line on which it begins, the size of the whole text, which bounds the number of parts
that can still be read, and the remarks made before this place. -/
structure Cursor where
  rest : Text
  line : Nat
  size : Nat
  log : Log := {}

abbrev Reading (α : Type) := Except Nat α

/-- The characters that a document may hold. -/
def isCharacter (c : CodePoint) : Bool :=
  c.val = 0x9 || c.val = 0xA || c.val = 0xD || (0x20 ≤ c.val && c.val ≤ 0xD7FF) ||
    (0xE000 ≤ c.val && c.val ≤ 0xFFFD) || 0x10000 ≤ c.val

namespace Cursor

def start (t : Text) : Cursor := { rest := t, line := 1, size := t.length }

def atEnd (c : Cursor) : Bool := c.rest.isEmpty

def warn (c : Cursor) : Cursor := { c with log := c.log.warn }

def error (c : Cursor) : Cursor := { c with log := c.log.error c.line }

def stopAt {α : Type} (c : Cursor) (line : Nat) : Reading α := .error (c.log.lineOfFault line)

def stop {α : Type} (c : Cursor) : Reading α := c.stopAt c.line

def looksAt (c : Cursor) (t : Text) : Bool := Text.startsWith c.rest t

/-- Behind a text in which no line ends. -/
def skip (c : Cursor) (n : Nat) : Cursor := { c with rest := c.rest.drop n }

/-- Behind a text, if that is what comes next. -/
def behind? (c : Cursor) (t : Text) : Option Cursor := (Text.dropPrefix? t c.rest).map fun rest => { c with rest }

def behind (c : Cursor) (t : Text) : Reading Cursor :=
  match c.behind? t with
  | some after => .ok after
  | none => c.stop

def span (p : CodePoint → Bool) (c : Cursor) : Text × Cursor :=
  let (part, rest) := c.rest.span p
  (part, { c with rest, line := c.line + Text.lineFeeds part })

def skipSpace (c : Cursor) : Cursor := (c.span CodePoint.isSpace).2

/-- The most bytes that a value, a comment, an instruction or a joined text may take. -/
def maxTextSize : Nat := 10000000

def isLong (t : Text) : Bool := maxTextSize < Text.Utf8.size t

/-! ### Names -/

/-- The most bytes that a name may take. -/
def maxNameSize : Nat := 50000

def isShort (name : Text) : Bool := Text.Utf8.size name ≤ maxNameSize

def name (c : Cursor) : Reading (Text × Cursor) :=
  if c.rest.head?.any NameCharacter.isStart then
    let (name, after) := c.span NameCharacter.isFollow
    if isShort name then .ok (name, after) else c.stop
  else c.stop

end Cursor

/-- The prefix and the local part of a name. A name without a colon has no prefix. -/
def splitName? (name : Text) : Option (Text × Text) :=
  match Text.splitAt? ":" name with
  | none => if NameCharacter.isNCName name then some ([], name) else none
  | some (lead, localPart) =>
    if NameCharacter.isNCName lead && NameCharacter.isNCName localPart then some (lead, localPart) else none

namespace Cursor

/-- Reads a name before which another name and a colon may stand. A name with colons in other places is in error; it is
all local part. -/
def qualifiedName (c : Cursor) : Reading (Text × Text × Cursor) :=
  if c.rest.head?.any NameCharacter.isStart then
    let (written, after) := c.span NameCharacter.isFollow
    match splitName? written with
    | some (lead, localPart) =>
      if isShort lead && isShort localPart then .ok (lead, localPart, after) else c.stop
    | none => if isShort written then .ok ([], written, after.error) else c.stop
  else c.stop

/-- Reads up to a mark; everything before it has to be a character. -/
def upTo (c : Cursor) (mark : Text) : Reading (Text × Cursor) :=
  match Text.splitAt? mark c.rest with
  | some (part, rest) =>
    let after := { c with rest, line := c.line + Text.lineFeeds part }
    if part.all isCharacter then if isLong part then after.stop else .ok (part, after)
    else c.stopAt (c.line + Text.lineFeeds (part.takeWhile isCharacter))
  | none => c.stopAt (c.line + Text.lineFeeds (c.rest.takeWhile isCharacter))

/-! ### References -/

/-- The number of digits in a base; a number beyond all code points stays beyond. -/
def numeral (base : Nat) (digits : Text) : Nat :=
  digits.foldl (fun n c => min (base * n + c.hexValue?.getD 0) 0x110000) 0

/-- Reads the reference to a character by its number, behind its opening. -/
def characterReference (c : Cursor) : Reading (CodePoint × Cursor) := do
  let (base, digit, c) := match c.behind? "x" with
    | some after => (16, fun (d : CodePoint) => d.hexValue?.isSome, after)
    | none => (10, CodePoint.isAsciiDigit, c)
  let (digits, after) := c.span digit
  let after ← after.behind ";"
  match CodePoint.ofNat? (numeral base digits) with
  | some d => if isCharacter d then return (d, after) else after.stop
  | none => after.stop

def entities : List (Text × CodePoint) := [("lt", '<'), ("gt", '>'), ("amp", '&'), ("quot", '"'), ("apos", '\'')]

def reference (c : Cursor) : Reading (CodePoint × Cursor) := do
  match c.behind? "&#" with
  | some after => after.characterReference
  | none =>
    let (name, after) ← (c.skip 1).name
    let after ← after.behind ";"
    match entities.lookup name with
    | some d => return (d, after)
    | none => after.stop

/-! ### Quoted values -/

/-- Reads the value of an attribute up to its closing quote; `parts` are the parts read so far, the last one first.
White space reads as spaces, unless a reference stands for it. -/
def valueFrom (quote : CodePoint) : (parts : Nat) → (read : List Text) → Cursor → Reading (Text × Cursor)
  | 0, _, c => c.stop
  | n + 1, read, c =>
    let (part, after) := c.span fun d => d ≠ quote && d ≠ '<' && d ≠ '&' && isCharacter d
    let read := ((Text.withLineFeeds part).map fun d => if d.isSpace then CodePoint.ofChar ' ' else d) :: read
    match after.rest with
    | [] => after.stop
    | d :: _ =>
      if d = quote then
        let value := read.reverse.flatten
        if isLong value then after.stop else .ok (value, after.skip 1)
      else if d = '&' then do
        let (e, after) ← after.reference
        valueFrom quote n ([e] :: read) after
      else after.stop

def value (c : Cursor) : Reading (Text × Cursor) :=
  match c.rest with
  | [] => c.stop
  | quote :: _ =>
    if quote = '"' || quote = '\'' then valueFrom quote c.size [] (c.skip 1) else c.stop

def equalsSign (c : Cursor) : Reading Cursor := do
  let after ← c.skipSpace.behind "="
  return after.skipSpace

end Cursor

end XmlSchema.Xml
