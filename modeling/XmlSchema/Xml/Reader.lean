import XmlSchema.Xml.Line
import XmlSchema.Xml.StartTag

/-!
Reading of a document: declaration, comments and instructions, and the root element with all that stands in it. A
document that is read to its end has no faults; it is still refused when the last remark on it is an error.
-/

namespace XmlSchema.Xml

namespace Cursor

/-! ### Declaration, comments, instructions -/

def quoted (c : Cursor) (read : Cursor → Reading Cursor) : Reading Cursor := do
  match c.rest with
  | [] => c.stop
  | quote :: _ =>
    if quote = '"' || quote = '\'' then do
      let after ← read (c.skip 1)
      after.behind [quote]
    else c.stop

/-- A version is a digit, a point and digits; only the first major version can be read, and of its minor versions but
one is known. -/
def version (c : Cursor) : Reading Cursor := do
  let (minor, after) := (← c.behind "1.").span CodePoint.isAsciiDigit
  return if minor = "0" then after else after.warn

def encodingName (c : Cursor) : Reading Cursor :=
  match c.rest with
  | [] => c.stop
  | first :: _ =>
    if first.isAsciiLetter then .ok (c.span fun d => d.isAsciiAlnum || d = '.' || d = '_' || d = '-').2
    else c.stop

def yesOrNo (c : Cursor) : Reading Cursor :=
  match c.behind? "yes" with
  | some after => .ok after
  | none => c.behind "no"

/-- Reads what a part of the declaration says, if the part is there. -/
def declarationPart (c : Cursor) (keyword : Text) (read : Cursor → Reading Cursor) : Reading (Option Cursor) :=
  match c.skipSpace.behind? keyword with
  | none => .ok none
  | some after => do
    let after ← after.equalsSign
    some <$> after.quoted read

/-- Between two parts of the declaration there is space; without it the declaration ends. -/
def endOrSpace (c : Cursor) : Reading (Option Cursor) :=
  match c.behind? "?>" with
  | some after => .ok (some after)
  | none => if c.rest.head?.any CodePoint.isSpace then .ok none else c.stop

def declaration (c : Cursor) : Reading Cursor := do
  let some c ← c.declarationPart "version" version | c.skipSpace.stop
  if let some after ← c.endOrSpace then return after
  let c ← match ← c.declarationPart "encoding" encodingName with
    | none => pure c
    | some after => do
      if let some last ← after.endOrSpace then return last
      pure after
  let c := (← c.declarationPart "standalone" yesOrNo).getD c
  c.skipSpace.behind "?>"

/-- Reads a comment behind its opening. Two hyphens end it. -/
def comment (c : Cursor) : Reading (Node × Cursor) := do
  let (content, after) ← c.upTo "--"
  let after ← after.behind ">"
  return (.comment (Text.withLineFeeds content) after.line, after)

/-- Targets that are in use although they begin with the name of the declaration. -/
def knownTargets : List Text := ["xml-stylesheet", "xml-model"]

/-- Remarks on the target of an instruction. The name of the declaration is no target, in any case, and names that begin
with it are reserved; a target holds no colon. -/
def checkTarget (target : Text) (c : Cursor) : Reading Cursor :=
  let lower := target.map CodePoint.toAsciiLower
  if lower = "xml" then c.stop
  else if knownTargets.contains target then .ok c
  else
    let c := if Text.startsWith lower "xml" then c.warn else c
    .ok (c.errorIf (target.contains (CodePoint.ofChar ':')))

def instruction (c : Cursor) : Reading (Node × Cursor) := do
  let (target, after) ← c.name
  let after ← after.checkTarget target
  match after.behind? "?>" with
  | some last => return (.instruction target [] last.line, last)
  | none =>
    if after.rest.head?.any CodePoint.isSpace then do
      let (data, last) ← after.skipSpace.upTo "?>"
      return (.instruction target (Text.withLineFeeds data) last.line, last)
    else after.stop

/-- Reads spaces, comments and instructions outside the root; at most `parts` of them follow, and those in `read` have
been read, the last one first. -/
def misc : (parts : Nat) → (read : List Node) → Cursor → Reading (List Node × Cursor)
  | 0, read, c => .ok (read, c)
  | n + 1, read, c => do
    let c := c.skipSpace
    match c.behind? "<?", c.behind? "<!--" with
    | some inside, _ =>
      let (node, after) ← inside.instruction
      misc n (node :: read) after
    | none, some inside =>
      let (node, after) ← inside.comment
      misc n (node :: read) after
    | none, none => return (read, c)

end Cursor

/-! ### Content -/

/-- An element that is open: its start tag, and what has been read of its content, the last node first. `pending` are
the parts of the text behind these nodes, the last part first; no part means no text. `textLine` is the line on which
that text begins, and `textSize` the bytes that it takes. -/
structure OpenElement where
  start : StartTag
  read : List Node := []
  pending : List Text := []
  textLine : Nat := 0
  textSize : Nat := 0

namespace OpenElement

/-- Adds a part of a text, of which the first piece ends on a line. -/
def addText (e : OpenElement) (t : Text) (line : Nat) : OpenElement :=
  { e with
    pending := t :: e.pending, textLine := if e.pending.isEmpty then line else e.textLine
    textSize := e.textSize + Text.Utf8.size t }

/-- Whether the text takes more bytes than a text may that is joined from pieces. A text with characters of more than
one byte always is. -/
def hasLongText (e : OpenElement) : Bool :=
  Cursor.maxTextSize < e.textSize && (1 < e.pending.length || e.pending.any (·.any (0x80 ≤ ·.val)))

/-- The content so far, the last node first. -/
def nodes (e : OpenElement) : List Node :=
  if e.pending.isEmpty then e.read else .text e.pending.reverse.flatten e.textLine :: e.read

def addNode (e : OpenElement) (n : Node) : OpenElement := { e with read := n :: e.nodes, pending := [], textSize := 0 }

def close (e : OpenElement) : Element := ⟨e.start.tag, e.nodes.reverse⟩

end OpenElement

namespace Cursor

/-- Reads character data up to markup. The mark that closes a literal section must not stand in it. -/
def characterData (c : Cursor) : Reading (Text × Cursor) :=
  let (part, after) := c.span fun d => d ≠ '<' && d ≠ '&' && isCharacter d
  match Text.splitAt? "]]>" part with
  | some (before, _) => c.stopAt (c.line + Text.lineFeeds before)
  | none =>
    match after.rest with
    | [] => .ok (part, after)
    | d :: _ => if d = '<' || d = '&' then .ok (part, after) else after.stop

/-- Reads an end tag behind its opening. If the start tag has a prefix, colons in other places are in error here too. -/
def endTag (start : StartTag) (c : Cursor) : Reading Cursor :=
  if c.rest.head?.any NameCharacter.isStart then
    let (name, after) := c.span NameCharacter.isFollow
    let after := (after.errorIf (start.lead ≠ [] && (splitName? name).isNone)).skipSpace
    if name = start.written then after.behind ">" else after.stop
  else c.skipSpace.stop

/-- Reads what stands in the innermost open element `e`, and then in the elements around it. Each step reads one part
of the markup, at most `parts` in all. `ids` are the ids given so far. -/
def content : (parts : Nat) → (ids : Std.HashSet Text) → (e : OpenElement) → (outer : List OpenElement) → Cursor →
    Reading (Element × Cursor)
  | 0, _, _, _, c => c.stop
  | n + 1, ids, e, outer, c => do
    match c.rest with
    | [] => c.stop
    | first :: _ =>
      if e.hasLongText then c.stop
      else if first = '&' then
        let (d, after) ← c.reference
        content n ids (e.addText [d] after.line) outer after
      else if first ≠ '<' then
        let (t, after) ← c.characterData
        content n ids (e.addText (Text.withLineFeeds t) (c.line + lineFeedsOfPiece t)) outer after
      else if let some after := c.behind? "</" then
        let after ← after.endTag e.start
        match outer with
        | [] => return (e.close, after)
        | parent :: outer => content n ids (parent.addNode e.close.toNode) outer after
      else if let some after := c.behind? "<?" then
        let (node, after) ← after.instruction
        content n ids (e.addNode node) outer after
      else if let some after := c.behind? "<!--" then
        let (node, after) ← after.comment
        content n ids (e.addNode node) outer after
      else if let some after := c.behind? "<![CDATA[" then
        let (t, after) ← after.upTo "]]>"
        content n ids (e.addText (Text.withLineFeeds t) after.line) outer after
      else
        let (start, ids, after) ← (c.skip 1).startTag e.start.tag.scope ids (outer.length + 2)
        match after.behind? "/>" with
        | some after => content n ids (e.addNode (.element start.tag [])) outer after
        | none => content n ids { start } (e :: outer) (after.skip 1)

def element (c : Cursor) : Reading (Element × Cursor) := do
  let after ← c.behind "<"
  let (start, ids, after) ← after.startTag [] {} 1
  match after.behind? "/>" with
  | some after => return (⟨start.tag, []⟩, after)
  | none => (after.skip 1).content (after.size + 1) ids { start } []

/-- Reads a whole document. A byte order mark may stand before it. The lines of elements are those that they are told to
stand on. -/
def document (c : Cursor) : Reading Element := do
  let c := match c.rest with
    | [] => c
    | mark :: _ => if mark.val = 0xFEFF then c.skip 1 else c
  let c ← match c.behind? "<?xml" with
    | none => pure c
    | some after => if after.rest.head?.any CodePoint.isSpace then after.declaration else pure c
  let (before, c) ← c.misc (c.size + 1) []
  let (root, c) ← c.element
  let (after, c) ← c.misc (c.size + 1) []
  if !c.atEnd then c.stop
  if let some line := c.log.refusal? then throw line
  return root.tell before after.reverse

end Cursor

end XmlSchema.Xml
