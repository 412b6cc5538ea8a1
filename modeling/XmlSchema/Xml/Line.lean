import XmlSchema.Text.Lines
import XmlSchema.Text.Utf8
import XmlSchema.Xml.Node

/-!
The lines that nodes are on. A line with a small number is known for every node. A line with a larger number is known
for texts only, and an element so far down is told to stand where a text near it does.
-/

namespace XmlSchema

namespace Text

/-- The line feeds in the first `room` bytes, in whole characters; the two characters of one line end take one byte. -/
def lineFeedsWithin : (room : Nat) → Text → Nat
  | 0, _ => 0
  | _, [] => 0
  | room + 1, c :: t =>
    if c.val = 0xA then lineFeedsWithin room t + 1
    else if c.val = 0xD && t.head?.any (·.val = 0xA) then lineFeedsWithin (room + 1) t
    else lineFeedsWithin (room + 1 - Utf8.sizeOne c) t

end Text

namespace Xml

/-- The characters of the texts that are taken in at once: those of ASCII, but for carriage returns. -/
def isPlain (c : CodePoint) : Bool := c.val < 0x80 && c.val ≠ 0xD

/-- The most bytes of a piece of text, but for one character, when other characters are in it. -/
def pieceSize : Nat := 300

/-- The line feeds in the first piece of character data: plain characters, perhaps with a line end of two characters
before them, or else characters of any kind. -/
def lineFeedsOfPiece (t : Text) : Nat :=
  match t with
  | c :: d :: rest =>
    if isPlain c then Text.lineFeeds (t.takeWhile isPlain)
    else if c.val = 0xD && d.val = 0xA && rest.head?.all isPlain then Text.lineFeeds ((d :: rest).takeWhile isPlain)
    else Text.lineFeedsWithin pieceSize t
  | _ => Text.lineFeeds t

/-- The first line that is too far down to be known for all nodes. -/
def farLine : Nat := 65535

namespace Node

/-- How far a line is looked for in the nodes around. -/
def reach : Nat := 5

/-- The line that a node is told to stand on; `before` are the nodes before it, the nearest first, and `after` those
behind it. For a node far down that is no text it is the line of the first node in it, of the next node, or of the one
before. -/
def toldLine? : (reach : Nat) → (before : List Node) → Node → (after : List Node) → Option Nat
  | 0, _, _, _ => none
  | n + 1, before, node, after =>
    if node.line < farLine then some node.line
    else some <| Option.getD (match node, after, before with
      | .text _ line, _, _ => some line
      | .element _ (child :: children), _, _ => toldLine? n [] child children
      | _, next :: later, _ => toldLine? n (node :: before) next later
      | _, [], previous :: earlier => toldLine? n earlier previous [node]
      | _, [], [] => none) farLine

def toldLine (before : List Node) (node : Node) (after : List Node) : Nat :=
  (toldLine? reach before node after).getD farLine

mutual

/-- Puts the elements of a node on the lines that they are told to stand on. -/
def tell (before after : List Node) : Node → Node
  | .element tag content =>
    .element { tag with line := toldLine before (.element tag content) after } (tellAll [] [] content)
  | node => node

/-- Does so for nodes of which those in `before` are done already and are in `told`, the last one first. -/
def tellAll (before told : List Node) : List Node → List Node
  | [] => told.reverse
  | node :: after => tellAll (node :: before) (tell before after node :: told) after

end

end Node

/-- Puts an element, and those in it, on the lines that they are told to stand on. -/
def Element.tell (before after : List Node) (e : Element) : Element :=
  ⟨{ e.tag with line := Node.toldLine before e.toNode after }, Node.tellAll [] [] e.content⟩

end Xml

end XmlSchema
