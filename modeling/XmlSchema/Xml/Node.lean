import XmlSchema.Name

/-!
Elements of a document and what stands in them.
-/

namespace XmlSchema.Xml

/-- What a start tag says. `scope` holds the namespace of every prefix that is bound, the innermost binding only; the
empty prefix is for names without one. `line` is the line on which the tag ends, as far as lines can be told. -/
structure Tag where
  name : Name
  line : Nat
  attributes : List (Name × Text)
  scope : List (Text × Text)

/-- What stands in a document. All but an element holds the line that it is on: a text the one on which its first piece
ends, the others the one on which they end. -/
inductive Node where
  | text (content : Text) (line : Nat)
  | comment (content : Text) (line : Nat)
  | instruction (target data : Text) (line : Nat)
  | element (tag : Tag) (content : List Node)

/-- An element: what its start tag says and what stands between its tags. Two texts never stand next to each other. -/
structure Element where
  tag : Tag
  content : List Node

namespace Tag

def attribute? (t : Tag) (localPart : Text) : Option Text := t.attributes.lookup ⟨[], localPart⟩

def namespace? (t : Tag) (lead : Text) : Option Text := t.scope.lookup lead

end Tag

namespace Node

def toElement? : Node → Option Element
  | element tag content => some ⟨tag, content⟩
  | _ => none

/-- The text that a node itself is. -/
def ownText : Node → Text
  | text t _ => t
  | _ => []

def line : Node → Nat
  | text _ line | comment _ line | instruction _ _ line => line
  | element tag _ => tag.line

mutual

/-- Adds to `n` the elements, comments and instructions of a node; text does not count. -/
def countFrom (n : Nat) : Node → Nat
  | text _ _ => n
  | comment _ _ => n + 1
  | instruction _ _ _ => n + 1
  | element _ content => countAllFrom (n + 1) content

def countAllFrom (n : Nat) : List Node → Nat
  | [] => n
  | node :: nodes => countAllFrom (countFrom n node) nodes

end

mutual

/-- Whether all elements and attributes in a node have proper names. -/
def isProper : Node → Bool
  | element tag content =>
    tag.name.isProper && tag.attributes.all (fun (name, _) => name.isProper) && areProper content
  | _ => true

def areProper : List Node → Bool
  | [] => true
  | node :: nodes => node.isProper && areProper nodes

end

/-- The elements, comments and instructions of a node, itself included. -/
def count (node : Node) : Nat := countFrom 0 node

end Node

namespace Element

def name (e : Element) : Name := e.tag.name

def toNode (e : Element) : Node := .element e.tag e.content

def children (e : Element) : List Element := e.content.filterMap Node.toElement?

/-- The text between the tags, but for that of the elements there. -/
def text (e : Element) : Text := e.content.flatMap Node.ownText

end Element

end XmlSchema.Xml
