import XmlSchema.Schema.Fault
import XmlSchema.Text.Blank
import XmlSchema.Xml.Node

/-!
Schema documents as trees of items. An item is an element of the schema namespace that declares something; annotations
are left out, and of the elements of other namespaces or of improper names inside an item only the first is remembered,
since none may be there.
-/

namespace XmlSchema.Schema

abbrev Build (α : Type) := Except SchemaError α

/-- What is wrong with an element, on a line, that must not stand in a schema. -/
def foreignError (child : Name) (line : Nat) (parent : Text) : SchemaError :=
  if child.isProper then .malformed line (.foreignElement child parent) else .improperName

/-- `path` leads up from the item to the definition that it stands in, by the positions among the items of each
level. -/
inductive Item where
  | mk (tag : Xml.Tag) (path : List Nat) (foreign : Option (Name × Nat)) (inner : List Item)

namespace Item

instance : Inhabited Item := ⟨mk ⟨default, 0, [], []⟩ [] none []⟩

/-- The items among the nodes seen so far, the last one first, their number, and the first element that is none. -/
structure Gathering where
  items : List Item := []
  count : Nat := 0
  foreign : Option (Name × Nat) := none

mutual

/-- Adds what a node makes; `place` gives the paths of the items on its level. -/
def gather (place : Nat → List Nat) (g : Gathering) : Xml.Node → Gathering
  | .element tag content =>
    if tag.name.uri ≠ Namespace.schema || !tag.name.isProper then
      { g with foreign := g.foreign <|> some (tag.name, tag.line) }
    else if tag.name.localPart = "annotation" then g
    else
      let path := place g.count
      let inner := gatherAll (· :: path) {} content
      { g with items := mk tag path inner.foreign inner.items.reverse :: g.items, count := g.count + 1 }
  | _ => g

def gatherAll (place : Nat → List Nat) (g : Gathering) : List Xml.Node → Gathering
  | [] => g
  | node :: later => gatherAll place (gather place g node) later

end

/-- The item that an element makes, as the beginning of all paths inside it. -/
def ofTag (tag : Xml.Tag) (content : List Xml.Node) : Item :=
  let inner := gatherAll (fun i => [i]) {} content
  mk tag [] inner.foreign inner.items.reverse

def tag : Item → Xml.Tag
  | mk tag _ _ _ => tag

def path : Item → List Nat
  | mk _ path _ _ => path

def line (i : Item) : Nat := i.tag.line

/-- The local part of the item's name, which says what it declares. -/
def kind (i : Item) : Text := i.tag.name.localPart

def is (i : Item) (kind : Text) : Bool := i.kind = kind

def isAmong (i : Item) (kinds : List Text) : Bool := kinds.contains i.kind

def get? (i : Item) (key : Text) : Option Text := i.tag.attribute? key

/-- The value of an attribute that is there and not empty. -/
def getFull? (i : Item) (key : Text) : Option Text := (i.get? key).filter (!·.isEmpty)

def fail {α : Type} (i : Item) (fault : SchemaFault) : Build α := .error (.malformed i.line fault)

/-- The items inside an item; an element of another namespace, or of an improper name, must not be there. -/
def inner : Item → Build (List Item)
  | mk _ _ none inner => .ok inner
  | mk tag _ (some (child, line)) _ => .error (foreignError child line tag.name.localPart)

/-- The value of a truth attribute; one that is not there is false. -/
def flag (i : Item) (key : Text) : Build Bool :=
  match (i.get? key).map Text.trim with
  | none => .ok false
  | some value =>
    if value = "true" || value = "1" then .ok true
    else if value = "false" || value = "0" then .ok false
    else i.fail (.notBoolean key value)

end Item

/-- The name that a text stands for at a tag: the namespace is that of the prefix before the last colon. -/
def expandName (tag : Xml.Tag) (value : Text) : Build Name :=
  let value := Text.trim value
  let fail {α : Type} (fault : SchemaFault) : Build α := .error (.malformed tag.line fault)
  match Text.splitLast? ':' value with
  | none => if value.isEmpty then fail (.invalidName value) else .ok ⟨(tag.namespace? []).getD [], value⟩
  | some (lead, localPart) =>
    if localPart.isEmpty then fail (.invalidName value)
    else if lead = "xml" then .ok ⟨Namespace.xml, localPart⟩
    else match if lead.isEmpty then none else tag.namespace? lead with
      | some uri => .ok ⟨uri, localPart⟩
      | none => fail (.undeclaredPrefix lead value)

def Item.expandName (i : Item) (value : Text) : Build Name := Schema.expandName i.tag value

/-! ### References between definitions -/

/-- The attribute of a kind of item that names other definitions, and the kind of these. -/
def referringAttribute? (kind : Text) : Option (Text × DefinitionKind) :=
  ([("restriction", "base", .type), ("extension", "base", .type), ("list", "itemType", .type),
    ("union", "memberTypes", .type), ("group", "ref", .group), ("attributeGroup", "ref", .attributeGroup)] :
    List (Text × Text × DefinitionKind)).lookup kind

mutual

/-- The tags of the schema namespace at and in a node, but for those at and in elements, put before `seen`: a tag before
those of its content, and the content from its end. Tags of improper names are among them. -/
def tagsFrom (seen : List Xml.Tag) : Xml.Node → List Xml.Tag
  | .element tag content =>
    if tag.name.isProper && (tag.name.uri ≠ Namespace.schema || tag.name.localPart = "element") then seen
    else tag :: tagsOfAll seen content
  | _ => seen

def tagsOfAll (seen : List Xml.Tag) : List Xml.Node → List Xml.Tag
  | [] => seen
  | node :: later => tagsOfAll (tagsFrom seen node) later

end

def tagReferences (tag : Xml.Tag) : Build (List DefinitionKey) :=
  if !tag.name.isProper then .error .improperName
  else match referringAttribute? tag.name.localPart with
  | none => .ok []
  | some (key, kind) =>
    (Text.words ((tag.attribute? key).getD [])).mapM fun word => do return ⟨kind, ← expandName tag word⟩

/-- The definitions that the content of a definition refers to. Elements need not be known for a definition to be
known, which is how content can hold itself. -/
def references (content : List Xml.Node) : Build (List DefinitionKey) := do
  return (← (tagsOfAll [] content).mapM tagReferences).flatten

end XmlSchema.Schema
