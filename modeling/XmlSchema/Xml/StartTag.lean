import XmlSchema.Xml.Cursor
import XmlSchema.Xml.Identifier
import XmlSchema.Xml.Node
import XmlSchema.Xml.UriReference
import Std.Data.HashSet

/-!
Reading of start tags: the name as it is written, the attributes, and the bindings of prefixes. At the end of a tag its
names are expanded, and its id is set beside those read before.
-/

namespace XmlSchema.Xml

/-- Namespaces by prefix. -/
abbrev Scope := List (Text × Text)

/-- An attribute as it is written: the prefix and the local part of its name, and its value. -/
structure WrittenAttribute where
  lead : Text
  localPart : Text
  value : Text

namespace WrittenAttribute

def declares? (a : WrittenAttribute) : Option Text :=
  if a.lead = "xmlns" then some a.localPart else if a.lead = [] && a.localPart = "xmlns" then some [] else none

def isId (a : WrittenAttribute) : Bool := a.lead = "xml" && a.localPart = "id"

/-- Whether the attribute says how to take white space, but neither of the two ways there are. -/
def isUnknownSpacing (a : WrittenAttribute) : Bool :=
  a.lead = "xml" && a.localPart = "space" && a.value ≠ "default" && a.value ≠ "preserve"

end WrittenAttribute

/-- The namespaces of markup itself belong to prefixes of their own, and other prefixes to namespaces that are not
empty. -/
def isForbidden (lead uri : Text) : Bool :=
  if lead = "xml" then uri ≠ Namespace.xml
  else uri = Namespace.xml || uri = Namespace.xmlns || lead = "xmlns" || (lead ≠ [] && uri = [])

def extendScope (bindings scope : Scope) : Scope :=
  bindings ++ scope.filter fun (lead, _) => !bindings.any fun (other, _) => other = lead

/-- The namespace of a prefix; without prefix and binding it is none. -/
def resolve? (scope : Scope) (lead : Text) : Option Text :=
  if lead = "xml" then some Namespace.xml
  else match scope.lookup lead with
    | some uri => some uri
    | none => if lead = [] then some [] else none

/-- The name of an element, or of an attribute with a prefix. Where the prefix is not bound it stays in the local part,
and there is no namespace. -/
def expand (scope : Scope) (lead localPart : Text) : Name :=
  match resolve? scope lead with
  | some uri => ⟨uri, localPart⟩
  | none => ⟨[], lead ++ ":" ++ localPart⟩

namespace WrittenAttribute

def isUnbound (scope : Scope) (a : WrittenAttribute) : Bool := (resolve? scope a.lead).isNone

/-- The expanded name of an attribute: one without prefix is in no namespace. -/
def name (scope : Scope) (a : WrittenAttribute) : Name :=
  if a.lead = [] then ⟨[], a.localPart⟩ else expand scope a.lead a.localPart

end WrittenAttribute

namespace Cursor

def errorIf (wrong : Bool) (c : Cursor) : Cursor := if wrong then c.error else c

/-- Takes in the declaration of a prefix. A forbidden one binds nothing, an invalid reference all the same; that names
without a prefix are in a namespace with a relative one is worth a warning. -/
def bind (bindings : Scope) (lead uri : Text) (c : Cursor) : Reading (Scope × Cursor) :=
  if isForbidden lead uri then .ok (bindings, c.error)
  else if lead = "xml" then .ok (bindings, c)
  else
    let c :=
      if uri = [] then c
      else if !UriReference.isValid uri then c.error
      else if lead = [] && !UriReference.isAbsolute uri then c.warn
      else c
    if bindings.any fun (other, _) => other = lead then c.stop else .ok (bindings ++ [(lead, uri)], c)

/-- Reads attributes up to the end of the tag; `read` holds those read so far, the last one first, and `bindings` the
prefixes that they bind. -/
def attributes : (count : Nat) → (read : List WrittenAttribute) → (bindings : Scope) → Cursor →
    Reading (List WrittenAttribute × Scope × Cursor)
  | 0, _, _, c => c.stop
  | n + 1, read, bindings, c => do
    let c := c.skipSpace
    if c.looksAt ">" || c.looksAt "/>" then return (read.reverse, bindings, c)
    let (lead, localPart, after) ← c.qualifiedName
    let after ← after.equalsSign
    let (value, after) ← after.value
    let a : WrittenAttribute := ⟨lead, localPart, value⟩
    let after := if a.isUnknownSpacing then after.warn else after
    let (read, bindings, after) ← match a.declares? with
      | none => pure (a :: read, bindings, after)
      | some lead => do
        let (bindings, after) ← after.bind bindings lead value
        pure (read, bindings, after)
    if after.looksAt ">" || after.looksAt "/>" || after.rest.head?.any CodePoint.isSpace then
      attributes n read bindings after
    else after.stop

/-- Two attributes cannot have the same name. It is a fault if they are written alike, and otherwise an error. `seen`
holds the names and prefixes of the attributes that come before. -/
def checkDistinct (seen : List (Name × Text)) : List (Name × Text) → Cursor → Reading Cursor
  | [], c => .ok c
  | (name, lead) :: later, c =>
    match seen.filter fun (other, _) => other = name with
    | [] => checkDistinct ((name, lead) :: seen) later c
    | same => if same.any fun (_, other) => other = lead then c.stop
      else checkDistinct ((name, lead) :: seen) later c.error

/-- Takes in the id that attributes give their element; `ids` are those of other elements. -/
def addId (ids : Std.HashSet Text) (attributes : List WrittenAttribute) (c : Cursor) : Std.HashSet Text × Cursor :=
  match attributes.find? (·.isId) with
  | none => (ids, c)
  | some a =>
    let c := c.errorIf !Identifier.isValid a.value
    if a.value = [] || ids.contains a.value then (ids, c.error) else (ids.insert a.value, c)

end Cursor

/-- The most elements that may be open at once. -/
def maxDepth : Nat := 256

/-- A start tag: the prefix and the whole of its name as written, and what it says. -/
structure StartTag where
  lead : Text
  written : Text
  tag : Tag

namespace Cursor

/-- Reads a start tag behind its opening, up to its closing. The element will be the `depth`th of those that are open,
and `ids` are the ids that have been given; the new ones are added. -/
def startTag (scope : Scope) (ids : Std.HashSet Text) (depth : Nat) (c : Cursor) :
    Reading (StartTag × Std.HashSet Text × Cursor) := do
  let (lead, localPart, c) ← c.qualifiedName
  if !(c.looksAt ">" || c.looksAt "/>" || c.rest.head?.any CodePoint.isSpace) then c.stop
  let (attributes, bindings, c) ← c.attributes (c.size + 1) [] []
  let scope := if bindings.isEmpty then scope else extendScope bindings scope
  let c := attributes.foldl (fun c a => c.errorIf (a.isUnbound scope)) c
  let c ← c.checkDistinct []
    ((attributes.filter fun a => !a.isUnbound scope).map fun a => (a.name scope, a.lead))
  let c := c.errorIf (resolve? scope lead).isNone
  if maxDepth < depth then c.stop
  let (ids, c) := c.addId ids attributes
  let named := attributes.map fun a => (a.name scope, a.value)
  let written : Text := if lead = [] then localPart else lead ++ ":" ++ localPart
  return (⟨lead, written,
    { name := expand scope lead localPart, line := c.line, scope
      attributes := named.map fun (name, value) => (name, (named.lookup name).getD value) }⟩, ids, c)

end Cursor

end XmlSchema.Xml
