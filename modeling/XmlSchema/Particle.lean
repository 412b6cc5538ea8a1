import XmlSchema.Name
import XmlSchema.Occurrence

/-!
Content models: particles that stand for one element, for any element of some namespaces, or for a group of
particles, each with an occurrence range.
-/

namespace XmlSchema

/-- The kinds of named definitions that other components are built from. -/
inductive DefinitionKind where
  | type
  | group
  | attributeGroup
  | element
deriving DecidableEq, Hashable

def DefinitionKind.name : DefinitionKind → Text
  | type => "type"
  | group => "group"
  | attributeGroup => "attributeGroup"
  | element => "element"

structure DefinitionKey where
  kind : DefinitionKind
  name : Name
deriving DecidableEq, Hashable

namespace DefinitionKey

def labelOf (kind : Text) (name : Name) : Text := kind ++ " " ++ Text.quoted name.localPart

def label (k : DefinitionKey) : Text := labelOf k.kind.name k.name

def pathText (labels : List Text) : Text := Text.join " -> " labels

def describePath (path : List DefinitionKey) : Text := pathText (path.map label)

end DefinitionKey

inductive Strictness where
  | strict
  | lax
  | skip
deriving DecidableEq

def Strictness.name : Strictness → Text
  | strict => "strict"
  | lax => "lax"
  | skip => "skip"

def Strictness.ofName? (t : Text) : Option Strictness := [Strictness.strict, .lax, .skip].find? fun p => p.name = t

/-- The namespaces that a wildcard admits: all, all but none and those named, or exactly those named. -/
inductive NamespaceScope where
  | any
  | outside (namespaces : List Text)
  | within (namespaces : List Text)
deriving DecidableEq

structure Wildcard where
  scope : NamespaceScope
  strictness : Strictness
deriving DecidableEq

namespace Wildcard

def allows (w : Wildcard) (uri : Text) : Bool :=
  match w.scope with
  | .any => true
  | .outside namespaces => uri ≠ [] && !namespaces.contains uri
  | .within namespaces => namespaces.contains uri

def namespaceLabel (uri : Text) : Text := if uri = [] then "(no namespace)" else uri

def label (w : Wildcard) : Text :=
  match w.scope with
  | .any => "any element"
  | .outside _ => "any element from another namespace"
  | .within namespaces =>
    "any element from " ++ Text.join ", " (Text.sort (namespaces.eraseDups.map namespaceLabel))

end Wildcard

inductive Compositor where
  | sequence
  | choice
  | all
deriving DecidableEq

def Compositor.name : Compositor → Text
  | sequence => "sequence"
  | choice => "choice"
  | all => "all"

/-- Which declaration an element particle refers to: the global one of its name, or the one at a path inside a named
definition. -/
inductive ElementKey where
  | named
  | inside (owner : DefinitionKey) (path : List Nat)
deriving DecidableEq, Hashable

inductive Particle where
  | element (name : Name) (key : ElementKey) (occurs : Occurs)
  | wildcard (wildcard : Wildcard) (occurs : Occurs)
  /-- `source` is the named group whose members these are, if the particle refers to one. -/
  | group (compositor : Compositor) (members : List Particle) (occurs : Occurs) (source : Option Name)

namespace Particle

instance : Inhabited Particle := ⟨group .sequence [] {} none⟩

def occurs : Particle → Occurs
  | element _ _ occurs => occurs
  | wildcard _ occurs => occurs
  | group _ _ occurs _ => occurs

def emptySequence : Particle := group .sequence [] {} none

def elementLabel (name : Name) : Text := Text.quoted name.localPart

mutual

/-- Whether the particle is a group without any element or wildcard in it. -/
def isEmptyGroup : Particle → Bool
  | element _ _ _ => false
  | wildcard _ _ => false
  | group _ members _ _ => allEmptyGroups members

def allEmptyGroups : List Particle → Bool
  | [] => true
  | p :: ps => p.isEmptyGroup && allEmptyGroups ps

end

mutual

/-- How deep the groups nest that have to be looked into to tell whether the particle is an empty group. -/
def emptinessDepth : Particle → Nat
  | element _ _ _ => 0
  | wildcard _ _ => 0
  | group _ members _ _ => emptinessDepthOfAll members + 1

/-- Nothing is looked at behind a member that is no empty group. -/
def emptinessDepthOfAll : List Particle → Nat
  | [] => 0
  | p :: ps => max p.emptinessDepth (if p.isEmptyGroup then emptinessDepthOfAll ps else 0)

end

end Particle

end XmlSchema
