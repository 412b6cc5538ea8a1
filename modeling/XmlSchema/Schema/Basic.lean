import XmlSchema.Particle
import XmlSchema.SimpleType.Basic

/-!
The components of a schema: declarations of attributes and elements, complex types, and the tables that hold them.
Types stand in the components that use them; a local element stands for itself in content models by its place.
-/

namespace XmlSchema

structure AttributeDeclaration where
  name : Name
  type : SimpleType
  default : Option Text := none
  fixed : Option Text := none

inductive Use where
  | optional
  | required
  | prohibited
deriving DecidableEq

def Use.name : Use → Text
  | optional => "optional"
  | required => "required"
  | prohibited => "prohibited"

def Use.ofName? (t : Text) : Option Use := [Use.optional, .required, .prohibited].find? fun u => u.name = t

/-- How a complex type uses an attribute. A use may set a value for a declaration that other types share. -/
structure AttributeUse where
  declaration : AttributeDeclaration
  use : Use
  default : Option Text := none
  fixed : Option Text := none

namespace AttributeUse

def name (u : AttributeUse) : Name := u.declaration.name

/-- The value that the attribute has to have: that of the use before that of the declaration. -/
def fixedValue? (u : AttributeUse) : Option Text := u.fixed <|> u.declaration.fixed

/-- Puts a use among others: in the place of that of the same name, else behind all. -/
def insert (u : AttributeUse) : List AttributeUse → List AttributeUse
  | [] => [u]
  | v :: later => if v.name = u.name then u :: later else v :: insert u later

/-- Puts uses among others, one after the other. -/
def insertAll (uses others : List AttributeUse) : List AttributeUse := uses.foldl (fun acc u => insert u acc) others

end AttributeUse

inductive ContentType where
  | empty
  | simple (type : SimpleType)
  | elementOnly (model : Particle)
  | mixed (model : Particle)

namespace ContentType

def model? : ContentType → Option Particle
  | elementOnly model => some model
  | mixed model => some model
  | _ => none

def simpleType? : ContentType → Option SimpleType
  | simple type => some type
  | _ => none

def isMixed : ContentType → Bool
  | mixed _ => true
  | _ => false

end ContentType

/-- A complex type. `bases` are the names of the types that it derives from, the nearest first. -/
structure ComplexType where
  name : Option Name
  bases : List Name
  content : ContentType
  attributes : List AttributeUse
  wildcard : Option Wildcard
  isAbstract : Bool

namespace ComplexType

def anyTypeName : Name := ⟨Namespace.schema, "anyType"⟩

/-- The type that every other complex type restricts: any elements and attributes, checked where they are declared. -/
def anyType : ComplexType where
  name := some anyTypeName
  bases := []
  content := .mixed (.group .sequence [.wildcard ⟨.any, .lax⟩ ⟨0, none⟩] {} none)
  attributes := []
  wildcard := some ⟨.any, .lax⟩
  isAbstract := false

def label (t : ComplexType) : Text :=
  match t.name with
  | some name => name.localPart
  | none => "anonymous complex type"

end ComplexType

inductive TypeDefinition where
  | simple (type : SimpleType)
  | complex (type : ComplexType)

namespace TypeDefinition

def name? : TypeDefinition → Option Name
  | simple t => t.name?
  | complex t => t.name

def label : TypeDefinition → Text
  | simple t => t.label
  | complex t => t.label

/-- The names of the type and of those that it derives from, the nearest first. -/
def lineage : TypeDefinition → List Name
  | simple t => t.chain.reverse.filterMap SimpleType.name?
  | complex t => t.name.toList ++ t.bases

def derivesFrom (t : TypeDefinition) (ancestor : Name) : Bool := t.lineage.contains ancestor

/-- The simple type of the text of an element of this type. -/
def simpleType? : TypeDefinition → Option SimpleType
  | simple t => some t
  | complex t => t.content.simpleType?

end TypeDefinition

structure ElementDeclaration where
  name : Name
  type : TypeDefinition
  isNillable : Bool := false
  isAbstract : Bool := false
  default : Option Text := none
  fixed : Option Text := none
  head : Option Name := none

/-- A schema: its global components in the order of declaration, the elements that may stand for a head, and the local
elements by their places. -/
structure Schema where
  targetNamespace : Text
  elements : List (Name × ElementDeclaration)
  types : List (Name × TypeDefinition)
  attributes : List (Name × AttributeDeclaration)
  substitutions : List (Name × List Name)
  locals : List (ElementKey × ElementDeclaration)
  warnings : List Text

namespace Schema

def element? (s : Schema) (name : Name) : Option ElementDeclaration := s.elements.lookup name

def substitutes (s : Schema) (name : Name) : List Name := (s.substitutions.lookup name).getD []

def declaration? (s : Schema) (name : Name) : ElementKey → Option ElementDeclaration
  | .named => s.element? name
  | key => s.locals.lookup key

end Schema

end XmlSchema
