import XmlSchema.Name
import XmlSchema.Pattern.Matching
import XmlSchema.Text.WhiteSpace
import XmlSchema.Value.Basic

/-!
Simple types: the primitives, restrictions of other types, lists and unions, each with the facets that its own step
declares. Variety and primitive of a restriction are those of its base.
-/

namespace XmlSchema

/-- A value in its lexical form and as read. -/
structure Literal where
  lexical : Text
  value : Value

/-- The facets of one step. Patterns of one step are alternatives. Nothing counts below zero, so a negative count as a
maximum admits nothing. -/
structure Facets where
  patterns : List Pattern := []
  enumeration : Option (List Literal) := none
  length : Option Int := none
  minLength : Option Int := none
  maxLength : Option Int := none
  minInclusive : Option Literal := none
  maxInclusive : Option Literal := none
  minExclusive : Option Literal := none
  maxExclusive : Option Literal := none
  totalDigits : Option Int := none
  fractionDigits : Option Int := none
  whiteSpace : Option WhiteSpace := none

inductive Variety where
  | atomic
  | list
  | union
deriving DecidableEq

def Variety.name : Variety → Text
  | atomic => "atomic"
  | list => "list"
  | union => "union"

inductive SimpleType where
  | primitive (p : Primitive)
  | restriction (name : Option Name) (base : SimpleType) (facets : Facets)
  /-- A list without an item type checks no item. -/
  | list (name : Option Name) (item : Option SimpleType) (facets : Facets)
  | union (name : Option Name) (members : List SimpleType) (facets : Facets)

namespace SimpleType

instance : Inhabited SimpleType := ⟨primitive .anySimpleType⟩

def anySimple : SimpleType := primitive .anySimpleType

def name? : SimpleType → Option Name
  | primitive p => some ⟨Namespace.schema, p.name⟩
  | restriction name _ _ => name
  | list name _ _ => name
  | union name _ _ => name

def withName (name : Option Name) : SimpleType → SimpleType
  | primitive p => primitive p
  | restriction _ base facets => restriction name base facets
  | list _ item facets => list name item facets
  | union _ members facets => union name members facets

def base? : SimpleType → Option SimpleType
  | primitive .anySimpleType => none
  | primitive _ => some anySimple
  | restriction _ base _ => some base
  | list _ _ _ => none
  | union _ _ _ => none

/-- Texts keep their white space; every other primitive leaves the facet open. -/
def facets : SimpleType → Facets
  | primitive .string => { whiteSpace := some .preserve }
  | primitive _ => {}
  | restriction _ _ facets => facets
  | list _ _ facets => facets
  | union _ _ facets => facets

def variety : SimpleType → Variety
  | primitive _ => .atomic
  | restriction _ base _ => base.variety
  | list _ _ _ => .list
  | union _ _ _ => .union

/-- The primitive whose lexical forms and values an atomic type has. -/
def primitiveOf : SimpleType → Primitive
  | primitive p => p
  | restriction _ base _ => base.primitiveOf
  | list _ _ _ => .anySimpleType
  | union _ _ _ => .anySimpleType

def item? : SimpleType → Option SimpleType
  | list _ item _ => item
  | _ => none

def members : SimpleType → List SimpleType
  | union _ members _ => members
  | _ => []

/-- The type's bases and the type itself, the most basic first. -/
def chain : SimpleType → List SimpleType
  | restriction name base facets => chain base ++ [restriction name base facets]
  | primitive p => if p = .anySimpleType then [primitive p] else [anySimple, primitive p]
  | t => [t]

/-- The white space treatment of an atomic type: that of the nearest step that declares one. -/
def declaredWhiteSpace? : SimpleType → Option WhiteSpace
  | primitive p => (primitive p).facets.whiteSpace
  | restriction _ base facets => facets.whiteSpace <|> base.declaredWhiteSpace?
  | _ => none

/-- Lists and unions always collapse white space, as do all atomic types but texts that say nothing else. -/
def whiteSpace (t : SimpleType) : WhiteSpace :=
  if t.variety = .atomic then t.declaredWhiteSpace?.getD .collapse else .collapse

def label (t : SimpleType) : Text :=
  match t.name? with
  | some name => name.localPart
  | none => "anonymous " ++ t.primitiveOf.name

/-- How a check calls the type: by its name, else by its primitive or its variety. -/
def description (t : SimpleType) : Text :=
  match t.name? with
  | some name => name.localPart
  | none => if t.variety = .atomic then t.primitiveOf.name else t.variety.name ++ " value"

/-- Whether the named type `ancestor` is the type or one of its bases. -/
def derivesFrom (t : SimpleType) (ancestor : Name) : Bool := t.chain.any (·.name? = some ancestor)

end SimpleType

end XmlSchema
