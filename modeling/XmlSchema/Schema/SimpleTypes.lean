import XmlSchema.Schema.Basic
import XmlSchema.Schema.Item
import XmlSchema.SimpleType.Builtin
import XmlSchema.SimpleType.Check

/-!
Reading of simple types and of the facets that restrict them.
-/

namespace XmlSchema.Schema

/-- Finds a named type of the schema; building it may fail. -/
abbrev TypeLookup := Name → Build (Option TypeDefinition)

/-- The type that a name at an item refers to; names of the schema namespace are those of built-in types. -/
def typeReference (known : TypeLookup) (i : Item) (name : Name) : Build TypeDefinition := do
  if name.uri = Namespace.schema then
    if name = ComplexType.anyTypeName then return .complex .anyType
    else match SimpleType.builtin? name.localPart with
      | some t => return .simple t
      | none => i.fail (.unknownBuiltin name.localPart)
  else match ← known name with
    | some t => return t
    | none => i.fail (.unknownType name.localPart)

def simpleTypeReference (known : TypeLookup) (i : Item) (name : Name) : Build SimpleType := do
  match ← typeReference known i name with
  | .simple t => return t
  | .complex _ => i.fail (.notSimple name.localPart)

def simpleTypeReferences (known : TypeLookup) (i : Item) (value : Text) : Build (List SimpleType) :=
  (Text.words value).mapM fun word => do simpleTypeReference known i (← i.expandName word)

/-! ### Facets -/

/-- The value of a facet, in the value space of the base; lists and unions have texts for values. -/
def facetLiteral (base : SimpleType) (i : Item) (value : Text) : Build Literal :=
  if base.variety = .atomic then
    match Value.read base.primitiveOf (base.whiteSpace.apply value) with
    | .ok v => .ok ⟨value, v⟩
    | .error .overflow => .error .overflow
    | .error _ => i.fail (.invalidFacetValue value base.primitiveOf)
  else .ok ⟨value, .text (WhiteSpace.collapse.apply value)⟩

def facetCount (base : SimpleType) (i : Item) (value : Text) : Build Int :=
  if i.isAmong ["totalDigits", "fractionDigits"] && !(base.variety = .atomic && base.primitiveOf = .decimal) then
    i.fail (.decimalFacet i.kind)
  else match Text.toInt? (Text.trim value) with
    | none => i.fail (.notACount i.kind value)
    | some n =>
      if n < 0 || (i.is "totalDigits" && n = 0) then i.fail (.countOutOfRange i.kind n) else .ok n

def facetBound (base : SimpleType) (i : Item) (value : Text) : Build Literal :=
  if base.variety = .atomic && base.primitiveOf.isOrdered then facetLiteral base i value
  else i.fail (.inapplicableFacet i.kind base.label)

def facetPattern (i : Item) (value : Text) : Build Pattern :=
  match Pattern.compile value with
  | .ok p => .ok p
  | .error (.flaw flaw) => i.fail (.invalidPattern value flaw.message)
  | .error failure => .error (.unreadPattern failure)

/-- The facets read so far; patterns and enumerated values come last first. -/
structure FacetReading where
  facets : Facets := {}
  patterns : List Pattern := []
  enumeration : List Literal := []
  seen : List Text := []

/-- Reads one facet. Only patterns and enumerated values may be given more than once. -/
def readFacet (base : SimpleType) (r : FacetReading) (i : Item) : Build FacetReading := do
  match i.get? "value" with
  | none => i.fail (.facetWithoutValue i.kind)
  | some value =>
    if i.is "pattern" then return { r with patterns := (← facetPattern i value) :: r.patterns }
    if i.is "enumeration" then return { r with enumeration := (← facetLiteral base i value) :: r.enumeration }
    if r.seen.contains i.kind then i.fail (.repeatedFacet i.kind)
    let f := r.facets
    let facets ←
      if i.is "length" then do pure { f with length := some (← facetCount base i value) }
      else if i.is "minLength" then do pure { f with minLength := some (← facetCount base i value) }
      else if i.is "maxLength" then do pure { f with maxLength := some (← facetCount base i value) }
      else if i.is "totalDigits" then do pure { f with totalDigits := some (← facetCount base i value) }
      else if i.is "fractionDigits" then do pure { f with fractionDigits := some (← facetCount base i value) }
      else if i.is "minInclusive" then do pure { f with minInclusive := some (← facetBound base i value) }
      else if i.is "maxInclusive" then do pure { f with maxInclusive := some (← facetBound base i value) }
      else if i.is "minExclusive" then do pure { f with minExclusive := some (← facetBound base i value) }
      else if i.is "maxExclusive" then do pure { f with maxExclusive := some (← facetBound base i value) }
      else if i.is "whiteSpace" then
        match WhiteSpace.ofName? (Text.trim value) with
        | some w => pure { f with whiteSpace := some w }
        | none => i.fail (.invalidWhiteSpace value)
      else i.fail (.unsupportedFacet i.kind)
    return { r with facets, seen := i.kind :: r.seen }

def FacetReading.result (r : FacetReading) : Facets :=
  { r.facets with
    patterns := r.patterns.reverse
    enumeration := if r.enumeration.isEmpty then none else some r.enumeration.reverse }

def readFacets (base : SimpleType) (items : List Item) : Build Facets := do
  return (← items.foldlM (readFacet base) {}).result

/-! ### Types -/

mutual

def readSimpleType (known : TypeLookup) (name : Option Name) : Item → Build SimpleType
  | .mk tag _ none [body] =>
    if body.isAmong ["restriction", "list", "union"] then readSimpleBody known name body
    else .error (.malformed tag.line .simpleTypeBody)
  | .mk tag path foreign inner => do
    let i := Item.mk tag path foreign inner
    let _ ← i.inner
    i.fail .simpleTypeBody

def readSimpleBody (known : TypeLookup) (name : Option Name) : Item → Build SimpleType
  | .mk tag path foreign inner => do
    let body := Item.mk tag path foreign inner
    if body.is "restriction" then
      let _ ← body.inner
      match body.getFull? "base", inner with
      | some base, _ =>
        let base ← simpleTypeReference known body (← body.expandName base)
        return .restriction name base (← readFacets base inner)
      | none, first :: facets =>
        if first.is "simpleType" then
          let base ← readSimpleType known none first
          return .restriction name base (← readFacets base facets)
        else body.fail .baselessRestriction
      | none, [] => body.fail .baselessRestriction
    else if body.is "list" then
      let named ← simpleTypeReferences known body ((body.get? "itemType").getD [])
      let _ ← body.inner
      match named ++ (← readSimpleTypes known body.kind inner) with
      | [item] => if item.variety = .list then body.fail .listOfLists else return .list name (some item) {}
      | _ => body.fail .itemTypeCount
    else
      let named ← simpleTypeReferences known body ((body.get? "memberTypes").getD [])
      let _ ← body.inner
      let members := named ++ (← readSimpleTypes known body.kind inner)
      if members.isEmpty then body.fail .memberlessUnion else return .union name members {}

/-- Reads the types inside an item of kind `parent`, where nothing else may be. -/
def readSimpleTypes (known : TypeLookup) (parent : Text) : List Item → Build (List SimpleType)
  | [] => .ok []
  | i :: later => do
    if !i.is "simpleType" then i.fail (.unexpectedInside i.kind parent)
    let type ← readSimpleType known none i
    return type :: (← readSimpleTypes known parent later)

end

end XmlSchema.Schema
