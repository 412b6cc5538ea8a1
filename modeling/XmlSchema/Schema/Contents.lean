import XmlSchema.Schema.SimpleTypes

/-!
Reading of attributes, content models and complex types. Local elements are not read here but left for later, since
their types may refer to anything; neither they nor the attributes that are referred to make a component wait.
-/

namespace XmlSchema.Schema

/-- What an attribute group stands for. -/
structure AttributeSet where
  uses : List AttributeUse := []
  wildcard : Option Wildcard := none

/-- What a definition stands for. A named group is the group particle in it. -/
inductive Component where
  | type (type : TypeDefinition)
  | group (compositor : Compositor) (members : List Particle)
  | attributeGroup (set : AttributeSet)

/-- An element whose type is still to be read; `declaration` tells all but the type. -/
structure PendingElement where
  key : ElementKey
  owner : DefinitionKey
  item : Item
  declaration : ElementDeclaration

/-- What can be referred to while a component is read: the definitions, the global attributes by their items, and the
names of the global elements. -/
structure Scope where
  targetNamespace : Text
  elementsQualified : Bool
  attributesQualified : Bool
  definition? : DefinitionKey → Build (Option Component)
  attributes : List (Name × Item)
  elements : List Name

namespace Scope

def type? (s : Scope) (name : Name) : Build (Option TypeDefinition) := do
  match ← s.definition? ⟨.type, name⟩ with
  | some (.type t) => return some t
  | _ => return none

end Scope

/-- What reading leaves behind: local elements to be read and global attributes that were referred to, both last
first. -/
structure Traces where
  elements : List PendingElement := []
  attributes : List Name := []

abbrev Reading (α : Type) := StateT Traces (Except SchemaError) α

/-- The namespace of a local declaration, which its form tells or the schema for all. -/
def localNamespace (s : Scope) (i : Item) (qualified : Bool) : Text :=
  match i.getFull? "form" with
  | some form => if form = "qualified" then s.targetNamespace else []
  | none => if qualified then s.targetNamespace else []

/-! ### Attributes -/

/-- Values set for a declaration have to be values of its type. -/
def checkConstraints (i : Item) (type : SimpleType) (default fixed : Option Text) : Build Unit := do
  for (key, value) in [(("default" : Text), default), ("fixed", fixed)] do
    if let some value := value then
      let problems := type.check value
      if problems.any (·.isOverflow) then throw .overflow
      if let some problem := problems.head? then i.fail (.invalidConstraint key problem.message)

def attributeType (s : Scope) (i : Item) : Build SimpleType := do
  let inline := (← i.inner).filter (·.is "simpleType")
  match i.getFull? "type", inline with
  | some _, _ :: _ => i.fail .attributeTypeTwice
  | some type, [] => simpleTypeReference s.type? i (← i.expandName type)
  | none, first :: _ => readSimpleType s.type? none first
  | none, [] => return .anySimple

/-- The declaration of a global attribute that is referred to at the item `referrer`. The attributes of the namespace
of markup need no declaration. -/
def globalAttribute (s : Scope) (referrer : Nat) (name : Name) : Build AttributeDeclaration := do
  if name.uri = Namespace.xml then return { name, type := .anySimple }
  match s.attributes.lookup name with
  | none => .error (.malformed referrer (.unknownAttribute name.localPart))
  | some i =>
    let type ← attributeType s i
    let default := i.get? "default"
    let fixed := i.get? "fixed"
    checkConstraints i type default fixed
    return { name, type, default, fixed }

def readAttributeUse (s : Scope) (i : Item) : Reading AttributeUse := do
  let useName := Text.trim ((i.getFull? "use").getD "optional")
  let some use := Use.ofName? useName | i.fail (.invalidUse useName)
  let default := i.get? "default"
  let fixed := i.get? "fixed"
  if default.isSome && fixed.isSome then i.fail .attributeDefaultAndFixed
  if default.isSome && use ≠ .optional then i.fail .defaultNotOptional
  if let some ref := i.getFull? "ref" then
    let name ← i.expandName ref
    let declaration ← globalAttribute s i.line name
    modify fun t => { t with attributes := name :: t.attributes }
    return { declaration, use, default, fixed }
  let some name := i.getFull? "name" | i.fail .unnamedAttribute
  let type ← attributeType s i
  checkConstraints i type default fixed
  let name : Name := ⟨localNamespace s i s.attributesQualified, Text.trim name⟩
  return { declaration := { name, type, default, fixed }, use }

def readWildcard (s : Scope) (i : Item) : Build Wildcard := do
  let strictnessName := Text.trim ((i.getFull? "processContents").getD "strict")
  let some strictness := Strictness.ofName? strictnessName | i.fail (.invalidStrictness strictnessName)
  let tokens := Text.words ((i.getFull? "namespace").getD "##any")
  if tokens = [Text.ofString "##any"] then return ⟨.any, strictness⟩
  if tokens = [Text.ofString "##other"] then return ⟨.outside [s.targetNamespace], strictness⟩
  let namespaces ← tokens.mapM fun (token : Text) =>
    if token = "##targetNamespace" then pure s.targetNamespace
    else if token = "##local" then pure []
    else if Text.startsWith token "##" then i.fail (.invalidNamespace token)
    else pure token
  return ⟨.within namespaces.eraseDups, strictness⟩

/-- The attributes read so far, and the names of those that stand here and not in a group. -/
structure AttributeReading where
  set : AttributeSet := {}
  own : List Name := []

/-- Reads one attribute, group of attributes or wildcard inside an item of kind `parent`. -/
def readAttributeItem (s : Scope) (parent : Text) (r : AttributeReading) (i : Item) : Reading AttributeReading := do
  if r.set.wildcard.isSome && !i.is "anyAttribute" then i.fail .attributeAfterWildcard
  if i.is "attribute" then
    let use ← readAttributeUse s i
    if r.own.contains use.name then i.fail (.repeatedAttribute use.name.localPart)
    return { set := { r.set with uses := AttributeUse.insert use r.set.uses }, own := use.name :: r.own }
  else if i.is "attributeGroup" then
    let some ref := i.getFull? "ref" | i.fail .unreferencedAttributeGroup
    let name ← i.expandName ref
    match ← s.definition? ⟨.attributeGroup, name⟩ with
    | some (.attributeGroup group) =>
      return { r with set := { uses := AttributeUse.insertAll group.uses r.set.uses
                               wildcard := r.set.wildcard <|> group.wildcard } }
    | _ => i.fail (.unknownAttributeGroup name.localPart)
  else if i.is "anyAttribute" then return { r with set := { r.set with wildcard := some (← readWildcard s i) } }
  else i.fail (.unexpectedInside i.kind parent)

def readAttributes (s : Scope) (parent : Text) (items : List Item) : Reading AttributeSet := do
  return (← items.foldlM (readAttributeItem s parent) {}).set

/-! ### Content models -/

def occurs (i : Item) : Build Occurs :=
  let rawMin := Text.trim ((i.getFull? "minOccurs").getD "1")
  let rawMax := Text.trim ((i.getFull? "maxOccurs").getD "1")
  let max? : Option (Option Int) := if rawMax = "unbounded" then some none else (Text.toInt? rawMax).map some
  match Text.toInt? rawMin, max? with
  | some min, some none => if 0 ≤ min then .ok ⟨min.toNat, none⟩ else i.fail (.invalidOccurs rawMin rawMax)
  | some min, some (some max) =>
    if 0 ≤ min && min ≤ max then .ok ⟨min.toNat, some max.toNat⟩ else i.fail (.invalidOccurs rawMin rawMax)
  | _, _ => i.fail (.invalidOccurs rawMin rawMax)

def particleKinds : List Text := ["element", "group", "sequence", "choice", "all", "any"]

def attributeKinds : List Text := ["attribute", "attributeGroup", "anyAttribute"]

def compositor? (kind : Text) : Option Compositor :=
  [Compositor.sequence, .choice, .all].find? fun c => c.name = kind

def readLocalElement (s : Scope) (owner : DefinitionKey) (i : Item) : Reading (Name × ElementKey) := do
  let some name := i.getFull? "name" | i.fail .unnamedElement
  let name : Name := ⟨localNamespace s i s.elementsQualified, Text.trim name⟩
  let key := ElementKey.inside owner i.path
  let isNillable ← i.flag "nillable"
  let declaration : ElementDeclaration :=
    { name, type := .complex .anyType, isNillable, default := i.get? "default", fixed := i.get? "fixed" }
  modify fun t => { t with elements := ⟨key, owner, i, declaration⟩ :: t.elements }
  return (name, key)

def readElementParticle (s : Scope) (owner : DefinitionKey) (occurs : Occurs) (i : Item) : Reading Particle := do
  match i.getFull? "ref" with
  | some ref =>
    let name ← i.expandName ref
    if s.elements.contains name then return .element name .named occurs
    else i.fail (.unknownElement name.localPart)
  | none =>
    let (name, key) ← readLocalElement s owner i
    return .element name key occurs

def readGroupReference (s : Scope) (occurs : Occurs) (i : Item) : Reading Particle := do
  let some ref := i.getFull? "ref" | i.fail .unreferencedGroup
  let name ← i.expandName ref
  match ← s.definition? ⟨.group, name⟩ with
  | some (.group compositor members) => return .group compositor members occurs (some name)
  | _ => i.fail (.unknownGroup name.localPart)

mutual

/-- Reads a particle. One that may not occur is none. -/
def readParticle (s : Scope) (owner : DefinitionKey) : Item → Reading (Option Particle)
  | .mk tag path foreign inner => do
    let i := Item.mk tag path foreign inner
    if !i.isAmong particleKinds then i.fail (.unexpectedParticle i.kind)
    let occurs ← occurs i
    if occurs.max = some 0 then return none
    if i.is "element" then return some (← readElementParticle s owner occurs i)
    if i.is "any" then return some (.wildcard (← readWildcard s i) occurs)
    match compositor? i.kind with
    | none => return some (← readGroupReference s occurs i)
    | some compositor =>
      let _ ← i.inner
      let members ← readMembers s owner compositor [] inner
      if compositor = .all && !(occurs.max = some 1 && occurs.min ≤ 1) then i.fail .allOccurs
      return some (.group compositor members occurs none)

/-- Reads the members of a group behind those read so far, the last one first. A group in any order holds only
elements, and each at most once. -/
def readMembers (s : Scope) (owner : DefinitionKey) (compositor : Compositor) (read : List Particle) :
    List Item → Reading (List Particle)
  | [] => return read.reverse
  | i :: later => do
    if compositor = .all && !i.is "element" then i.fail .allMemberKind
    match ← readParticle s owner i with
    | none => readMembers s owner compositor read later
    | some p =>
      if compositor = .all && p.occurs.max ≠ some 1 then i.fail .allMemberOccurs
      readMembers s owner compositor (p :: read) later

end

def readGroup (s : Scope) (owner : DefinitionKey) (i : Item) : Reading Component := do
  match ← i.inner with
  | [body] =>
    if (compositor? body.kind).isNone then i.fail .groupBody
    if (body.get? "minOccurs").isSome || (body.get? "maxOccurs").isSome then body.fail .groupOccurs
    match ← readParticle s owner body with
    | some (.group compositor members _ _) => return .group compositor members
    | _ => i.fail .groupBody
  | _ => i.fail .groupBody

/-- The content model that items begin with, and the items behind it. -/
def readModel (s : Scope) (owner : DefinitionKey) (items : List Item) : Reading (Option Particle × List Item) := do
  match items with
  | [] => return (none, [])
  | first :: later =>
    if first.isAmong ["sequence", "choice", "all", "group"] then return (← readParticle s owner first, later)
    else return (none, items)

/-! ### Complex types -/

/-- How deep groups may nest where they are looked into for elements and wildcards. -/
def maxModelDepth : Nat := 330

/-- A model, if it has elements or wildcards in it. -/
def nonEmptyModel (model : Option Particle) : Build (Option Particle) :=
  if model.any (maxModelDepth < ·.emptinessDepth) then .error .tooDeep
  else .ok (model.filter (!·.isEmptyGroup))

/-- The content of a model; a model without elements and wildcards allows none. -/
def contentOfModel (model : Option Particle) (mixed : Bool) : Build ContentType := do
  match ← nonEmptyModel model with
  | some model => return if mixed then .mixed model else .elementOnly model
  | none => return if mixed then .mixed .emptySequence else .empty

/-- A derivation from a named type. -/
structure Derivation where
  body : Item
  isExtension : Bool
  base : TypeDefinition

def readDerivation (s : Scope) (i : Item) : Build Derivation := do
  match ← i.inner with
  | [body] =>
    if !body.isAmong ["extension", "restriction"] then i.fail (.derivationBody i.kind)
    let some base := body.getFull? "base" | body.fail (.baselessDerivation body.kind)
    return { body, isExtension := body.is "extension"
             base := ← typeReference s.type? body (← body.expandName base) }
  | _ => i.fail (.derivationBody i.kind)

/-- What a complex type derives from others is put together with what it declares: its attributes in the place of those
of the same name, and its wildcard, if it has one. -/
def derive (name : Option Name) (isAbstract : Bool) (base : TypeDefinition) (content : ContentType)
    (inherited own : AttributeSet) : ComplexType :=
  { name, bases := base.lineage, content, isAbstract
    attributes := AttributeUse.insertAll own.uses inherited.uses
    wildcard := own.wildcard <|> inherited.wildcard }

/-- The simple type that an extension of simple content keeps, and the attributes that it takes over. -/
def extensionBase (d : Derivation) : Build (SimpleType × AttributeSet) :=
  match d.base with
  | .simple t => .ok (t, {})
  | .complex t =>
    match t.content with
    | .simple type => .ok (type, ⟨t.attributes, t.wildcard⟩)
    | _ => d.body.fail (.noSimpleContent d.base.label)

/-- The simple type that a restriction of simple content starts from, and the attributes that it takes over. -/
def restrictionBase (d : Derivation) : Build (SimpleType × AttributeSet) :=
  match d.base with
  | .simple _ => d.body.fail .simpleContentBase
  | .complex t =>
    match t.content with
    | .simple type => .ok (type, ⟨t.attributes, none⟩)
    | _ => d.body.fail .simpleContentBase

/-- A restriction may begin with a type to start from instead; what follows it comes too. -/
def restrictedType (s : Scope) (base : SimpleType) : List Item → Build (SimpleType × List Item)
  | [] => .ok (base, [])
  | first :: later =>
    if first.is "simpleType" then do return (← readSimpleType s.type? none first, later) else .ok (base, first :: later)

def readSimpleContent (s : Scope) (name : Option Name) (isAbstract : Bool) (i : Item) : Reading ComplexType := do
  let d ← readDerivation s i
  let parts ← d.body.inner
  if d.isExtension then
    let (type, inherited) ← extensionBase d
    return derive name isAbstract d.base (.simple type) inherited (← readAttributes s d.body.kind parts)
  else
    let (base, inherited) ← restrictionBase d
    let (base, parts) ← restrictedType s base parts
    let facets ← readFacets base (parts.filter fun p => !p.isAmong attributeKinds)
    let own ← readAttributes s d.body.kind (parts.filter fun p => p.isAmong attributeKinds)
    return derive name isAbstract d.base (.simple (.restriction none base facets)) inherited own

def contentMixed (i : Item) (mixed : Bool) : Build Bool :=
  if (i.get? "mixed").isSome then i.flag "mixed" else .ok mixed

/-- The model of an extension: what the base has comes first. -/
def extendModel : Option Particle → Option Particle → Option Particle
  | some first, some second => some (.group .sequence [first, second] {} none)
  | some first, none => some first
  | none, model => model

def readComplexContent (s : Scope) (owner : DefinitionKey) (name : Option Name) (isAbstract mixed : Bool) (i : Item) :
    Reading ComplexType := do
  let d ← readDerivation s i
  match d.base with
  | .simple t => d.body.fail (.complexContentBase t.label)
  | .complex base =>
    let mixed ← contentMixed i mixed
    let (model, rest) ← readModel s owner (← d.body.inner)
    if d.isExtension then
      let inherited ← nonEmptyModel base.content.model?
      let content ← contentOfModel (extendModel inherited model) (mixed || base.content.isMixed)
      return derive name isAbstract d.base content ⟨base.attributes, base.wildcard⟩
        (← readAttributes s d.body.kind rest)
    else
      let content ← contentOfModel model mixed
      return derive name isAbstract d.base content ⟨base.attributes, none⟩ (← readAttributes s d.body.kind rest)

/-- Reads a complex type that is not derived from a named one. -/
def readDeclaredType (s : Scope) (owner : DefinitionKey) (name : Option Name) (isAbstract mixed : Bool) (i : Item)
    (items : List Item) : Reading ComplexType := do
  let (model, rest) ← readModel s owner items
  let content ← contentOfModel model mixed
  return derive name isAbstract (.complex .anyType) content {} (← readAttributes s i.kind rest)

def readComplexType (s : Scope) (owner : DefinitionKey) (name : Option Name) (i : Item) : Reading ComplexType := do
  let isAbstract ← i.flag "abstract"
  let mixed ← i.flag "mixed"
  let items ← i.inner
  match items with
  | [] => readDeclaredType s owner name isAbstract mixed i []
  | first :: later =>
    if first.is "simpleContent" then readSimpleContent s name isAbstract first
    else if first.is "complexContent" then readComplexContent s owner name isAbstract mixed first
    else readDeclaredType s owner name isAbstract mixed i (first :: later)

end XmlSchema.Schema
