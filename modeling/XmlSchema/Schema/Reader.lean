import XmlSchema.DependencyGraph
import XmlSchema.Schema.Elements
import XmlSchema.Xml.Document

/-!
Reading of a schema from its document. Definitions may stand in any order: first all are registered, with what they
refer to; circular ones are refused, and the others are read, each after those that it refers to; elements come last.
-/

namespace XmlSchema.Schema

structure Definition where
  key : DefinitionKey
  item : Item
  content : List Xml.Node

/-- What stands at the top of a schema, each list with the last one first. -/
structure Registry where
  definitions : List Definition := []
  elements : List PendingElement := []
  attributes : List (Name × Item) := []
  warnings : List Text := []

/-- Other documents are not looked at. -/
def ignoredKinds : List Text := ["include", "import", "redefine", "override"]

def ignoredWarning (i : Item) : Text :=
  "Ignoring xs:" ++ i.kind ++ " (schemaLocation=" ++ (i.get? "schemaLocation").getD "None" ++
    "): pasted schemas are self-contained"

namespace Registry

def define (r : Registry) (key : DefinitionKey) (what name : Text) (i : Item) (content : List Xml.Node) :
    Build Registry :=
  if r.definitions.any (·.key = key) then i.fail (.repeatedDefinition what name)
  else .ok { r with definitions := ⟨key, i, content⟩ :: r.definitions }

def declareElement (r : Registry) (name : Name) (rawName : Text) (i : Item) : Build Registry := do
  if r.elements.any (·.declaration.name = name) then i.fail (.repeatedDefinition "global element" rawName)
  let isNillable ← i.flag "nillable"
  let isAbstract ← i.flag "abstract"
  let head ← match i.getFull? "substitutionGroup" with
    | some head => do
      let head ← i.expandName head
      pure (some head)
    | none => pure none
  let declaration : ElementDeclaration :=
    { name, type := .complex .anyType, isNillable, isAbstract, default := i.get? "default", fixed := i.get? "fixed"
      head }
  return { r with elements := ⟨.named, ⟨.element, name⟩, i, declaration⟩ :: r.elements }

def add (targetNamespace : Text) (r : Registry) (i : Item) (content : List Xml.Node) : Build Registry := do
  if i.isAmong ignoredKinds then return { r with warnings := ignoredWarning i :: r.warnings }
  if i.is "notation" then return r
  let some rawName := i.getFull? "name" | i.fail (.unnamedDefinition i.kind)
  let name : Name := ⟨targetNamespace, Text.trim rawName⟩
  if i.is "element" then r.declareElement name rawName i
  else if i.is "attribute" then
    if (r.attributes.lookup name).isSome then i.fail (.repeatedDefinition "global attribute" rawName)
    else return { r with attributes := (name, i) :: r.attributes }
  else if i.is "complexType" then
    let r ← r.define ⟨.type, name⟩ "global type" rawName i content
    let _ ← i.flag "abstract"
    return r
  else if i.is "simpleType" then r.define ⟨.type, name⟩ "global type" rawName i content
  else if i.is "group" then r.define ⟨.group, name⟩ "xs:group" rawName i content
  else if i.is "attributeGroup" then r.define ⟨.attributeGroup, name⟩ "xs:attributeGroup" rawName i content
  else i.fail (.unexpectedDefinition i.kind)

def explains (e : Xml.Element) : Bool := e.name.localPart = "annotation"

def ofRoot (root : Xml.Element) : Build Registry := do
  let targetNamespace := (root.tag.attribute? "targetNamespace").getD []
  for child in root.children do
    if child.name.uri ≠ Namespace.schema || !child.name.isProper then
      throw (foreignError child.name child.tag.line root.name.localPart)
  let r ← (root.children.filter (!explains ·)).foldlM
    (fun (r : Registry) e => r.add targetNamespace (Item.ofTag e.tag e.content) e.content) {}
  return { definitions := r.definitions.reverse, elements := r.elements.reverse
           attributes := r.attributes.reverse, warnings := r.warnings.reverse }

/-- The definitions, each with those that it refers to. References to what is not defined here are left out. -/
def graph (r : Registry) : Build (DependencyGraph DefinitionKey) := do
  let keys := r.definitions.map (·.key)
  let g := keys.foldl DependencyGraph.add .empty
  r.definitions.foldlM (fun g d => do
    return ((← references d.content).filter keys.contains).foldl (fun g k => g.require d.key k) g) g

def item? (r : Registry) (key : DefinitionKey) : Option Item := (r.definitions.find? (·.key = key)).map (·.item)

def order (r : Registry) (line : Nat) : Build (List DefinitionKey) := do
  let g ← r.graph
  match g.cycle? with
  | none => return g.order?.getD []
  | some cycle =>
    let line := ((cycle.head?.bind r.item?).map Item.line).getD line
    throw (.malformed line (.circularDefinitions cycle))

end Registry

/-! ### Definitions -/

def readDefinition (s : Scope) (key : DefinitionKey) (i : Item) : Reading Component := do
  match key.kind with
  | .type =>
    if i.is "complexType" then return .type (.complex (← readComplexType s key (some key.name) i))
    else return .type (.simple (← readSimpleType s.type? (some key.name) i))
  | .group => readGroup s key i
  | .attributeGroup => return .attributeGroup (← readAttributes s i.kind (← i.inner))
  | .element => i.fail (.unexpectedDefinition i.kind)

/-- Finds what a definition stands for among those read, or else reads it. Definitions that are being read, in `open_`,
must not be needed; at most `depth` others are. -/
def findDefinition (r : Registry) (s : Scope) (read : List (DefinitionKey × Component)) :
    (depth : Nat) → (opened : List DefinitionKey) → DefinitionKey → Build (Option Component)
  | 0, _, _ => .ok none
  | depth + 1, opened, key =>
    match read.lookup key, r.item? key with
    | some c, _ => .ok (some c)
    | none, none => .ok none
    | none, some i => do
      if opened.contains key then i.fail (.circularDefinition key)
      let (c, _) ← (readDefinition { s with definition? := findDefinition r s read depth (key :: opened) } key i).run {}
      return some c

/-- The scope in which a definition is read, or the elements when none is. -/
def scopeOf (r : Registry) (s : Scope) (read : List (DefinitionKey × Component)) (opened : List DefinitionKey) :
    Scope :=
  { s with definition? := findDefinition r s read (r.definitions.length + 1) opened }

def readDefinitions (r : Registry) (s : Scope) :
    (read : List (DefinitionKey × Component)) → List DefinitionKey → Reading (List (DefinitionKey × Component))
  | read, [] => return read
  | read, key :: later => do
    match r.item? key with
    | none => readDefinitions r s read later
    | some i =>
      let c ← readDefinition (scopeOf r s read [key]) key i
      readDefinitions r s ((key, c) :: read) later

/-! ### Schemas -/

/-- The types that the definitions read stand for, in the order of declaration. -/
def namedTypes (r : Registry) (read : List (DefinitionKey × Component)) : List (Name × TypeDefinition) :=
  r.definitions.filterMap fun d =>
    match read.lookup d.key with
    | some (.type t) => some (d.key.name, t)
    | _ => none

/-- Puts the types that were read into the declarations of elements. -/
def elementTables (sub : Substitution) (read : List ReadElement) :
    List (Name × ElementDeclaration) × List (ElementKey × ElementDeclaration) :=
  let isGlobal (e : ReadElement) : Bool := e.pending.key = .named
  let own := read.filterMap fun e =>
    if isGlobal e then e.type.map (e.pending.declaration.name, ·) else none
  let finish (e : ReadElement) : ElementDeclaration :=
    let heads := if isGlobal e then (sub.heads.lookup e.pending.declaration.name).getD [] else []
    { e.pending.declaration with type := inheritedType own heads e.type }
  ((read.filter isGlobal).map fun e => (e.pending.declaration.name, finish e),
    (read.filter (!isGlobal ·)).map fun e => (e.pending.key, finish e))

/-- Reads all that is registered: definitions, attributes, elements. -/
def readRegistry (r : Registry) (s : Scope) (order : List DefinitionKey) (line : Nat) :
    Reading (List (DefinitionKey × Component) × List ReadElement) := do
  let read ← readDefinitions r s [] order
  let s := scopeOf r s read []
  let _ ← r.attributes.mapM fun (name, _) => do
    let _ ← globalAttribute s line name
    modify fun t => { t with attributes := name :: t.attributes }
  let traces ← get
  set { traces with elements := [] }
  let pending := r.elements.reverse ++ traces.elements.reverse
  let elements ← readElements s (Item.heightsFrom 0 (pending.map (·.item)) + 1) pending
  return (read, elements)

def ofElement (root : Xml.Element) : Build Schema := do
  let line := root.tag.line
  if !root.name.isProper then throw .improperName
  if root.name ≠ ⟨Namespace.schema, "schema"⟩ then throw (.malformed line (.notASchema root.name))
  let targetNamespace := (root.tag.attribute? "targetNamespace").getD []
  let r ← Registry.ofRoot root
  let order ← r.order line
  let s : Scope :=
    { targetNamespace
      elementsQualified := decide (root.tag.attribute? "elementFormDefault" = some (Text.ofString "qualified"))
      attributesQualified := decide (root.tag.attribute? "attributeFormDefault" = some (Text.ofString "qualified"))
      definition? := fun _ => .ok none
      attributes := r.attributes
      elements := r.elements.map (·.declaration.name) }
  let ((read, readElements), traces) ← (readRegistry r s order line).run {}
  let sub ← substitution r.elements
  let (elements, locals) := elementTables sub readElements
  let attributes ← traces.attributes.reverse.eraseDups.mapM fun name => do
    return (name, ← globalAttribute (scopeOf r s read []) line name)
  return { targetNamespace, types := namedTypes r read, attributes, substitutions := sub.members, locals
           elements := r.elements.filterMap fun e =>
             (elements.lookup e.declaration.name).map (e.declaration.name, ·)
           warnings := r.warnings }

end XmlSchema.Schema
