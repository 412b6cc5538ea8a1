import XmlSchema.Schema.Basic
import XmlSchema.SimpleType.Builtin
import XmlSchema.Text.Blank
import XmlSchema.Validation.Violation
import XmlSchema.Xml.Node

/-!
Checking of one element against its declaration, apart from the elements in it: its type, its attributes, its text.
-/

namespace XmlSchema.Validation

def typeAttribute : Name := ⟨Namespace.schemaInstance, "type"⟩

def nilAttribute : Name := ⟨Namespace.schemaInstance, "nil"⟩

/-! ### The type -/

/-- The namespace that the written name of a type refers to. -/
def typeNamespace? (tag : Xml.Tag) : Option Text → Option Text
  | none => some ((tag.namespace? []).getD [])
  | some lead => if lead.isEmpty then none else tag.namespace? lead

/-- The named type of the schema, or the built-in type of that name. The type of anything is known only where it is
declared. -/
def namedType? (s : Schema) (declaresAny : Bool) (name : Name) : Option TypeDefinition :=
  if name.uri = Namespace.schema then
    if name = ComplexType.anyTypeName then if declaresAny then some (.complex .anyType) else none
    else (SimpleType.builtin? name.localPart).map .simple
  else s.types.lookup name

/-- The type that an element has: its declared type, or the type that it names itself, if that derives from the
declared one. -/
def instanceType (s : Schema) (tag : Xml.Tag) (element : Text) (declared : TypeDefinition) :
    TypeDefinition × List Violation :=
  match tag.attributes.lookup typeAttribute with
  | none => (declared, [])
  | some raw =>
    let value := Text.trim raw
    let (lead, localPart) := match Text.splitLast? ':' value with
      | some (lead, localPart) => (some lead, localPart)
      | none => (none, value)
    match typeNamespace? tag lead with
    | none => (declared, [.undeclaredTypePrefix raw])
    | some uri =>
      let declaresAny := declared.name? = some ComplexType.anyTypeName
      match namedType? s declaresAny ⟨uri, localPart⟩ with
      | none => (declared, [.unknownType raw element])
      | some found =>
        if declaresAny || declared.name?.any found.derivesFrom then (found, [])
        else (declared, [.unrelatedType raw element declared.label])

/-! ### Nil -/

/-- Whether an element is nil; only one that may be nil can be. -/
def nilled (tag : Xml.Tag) (d : ElementDeclaration) : Bool × List Violation :=
  match tag.attributes.lookup nilAttribute with
  | none => (false, [])
  | some raw =>
    let value := Text.trim raw
    let yes := value = "true" || value = "1"
    if !yes && !(value = "false" || value = "0") then (false, [.invalidNil raw])
    else if !d.isNillable then (false, [.notNillable d.name.localPart])
    else (yes, [])

/-! ### Attributes -/

/-- A violation at an attribute, if a name is given, or else at the element. -/
abbrev AttributeViolation := Option Text × Violation

def checkAttributeValue (name value : Text) (type : SimpleType) (fixed : Option Text) : List Violation :=
  (type.check value).map (.attributeValue name) ++
    match fixed with
    | some fixed =>
      match type.sameValue? value fixed with
      | some true => []
      | some false => [.fixedAttribute name fixed]
      | none => [.attributeValue name (.overflow fixed)]
    | none => []

/-- Checks an attribute that no use allows against the wildcard of the type. -/
def checkOtherAttribute (s : Schema) (wildcard : Option Wildcard) (element : Text) (name : Name) (value : Text) :
    List Violation :=
  match wildcard.filter (·.allows name.uri) with
  | none => [.forbiddenAttribute name.localPart element]
  | some w =>
    if w.strictness ≠ .strict || name.uri = Namespace.xml then []
    else match s.attributes.lookup name with
      | some a => checkAttributeValue name.localPart value a.type a.fixed
      | none => [.undeclaredAttribute name.localPart element]

def checkAttribute (s : Schema) (t : ComplexType) (element : Text) (name : Name) (value : Text) : List Violation :=
  if name.uri = Namespace.schemaInstance then []
  else match t.attributes.find? fun u => u.name = name with
    | some u =>
      if u.use = .prohibited then [.prohibitedAttribute name.localPart element]
      else checkAttributeValue name.localPart value u.declaration.type u.fixedValue?
    | none => checkOtherAttribute s t.wildcard element name value

/-- The violations at the attributes of an element of complex type. An attribute of the schema instance namespace speaks
about the element and is no attribute of its type. -/
def checkAttributes (s : Schema) (t : ComplexType) (element : Text) (tag : Xml.Tag) : List AttributeViolation :=
  (tag.attributes.flatMap fun (name, value) =>
    (checkAttribute s t element name value).map (some name.localPart, ·)) ++
  ((t.attributes.filter fun u =>
    u.use = .required && !tag.attributes.any fun (name, _) =>
      name = u.name && name.uri ≠ Namespace.schemaInstance).map fun u =>
    (none, .missingAttribute u.name.localPart element))

/-- The violations at the attributes of an element of simple type, which has none. -/
def refuseAttributes (element : Text) (tag : Xml.Tag) : List AttributeViolation :=
  (tag.attributes.filter fun (name, _) => name.uri ≠ Namespace.schemaInstance).map fun (name, _) =>
    (some name.localPart, .forbiddenAttribute name.localPart element)

/-! ### Text -/

/-- The value of an element with this text; an empty element has the value that its declaration sets. -/
def valueOf (d : ElementDeclaration) (text : Text) : Text :=
  if text.isEmpty then (d.fixed <|> d.default).getD [] else text

/-- The violations of the text of an element without elements in it. -/
def checkText (d : ElementDeclaration) (t : SimpleType) (text : Text) : List Violation :=
  let element := d.name.localPart
  let value := valueOf d text
  (t.check value).map (.elementValue element) ++
    match d.fixed with
    | some fixed =>
      match t.sameValue? value fixed with
      | some true => []
      | some false => [.fixedValue element fixed]
      | none => [.elementValue element (.overflow fixed)]
    | none => []

/-- The violations of text among the elements of a complex type: only mixed content may hold text, and a fixed value is
then compared as it is. -/
def checkStrayText (d : ElementDeclaration) (content : ContentType) (hasChildren : Bool) (text : Text) :
    List Violation :=
  let element := d.name.localPart
  let stray := Text.trim text
  match content with
  | .empty => if stray.isEmpty then [] else [.textInEmpty element stray]
  | .elementOnly _ => if stray.isEmpty then [] else [.textAmongElements element stray]
  | .mixed _ =>
    match d.fixed with
    | some fixed => if !hasChildren && !text.isEmpty && text ≠ fixed then [.fixedValue element fixed] else []
    | none => []
  | .simple _ => []

end XmlSchema.Validation
