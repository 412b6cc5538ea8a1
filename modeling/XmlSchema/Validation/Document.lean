import XmlSchema.Validation.Declarations
import XmlSchema.Validation.Element
import XmlSchema.Validation.Place

/-!
Validation of whole documents: every element is checked against its declaration, its children against the content model,
and each child against the declaration that the model gives it.
-/

namespace XmlSchema.Validation

/-- What ends a validation without a verdict: an improper name, a number with more digits than arithmetic allows, or
groups of a content model that nest too deep. -/
inductive Breakdown where
  | improperName
  | overflow
  | tooDeep
deriving DecidableEq

/-- What has been found so far, the last finding first, how many checkpoints have been passed, and what has ended the
validation, if anything. -/
structure Report where
  findings : List Finding := []
  checkpoints : Nat := 0
  breakdown? : Option Breakdown := none

namespace Report

def breakIf (r : Report) (happens : Bool) (cause : Breakdown) : Report :=
  if happens then { r with breakdown? := r.breakdown?.or (some cause) } else r

def addFindings (r : Report) (findings : List Finding) : Report :=
  { r with findings := findings.reverseAux r.findings }.breakIf (findings.any (·.violation.isOverflow)) .overflow

def add (r : Report) (line : Nat) (path : Text) (violations : List Violation) : Report :=
  r.addFindings (violations.map fun v => ⟨v, line, path⟩)

def addAttributes (r : Report) (line : Nat) (path : Text) (violations : List AttributeViolation) : Report :=
  r.addFindings (violations.map fun (name, v) =>
    ⟨v, line, match name with
      | some name => path ++ "/@" ++ name
      | none => path⟩)

def inspect (r : Report) (names : List Name) : Report := r.breakIf (!names.all Name.isProper) .improperName

def pass (r : Report) (checkpoints : Nat) : Report := { r with checkpoints := r.checkpoints + checkpoints }

end Report

/-- A document is checked with the rules of a schema, down to a depth. `allowance` is the number of checkpoints that may
be passed; none is a bound that is never reached. -/
structure Settings where
  schema : Schema
  maxDepth : Int
  allowance : Option Nat := none

/-- More checkpoints than allowed have been passed, or the validation has broken off: nothing more is looked at. -/
def Settings.stops (s : Settings) (r : Report) : Bool := r.breakdown?.isSome || s.allowance.any (· < r.checkpoints)

def attributeNames (tag : Xml.Tag) : List Name := tag.attributes.map fun (name, _) => name

/-- The findings about the children of an element at a depth: those out of place, and content that ends too early. -/
def checkContent (s : Settings) (element : Text) (model : Option Particle) (tag : Xml.Tag) (path : Text) (depth : Nat)
    (children : List Xml.Element) (paths : List Text) (r : Report) : Report :=
  let recovery := Content.recover s.schema.substitutes model (children.map (·.name))
  let r := r.pass (recovery.checkpoints depth)
  if s.stops r then r
  else if !recovery.fitsRoom depth then r.breakIf true .tooDeep
  else
    let children := children.toArray
    let paths := paths.toArray
    recovery.mismatches.foldl (fun r m =>
      match m.index?.bind fun i => do return (← children[i]?, ← paths[i]?) with
      | some (child, childPath) => r.add child.tag.line childPath [.children element m]
      | none => r.add tag.line path [.children element m]) r

def checkSimpleContent (d : ElementDeclaration) (t : SimpleType) (e : Xml.Element) (path : Text) (r : Report) :
    Report :=
  match e.children with
  | child :: _ =>
    (r.inspect [child.name]).add child.tag.line path [.childInText d.name.localPart child.name.localPart]
  | [] => r.add e.tag.line path (checkText d t e.text)

def checkNil (s : Settings) (d : ElementDeclaration) (type : TypeDefinition) (e : Xml.Element) (path : Text)
    (r : Report) : Report :=
  let element := d.name.localPart
  let holdsAnything := !e.children.isEmpty || !(Text.trim e.text).isEmpty
  let r := if holdsAnything then r.add e.tag.line path [.nilNotEmpty element] else r
  let r := if d.fixed.isSome then r.add e.tag.line path [.nilWithFixed element] else r
  match type with
  | .complex t =>
    (r.inspect (attributeNames e.tag)).addAttributes e.tag.line path (checkAttributes s.schema t element e.tag)
  | .simple _ => r

/-- The findings about an element that tells that it may not be there, of which type it is, or that it is nil. -/
def checkKind (s : Settings) (d : ElementDeclaration) (e : Xml.Element) (path : Text) (r : Report) : Report :=
  let element := d.name.localPart
  let r := if d.isAbstract then r.add e.tag.line path [.abstractElement element] else r
  let (type, violations) := instanceType s.schema e.tag element d.type
  let r := r.add e.tag.line path violations
  let r := match type with
    | .complex t => if t.isAbstract then r.add e.tag.line path [.abstractType element t.label] else r
    | .simple _ => r
  r.add e.tag.line path (nilled e.tag d).2

def checkSimple (d : ElementDeclaration) (t : SimpleType) (e : Xml.Element) (path : Text) (r : Report) : Report :=
  let r := (r.inspect (attributeNames e.tag)).addAttributes e.tag.line path
    (refuseAttributes d.name.localPart e.tag)
  checkSimpleContent d t e path r

/-- The findings about an element of complex type at a depth, and about its children as far as the content model
goes. -/
def checkComplex (s : Settings) (d : ElementDeclaration) (t : ComplexType) (e : Xml.Element) (path : Text) (depth : Nat)
    (r : Report) : Report :=
  let element := d.name.localPart
  let r := r.inspect (attributeNames e.tag)
  let r := r.addAttributes e.tag.line path (checkAttributes s.schema t element e.tag)
  match t.content with
  | .simple simple => checkSimpleContent d simple e path r
  | other =>
    let children := e.children
    let names := children.map (·.name)
    let r := (r.add e.tag.line path (checkStrayText d other (!children.isEmpty) e.text)).inspect names
    if s.stops r then r
    else checkContent s element other.model? e.tag path depth children (childPaths path names) r

/-- The findings about an element at a depth, apart from those about the elements in it. -/
def checkItself (s : Settings) (d : ElementDeclaration) (path : Text) (depth : Nat) (e : Xml.Element) (r : Report) :
    Report :=
  let r := r.pass 1
  let element := d.name.localPart
  if s.stops r then r
  else if s.maxDepth < depth then r.add e.tag.line path [.tooDeep element s.maxDepth]
  else
    let r := checkKind s d e path r
    let type := (instanceType s.schema e.tag element d.type).1
    if (nilled e.tag d).1 then checkNil s d type e path r
    else match type with
      | .simple t => checkSimple d t e path r
      | .complex t => checkComplex s d t e path depth r

/-- What the children of an element of complex type are matched with: no model permits none, and simple content is not
matched at all. -/
def openModel? (t : ComplexType) : Option (Option Particle) :=
  match t.content with
  | .simple _ => none
  | other => some other.model?

/-- What the children of an element are matched with. Those of an element that is nil are not matched. -/
def contentModel? (s : Schema) (d : ElementDeclaration) (tag : Xml.Tag) : Option (Option Particle) :=
  if (nilled tag d).1 then none
  else match (instanceType s tag d.name.localPart d.type).1 with
  | .simple _ => none
  | .complex t => openModel? t

mutual

/-- Checks an element against a declaration; other nodes are not looked at. -/
def checkElement (s : Settings) (d : ElementDeclaration) (path : Text) (depth : Nat) (r : Report) : Xml.Node → Report
  | .element tag content =>
    let e : Xml.Element := ⟨tag, content⟩
    let r := checkItself s d path depth e r
    if s.maxDepth < depth then r
    else match contentModel? s.schema d tag with
      | some model =>
        checkChildren s (leaves model) (depth + 1) (childPaths path (e.children.map (·.name))) r content
      | none => r
  | _ => r

/-- Checks the elements among nodes, of which `paths` are the paths, each as the leaves of the content model tell. -/
def checkChildren (s : Settings) (leaves : List Particle) (depth : Nat) (paths : List Text) (r : Report) :
    List Xml.Node → Report
  | [] => r
  | node :: later =>
    match node.toElement?, paths with
    | some e, path :: paths =>
      if s.stops r then r
      else
        let r := match treatment s.schema leaves e.name with
          | .check d => checkElement s d path depth r node
          | .undeclared => r.add e.tag.line path [.undeclaredElement e.name.localPart]
          | .ignore => r
        checkChildren s leaves depth paths r later
    | _, paths => checkChildren s leaves depth paths r later

end

/-- Checks a document from its root, behind what a report holds already. -/
def checkDocument (s : Settings) (root : Xml.Element) (r : Report) : Report :=
  let path := rootPath root.name
  let r := r.inspect [root.name]
  if s.stops r then r
  else match s.schema.element? root.name with
  | none =>
    r.add root.tag.line path
      [.unexpectedRoot root.name (s.schema.elements.map fun (name, _) => name.localPart)]
  | some d => checkElement s d path 1 r root.toNode

/-- The findings about a document, in the order in which they are found. -/
def Report.inOrder (r : Report) : List Finding := r.findings.reverse

end XmlSchema.Validation
