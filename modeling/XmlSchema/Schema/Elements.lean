import XmlSchema.Schema.Contents

/-!
Reading of the types of elements, and substitution: an element that names a head may stand for it, and for the heads of
the head, and takes over the type of the nearest of them if it has none of its own.
-/

namespace XmlSchema.Schema

namespace Item

mutual

def height : Item → Nat
  | mk _ _ _ inner => heightsFrom 0 inner + 1

/-- The greatest height among items, but at least `h`. -/
def heightsFrom (h : Nat) : List Item → Nat
  | [] => h
  | i :: later => heightsFrom (max h i.height) later

end

end Item

/-- An element with its type, if it has one of its own. -/
structure ReadElement where
  pending : PendingElement
  type : Option TypeDefinition

/-- Reads the type that an element names, or else the first of the types inside it; an element without a head is of any
type when it tells none. -/
def readOwnType (s : Scope) (p : PendingElement) (inline : List Item) : Reading (Option TypeDefinition) :=
  match p.item.getFull? "type", inline with
  | some name, _ => do
    let type ← typeReference s.type? p.item (← p.item.expandName name)
    return some type
  | none, first :: _ =>
    if first.is "complexType" then do
      let type ← readComplexType s p.owner none first
      return some (.complex type)
    else do
      let type ← readSimpleType s.type? none first
      return some (.simple type)
  | none, [] => return if p.declaration.head.isSome then none else some (.complex .anyType)

def readElementType (s : Scope) (p : PendingElement) : Reading ReadElement := do
  let i := p.item
  let d := p.declaration
  let inline := (← i.inner).filter fun t => t.is "complexType" || t.is "simpleType"
  if (i.getFull? "type").isSome && !inline.isEmpty then i.fail (.elementTypeTwice d.name.localPart)
  if d.default.isSome && d.fixed.isSome then i.fail (.elementDefaultAndFixed d.name.localPart)
  let type ← readOwnType s p inline
  if let some simple := type.bind (·.simpleType?) then checkConstraints i simple d.default d.fixed
  return ⟨p, type⟩

/-- Reads the types of elements, then those of the elements that stand in these types, and so on down at most `depth`
levels. -/
def readElements (s : Scope) : (depth : Nat) → List PendingElement → Reading (List ReadElement)
  | 0, _ => return []
  | depth + 1, pending => do
    if pending.isEmpty then return []
    let read ← pending.mapM (readElementType s)
    let traces ← get
    set { traces with elements := [] }
    let later ← readElements s depth traces.elements.reverse
    return read ++ later

/-! ### Substitution -/

/-- The heads of an element, the nearest first; none if they come back to an element of the chain. `heads` tells the
head of every element. -/
def headsFrom (heads : Name → Option Name) : (count : Nat) → (seen : List Name) → Option Name → Option (List Name)
  | _, _, none => some []
  | 0, _, some _ => none
  | count + 1, seen, some head =>
    if seen.contains head then none else (headsFrom heads count (head :: seen) (heads head)).map (head :: ·)

def addSubstitute (member : Name) : List (Name × List Name) → Name → List (Name × List Name)
  | [], head => [(head, [member])]
  | (other, members) :: later, head =>
    if other = head then (other, members ++ [member]) :: later else (other, members) :: addSubstitute member later head

/-- The heads of every element, and the elements that may stand for each head. -/
structure Substitution where
  heads : List (Name × List Name) := []
  members : List (Name × List Name) := []

/-- Finds what may stand for what among global elements. Every head has to be one of them. -/
def substitution (elements : List PendingElement) : Build Substitution := do
  let names := elements.map (·.declaration.name)
  for e in elements do
    if let some head := e.declaration.head then
      if !names.contains head then e.item.fail (.unknownHead head.localPart)
  let table := elements.map fun e => (e.declaration.name, e.declaration.head)
  elements.foldlM (fun result e => do
    let name := e.declaration.name
    match headsFrom (fun n => (table.lookup n).join) elements.length [name] e.declaration.head with
    | none => e.item.fail (.circularSubstitution name.localPart)
    | some heads =>
      return { heads := (name, heads) :: result.heads, members := heads.foldl (addSubstitute name) result.members }) {}

/-- The type of an element: its own, else that of the nearest head that has one. -/
def inheritedType (types : List (Name × TypeDefinition)) (heads : List Name) (own : Option TypeDefinition) :
    TypeDefinition :=
  (own <|> heads.findSome? fun head => types.lookup head).getD (.complex .anyType)

end XmlSchema.Schema
