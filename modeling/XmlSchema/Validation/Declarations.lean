import XmlSchema.Schema.Basic

/-!
Which declaration a child element is checked against: that of the first leaf of the content model, level by level, that
has its name or can be substituted by it, or else the global one of its name, where a wildcard demands that.
-/

namespace XmlSchema.Validation

def zipLevels {α : Type} : List (List α) → List (List α) → List (List α)
  | [], levels => levels
  | levels, [] => levels
  | a :: as, b :: bs => (a ++ b) :: zipLevels as bs

mutual

def levels : Particle → List (List Particle)
  | .group _ members _ _ => [] :: levelsOfAll members
  | leaf => [[leaf]]

def levelsOfAll : List Particle → List (List Particle)
  | [] => []
  | p :: ps => zipLevels (levels p) (levelsOfAll ps)

end

/-- The leaves of a content model, those of a level before those of the levels below. -/
def leaves (model : Option Particle) : List Particle := (model.map fun p => (levels p).flatten).getD []

/-- Whether an element of this name may be what an element particle stands for. -/
def accepts (s : Schema) (leaf : Particle) (name : Name) : Bool :=
  match leaf with
  | .element own _ _ => own = name || (s.substitutes own).contains name
  | _ => false

/-- The declaration for a child among the leaves of the content model. -/
def declarationAmong? (s : Schema) (leaves : List Particle) (name : Name) : Option ElementDeclaration :=
  match leaves.find? fun leaf => accepts s leaf name with
  | some (.element own key _) => if own = name then s.declaration? own key else s.element? name
  | _ => none

/-- The first wildcard among the leaves that admits a namespace. -/
def wildcardAmong? (leaves : List Particle) (uri : Text) : Option Wildcard :=
  leaves.findSome? fun
    | .wildcard w _ => if w.allows uri then some w else none
    | _ => none

/-- What is done about a child: it is checked against a declaration, it lacks one, or it is left alone. -/
inductive Treatment where
  | check (declaration : ElementDeclaration)
  | undeclared
  | ignore

/-- The treatment of a child by the leaves of the content model. What only a lax wildcard admits is left alone. -/
def treatment (s : Schema) (leaves : List Particle) (name : Name) : Treatment :=
  match declarationAmong? s leaves name with
  | some d => .check d
  | none =>
    match wildcardAmong? leaves name.uri with
    | some ⟨_, .strict⟩ =>
      match s.element? name with
      | some d => .check d
      | none => .undeclared
    | _ => .ignore

end XmlSchema.Validation
