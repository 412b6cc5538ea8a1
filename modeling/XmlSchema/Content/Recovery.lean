import XmlSchema.Content.Matching

/-!
Reports of children that do not fit a content model. The child at the furthest position that the model can reach is
reported and left out, and matching starts over with the rest, until it fits or the content ends too early.
-/

namespace XmlSchema

/-- What is wrong with a list of children: one of them is out of place, or the list ends too early. -/
inductive Mismatch where
  | misplaced (index : Nat) (child : Text) (expected : List Text) (atStart : Bool)
  | incomplete (expected : List Text)

namespace Mismatch

def index? : Mismatch → Option Nat
  | misplaced index _ _ _ => some index
  | incomplete _ => none

/-- The most expected labels that a message lists. -/
def shownLabels : Nat := 8

def expectedList (labels : List Text) : Text :=
  let sorted := Text.sort labels.eraseDups
  let shown := Text.join ", " (sorted.take shownLabels)
  if shownLabels < sorted.length then shown ++ ", ..." else shown

def message (owner : Text) : Mismatch → Text
  | misplaced _ child expected atStart =>
    let found := "element '" ++ child ++ "' not allowed here; "
    if !expected.isEmpty then found ++ "expected " ++ expectedList expected
    else if atStart then found ++ "'" ++ owner ++ "' permits no child elements"
    else found ++ "expected end of content of '" ++ owner ++ "'"
  | incomplete expected =>
    let found := "element '" ++ owner ++ "' is incomplete"
    if expected.isEmpty then found else found ++ "; expected " ++ expectedList expected

end Mismatch

/-- One attempt to match all names: whether they fit, how far the model can reach, what it expected there, how many
checkpoints the attempt passed, and how deep the groups nest that it went into. -/
structure Attempt where
  fits : Bool
  furthest : Nat
  expected : List Text
  checkpoints : Nat
  depth : Nat

/-- What all attempts came to: the mismatches, and the attempts themselves. -/
structure Recovery where
  mismatches : List Mismatch
  attempts : List Attempt

namespace Recovery

def last (a : Attempt) (mismatches : List Mismatch) : Recovery := ⟨mismatches, [a]⟩

def before (a : Attempt) (m : Mismatch) (later : Recovery) : Recovery :=
  ⟨m :: later.mismatches, a :: later.attempts⟩

end Recovery

namespace Content

variable (substitutes : Name → List Name) (group : Particle)

def attempt (names : List Name) : Attempt :=
  let names := names.toArray
  let matcher := Matcher.ofParticle substitutes names group
  let findings := matcher.explore substitutes names none (.single 0)
  { fits := (matcher.ends 0).contains names.size
    furthest := findings.furthest
    expected := findings.expected.filterMap fun (pos, label) => if pos = findings.furthest then some label else none
    checkpoints := Trial.checkpoints findings.trials
    depth := findings.depth }

def namesOf (children : List (Nat × Name)) : List Name := children.map Prod.snd

/-- The mismatches of the children that are left, each with its index among all children. -/
def recoverFrom (children : List (Nat × Name)) : Recovery :=
  let a := attempt substitutes group (namesOf children)
  if a.fits then .last a []
  else if h : a.furthest < children.length then
    let (index, name) := children[a.furthest]
    (recoverFrom (children.eraseIdx a.furthest)).before a
      (.misplaced index name.localPart a.expected (a.furthest = 0))
  else .last a [.incomplete a.expected]
termination_by children.length
decreasing_by
  have := List.length_eraseIdx_of_lt h
  change (children.eraseIdx a.furthest).length < children.length
  omega

/-- The mismatches of a list of children with a model; no model permits no children. -/
def recover (model : Option Particle) (names : List Name) : Recovery :=
  recoverFrom substitutes (model.getD .emptySequence) (names.zipIdx.map fun (name, i) => (i, name))

/-- The room in which children are matched. It bounds how deep groups and elements may nest. -/
def maxRoom : Nat := 986

/-- Whether there is room for groups that nest so deep, in an element at a depth: a group takes three places, and an
element two. -/
def fitsRoom (groups element : Nat) : Bool := 3 * groups + 2 * element ≤ maxRoom + 2

/-- The checkpoints that attempts pass in an element at a depth. The first one without room ends them; it counts
whole. -/
def checkpointsOf (element : Nat) : List Attempt → Nat
  | [] => 0
  | a :: later => a.checkpoints + if fitsRoom a.depth element then checkpointsOf element later else 0

end Content

namespace Recovery

def checkpoints (r : Recovery) (element : Nat) : Nat := Content.checkpointsOf element r.attempts

/-- Whether there is room for all attempts in an element at a depth. -/
def fitsRoom (r : Recovery) (element : Nat) : Bool := r.attempts.all fun a => Content.fitsRoom a.depth element

end Recovery

end XmlSchema
