import XmlSchema.Particle

/-!
Matching of a list of names against a particle. `Matcher.ofParticle` prepares for every particle the sweeps of its
occurrences from each position; `Matcher.explore` then follows from a start what the match looked at: how far it
came, what it could have gone on with, and which particle it was tried at which positions.
-/

namespace XmlSchema

/-- A member of a group in which every member may occur once and in any order. -/
structure AllMember where
  accepted : List Name
  minimum : Nat
  label : Text

/-- The end of a match of such a group: the positions at which it may end, where it stopped, and the members that
were left. -/
structure AllMatch where
  ends : Positions
  stopped : Nat
  left : List AllMember

namespace AllMember

/-- Takes one member after another, each time the first that accepts the next name. -/
def matchFrom (names : Array Name) (remaining : List AllMember) (pos : Nat) (ends : Positions) : AllMatch :=
  let ends := if remaining.all (·.minimum = 0) then .single pos ∪ ends else ends
  match names[pos]? with
  | none => ⟨ends, pos, remaining⟩
  | some name =>
    if h : remaining.any (·.accepted.contains name) then
      matchFrom names (remaining.eraseP (·.accepted.contains name)) (pos + 1) ends
    else ⟨ends, pos, remaining⟩
termination_by remaining.length
decreasing_by
  obtain ⟨m, hm, hp⟩ := List.any_eq_true.1 h
  have := List.length_eraseP_of_mem (p := fun m : AllMember => m.accepted.contains name) hm hp
  have := List.length_pos_of_mem hm
  omega

/-- The labels of the members that are still missing; if none has to occur, of all that are left. -/
def missing (remaining : List AllMember) : List Text :=
  let needed := remaining.filter (0 < ·.minimum)
  ((if needed.isEmpty then remaining else needed).map (·.label)).eraseDups

end AllMember

/-- A particle with the sweeps of its occurrences from every position. -/
inductive Matcher where
  | mk (particle : Particle) (sweeps : Table Sweep) (members : List Matcher)

namespace Matcher

variable (substitutes : Name → List Name) (names : Array Name)

def sweep : Matcher → Nat → Sweep
  | mk _ sweeps _, pos => sweeps.get pos

def ends (m : Matcher) (pos : Nat) : Positions := (m.sweep pos).reached

/-- The names that an element particle accepts: its own and those of its substitutes. -/
def accepted (name : Name) : List Name := name :: substitutes name

def nameStep (accepted : List Name) (pos : Nat) : Positions :=
  match names[pos]? with
  | some n => if accepted.contains n then .single (pos + 1) else .empty
  | none => .empty

def wildcardStep (w : Wildcard) (pos : Nat) : Positions :=
  match names[pos]? with
  | some n => if w.allows n.uri then .single (pos + 1) else .empty
  | none => .empty

def sequenceStep (members : List Matcher) (pos : Nat) : Positions :=
  members.foldl (fun acc m => acc.bind m.ends) (.single pos)

def choiceStep (members : List Matcher) (pos : Nat) : Positions :=
  members.foldr (fun m acc => m.ends pos ∪ acc) .empty

def allMembers (members : List Particle) : List AllMember :=
  members.filterMap fun
    | .element name _ occurs => some ⟨accepted substitutes name, occurs.min, Particle.elementLabel name⟩
    | _ => none

def allStep (members : List Particle) (pos : Nat) : AllMatch :=
  AllMember.matchFrom names (allMembers substitutes members) pos .empty

def sweepsOf (occurs : Occurs) (step : Nat → Positions) : Table Sweep :=
  .tabulate names.size fun pos => XmlSchema.sweep occurs step names.size pos

mutual

def ofParticle : Particle → Matcher
  | .element name key occurs =>
    let accepted := accepted substitutes name
    mk (.element name key occurs) (sweepsOf names occurs (nameStep names accepted)) []
  | .wildcard w occurs => mk (.wildcard w occurs) (sweepsOf names occurs (wildcardStep names w)) []
  | .group compositor members occurs source =>
    let matchers := ofParticles members
    let step := match compositor with
      | .sequence => sequenceStep matchers
      | .choice => choiceStep matchers
      | .all => fun pos => (allStep substitutes names members pos).ends
    mk (.group compositor members occurs source) (sweepsOf names occurs step) matchers

def ofParticles : List Particle → List Matcher
  | [] => []
  | p :: ps => ofParticle p :: ofParticles ps

end

end Matcher

/-- The particles of a named group are the same wherever the group is referred to: the place of such a particle is
the group and the way down to it. -/
abbrev SharedPlace := Name × List Nat

/-- One particle and the positions that it was matched from, with the rounds that each takes. -/
structure Trial where
  place : Option SharedPlace
  starts : Positions
  rounds : Nat → Nat

/-- What a match looked at: the furthest position, what was expected where and not found, all trials, and how deep the
groups nest that it went into. -/
structure Findings where
  furthest : Nat
  expected : List (Nat × Text)
  trials : List Trial
  depth : Nat := 0

namespace Findings

def none : Findings := ⟨0, [], [], 0⟩

def merge (a b : Findings) : Findings :=
  ⟨max a.furthest b.furthest, a.expected ++ b.expected, a.trials ++ b.trials, max a.depth b.depth⟩

/-- The findings inside a group are one level deeper outside. -/
def within (f : Findings) : Findings := { f with depth := f.depth + 1 }

end Findings

namespace Matcher

variable (substitutes : Name → List Name) (names : Array Name)

def memberPlace (source : Option Name) (place : Option SharedPlace) (i : Nat) : Option SharedPlace :=
  match source with
  | some group => some (group, [i])
  | Option.none => place.map fun (group, path) => (group, i :: path)

/-- The positions at which a step finds nothing, with the label of what it looks for. -/
def misses (step : Nat → Positions) (label : Text) (tried : Positions) : List (Nat × Text) :=
  tried.toList.filterMap fun pos => if (step pos).isEmpty then some (pos, label) else Option.none

mutual

def explore (place : Option SharedPlace) (starts : Positions) : Matcher → Findings
  | mk particle sweeps members =>
    let tried := starts.bind fun pos => (sweeps.get pos).tried
    let ends := starts.bind fun pos => (sweeps.get pos).reached
    let trial : Trial := ⟨place, starts, fun pos => (sweeps.get pos).rounds⟩
    let inner : Findings := match particle with
      | .element name _ _ =>
        ⟨0, misses (nameStep names (accepted substitutes name)) (Particle.elementLabel name) tried, [], 0⟩
      | .wildcard w _ => ⟨0, misses (wildcardStep names w) w.label tried, [], 0⟩
      | .group .sequence _ _ source => (exploreInTurn source place 0 tried members).within
      | .group .choice _ _ source => (exploreEach source place 0 tried members).within
      | .group .all particles _ _ =>
        let matches_ := tried.toList.map (allStep substitutes names particles)
        ⟨(matches_.map (·.stopped)).foldr max 0,
          matches_.flatMap fun m => (AllMember.missing m.left).map (m.stopped, ·), [], 1⟩
    ⟨max (max tried.greatest ends.greatest) inner.furthest, inner.expected, trial :: inner.trials, inner.depth⟩

/-- Each member starts where the one before it can end. -/
def exploreInTurn (source : Option Name) (place : Option SharedPlace) (i : Nat) (starts : Positions) :
    List Matcher → Findings
  | [] => .none
  | m :: ms =>
    if starts.isEmpty then .none
    else (explore (memberPlace source place i) starts m).merge
      (exploreInTurn source place (i + 1) (starts.bind m.ends) ms)

/-- Every member starts at the same positions. -/
def exploreEach (source : Option Name) (place : Option SharedPlace) (i : Nat) (starts : Positions) :
    List Matcher → Findings
  | [] => .none
  | m :: ms =>
    (explore (memberPlace source place i) starts m).merge (exploreEach source place (i + 1) starts ms)

end

end Matcher

/-- The number of checkpoints that the trials pass: one for each particle and start, and one for each round. A
shared particle is matched once from each start. -/
def Trial.checkpoints (trials : List Trial) : Nat :=
  let count (t : Trial) (starts : Positions) : Nat := starts.toList.foldl (fun total pos => total + 1 + t.rounds pos) 0
  let (total, _) := trials.foldl (fun (total, seen) t =>
    match t.place with
    | none => (total + count t t.starts, seen)
    | some place =>
      match seen.find? fun (other, _) => other = place with
      | none => (total + count t t.starts, (place, t.starts) :: seen)
      | some (_, starts) =>
        (total + count t (t.starts \ starts),
          (place, t.starts ∪ starts) :: seen.filter fun (other, _) => other ≠ place))
    ((0, []) : Nat × List (SharedPlace × Positions))
  total

end XmlSchema
