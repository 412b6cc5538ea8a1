import XmlSchema.FileTree.Walk

/-!
Canonical places. A path is canonical when no link and no step upward is left in it. It is found step by step, with
links replaced by where they lead, and `..` always removes the name before it; what a path names need not exist. A link
that leads back to itself ends the search: the rest of the path stays as it is.
-/

namespace XmlSchema.FileTree

inductive Resolution where
  | place (place : Place)
  /-- A link that leads back to itself, and the path that remains: the link and all steps that were still to come. -/
  | looping (origin : Place) (path : Steps)
  /-- Nothing stands at a place where something has to. -/
  | absent

/-- Appends steps. An empty step in front of others begins again at the top. -/
def joinSteps (path : Steps) : Steps → Steps
  | step :: next :: rest => if step.isEmpty then step :: next :: rest else path ++ step :: next :: rest
  | rest => path ++ rest

/-- Takes steps from a place. `enter` finds where a link leads, given its place and the steps of its target with the
place where they begin. -/
def resolveSteps (tree : FileTree) (strict : Bool) (enter : Place → Place → Steps → Resolution) :
    Place → Steps → Resolution
  | place, [] => .place place
  | place, step :: rest =>
    if isIdle step then resolveSteps tree strict enter place rest
    else if isUpward step then resolveSteps tree strict enter place.dropLast rest
    else
      match tree.at? (place ++ [step]) with
      | some (link target) =>
        match enter (place ++ [step]) (start place target) (steps target) with
        | .place target => resolveSteps tree strict enter target rest
        | .looping origin path => .looping origin (joinSteps path rest)
        | .absent => .absent
      | some _ => resolveSteps tree strict enter (place ++ [step]) rest
      | none => if strict then .absent else resolveSteps tree strict enter (place ++ [step]) rest

/-- Takes steps inside the targets of the links in `active`; `depth` bounds how many more can be entered. -/
def resolveWithin (tree : FileTree) (strict : Bool) : (depth : Nat) → (active : List Place) → Place → Steps → Resolution
  | 0, _ => resolveSteps tree strict fun origin _ _ => .looping origin origin
  | depth + 1, active => resolveSteps tree strict fun origin place steps =>
    if active.contains origin then .looping origin origin
    else resolveWithin tree strict depth (origin :: active) place steps

/-- No more links than there are can be inside one another. -/
def resolution (tree : FileTree) (strict : Bool) (path : Steps) : Resolution :=
  resolveWithin tree strict tree.linkCount [] [] path

/-- The canonical place of a path from the top, which need not exist. What remains behind a looping link is taken
literally, unless following it meets the loop again. -/
def canonical (tree : FileTree) (path : Steps) : Except Fault Place :=
  match tree.resolution false path with
  | .place place => .ok place
  | .looping _ path =>
    match tree.locate (placeOf path) with
    | .error .tooManyLinks => .error .tooManyLinks
    | _ => .ok (placeOf path)
  | .absent => .error .missing

/-- The canonical place of a path from the top, all steps of which must exist. -/
def canonicalExisting (tree : FileTree) (path : Steps) : Except Fault Place :=
  match tree.resolution true path with
  | .place place => .ok place
  | .looping origin _ => tree.locate origin
  | .absent => .error .missing

end XmlSchema.FileTree
