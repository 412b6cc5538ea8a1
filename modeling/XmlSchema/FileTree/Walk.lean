import XmlSchema.FileTree.Basic

/-!
Following paths, as opening a file does. Every step is taken from a directory that exists, and the links on the way are
counted: a walk that meets too many of them is given up.
-/

namespace XmlSchema.FileTree

inductive Fault where
  | missing
  | notDirectory
  | tooManyLinks
  | tooLong
deriving DecidableEq

/-- The most links of one walk. -/
def maxLinks : Nat := 40

/-- The most bytes of a name, and of a path. -/
def maxNameSize : Nat := 255

def maxPathSize : Nat := 4095

/-- Takes steps from a place. A link replaces itself by the steps of its target; `enter` goes on with them. -/
def followSteps (tree : FileTree) (enter : Place → Steps → Except Fault Place) : Place → Steps → Except Fault Place
  | place, [] => .ok place
  | place, step :: rest =>
    match tree.at? place with
    | some (directory _) =>
      if isIdle step then followSteps tree enter place rest
      else if isUpward step then followSteps tree enter place.dropLast rest
      else if maxNameSize < Text.Utf8.size step then .error .tooLong
      else
        match tree.at? (place ++ [step]) with
        | none => .error .missing
        | some (link target) => enter (start place target) (steps target ++ rest)
        | some _ => followSteps tree enter (place ++ [step]) rest
    | _ => .error .notDirectory

def follow (tree : FileTree) : (links : Nat) → Place → Steps → Except Fault Place
  | 0 => followSteps tree fun _ _ => .error .tooManyLinks
  | links + 1 => followSteps tree (follow tree links)

def locate (tree : FileTree) (path : Steps) : Except Fault Place :=
  if maxPathSize < path.foldl (fun size step => size + Text.Utf8.size step + 1) 0 then .error .tooLong
  else tree.follow maxLinks [] path

def reach (tree : FileTree) (path : Steps) : Except Fault FileTree := do
  match tree.at? (← tree.locate path) with
  | some found => return found
  | none => throw .missing

end XmlSchema.FileTree
