import XmlSchema.Text.Utf8

/-!
Trees of files. A place is given by the names that lead to it from the top of the tree; a path is given by its steps,
which may also be empty, a dot or two dots.
-/

namespace XmlSchema

inductive FileTree where
  | file (content : List UInt8)
  | link (target : Text)
  | directory (entries : List (Text × FileTree))

namespace FileTree

/-- Names, the outermost first. -/
abbrev Place := List Text

/-- Parts between slashes. -/
abbrev Steps := List Text

def empty : FileTree := directory []

def child? (name : Text) : FileTree → Option FileTree
  | directory entries => entries.lookup name
  | _ => none

/-- What stands at a place. No link is followed. -/
def at? (tree : FileTree) : Place → Option FileTree
  | [] => some tree
  | name :: place =>
    match tree.child? name with
    | some below => below.at? place
    | none => none

def steps (path : Text) : Steps := Text.splitOn '/' path

def isAbsolute (path : Text) : Bool := Text.startsWith path "/"

/-- Where the steps of a link's target begin: at the top, or in the directory of the link. -/
def start (place : Place) (target : Text) : Place := if isAbsolute target then [] else place

/-- A step that stays where it is. -/
def isIdle (step : Text) : Bool := step.isEmpty || step = "."

def isUpward (step : Text) : Bool := step = ".."

/-- The steps of a path without those that stay where they are. -/
def movingSteps (path : Text) : Steps := (steps path).filter fun step => !isIdle step

/-- The place that steps from the top name, whatever stands there. -/
def placeOf (path : Steps) : Place :=
  path.foldl (fun place step =>
    if isIdle step then place else if isUpward step then place.dropLast else place ++ [step]) []

mutual

def linkCount : FileTree → Nat
  | file _ => 0
  | link _ => 1
  | directory entries => linkCountIn entries

def linkCountIn : List (Text × FileTree) → Nat
  | [] => 0
  | (_, tree) :: entries => linkCount tree + linkCountIn entries

end

end FileTree

end XmlSchema
