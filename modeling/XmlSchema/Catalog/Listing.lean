import XmlSchema.FileTree.Canonical

/-!
The catalog: schema files beneath a directory of a file tree. The listing follows links that stay inside that
directory, and leaves out what it cannot look at.
-/

namespace XmlSchema

/-- The root is a path from the top of the tree. -/
structure Catalog where
  tree : FileTree
  root : FileTree.Steps
  maxDepth : Int := 16

namespace Catalog

open FileTree (Place)

/-- What breaks a call off, instead of letting it fail. -/
inductive Breakdown where
  /-- A link leads back to itself. -/
  | linkLoop
  | nameTooLong
  /-- A path cannot be written in bytes. -/
  | unwritablePath
deriving DecidableEq

inductive Node where
  | directory (name path : Text) (children : List Node)
  | file (name path : Text)

def schemaSuffix : Text := ".xsd"

/-- What an entry is, with links followed, if it may be looked at. A link has to lead to a place inside the root. -/
def entryTarget (tree : FileTree) (root : Place) (path : Place) : FileTree → Except Breakdown (Option FileTree)
  | .link _ =>
    match tree.canonicalExisting path with
    | .error .tooManyLinks => .error .linkLoop
    | .error _ => .ok none
    | .ok place => .ok (if root.isPrefixOf place then (tree.reach path).toOption else none)
  | entry => .ok (some entry)

def sortedEntries (entries : List (Text × FileTree)) : List (Text × FileTree) :=
  entries.mergeSort fun a b => Text.order a.1 b.1 != .gt

def isDirectory : Node → Bool
  | .directory .. => true
  | .file .. => false

/-- Lists the directory that names lead to from the root, down to `depth` levels: directories before files. -/
def listWithin (tree : FileTree) (root : Place) : (depth : Nat) → (names : List Text) →
    Except Breakdown (List Node)
  | 0, _ => .ok []
  | depth + 1, names =>
    match tree.reach (root ++ names) with
    | .ok (.directory entries) => do
      let nodes ← (sortedEntries entries).filterMapM fun (name, entry) => do
        let path := Text.join "/" (names ++ [name])
        match ← entryTarget tree root (root ++ names ++ [name]) entry with
        | some (.directory _) => return some (.directory name path (← listWithin tree root depth (names ++ [name])))
        | some (.file _) => return if Text.endsWith name schemaSuffix then some (.file name path) else none
        | _ => return none
      return nodes.filter isDirectory ++ nodes.filter (!isDirectory ·)
    | _ => .ok []

/-- Lists the catalog. Only a link that leads back to itself stops the listing; a root that is missing or no directory
holds nothing. -/
def list (c : Catalog) : Except Breakdown (List Node) :=
  match c.tree.canonicalExisting c.root with
  | .error .tooManyLinks => .error .linkLoop
  | .error _ => .ok []
  | .ok root => listWithin c.tree root c.maxDepth.toNat []

end Catalog

end XmlSchema
