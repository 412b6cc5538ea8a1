import XmlSchema.FileTree.Canonical

/-!
Changes of a tree at a place.
-/

namespace XmlSchema.FileTree

def entries : FileTree → List (Text × FileTree)
  | directory entries => entries
  | _ => []

def setEntry (name : Text) (tree : FileTree) : List (Text × FileTree) → List (Text × FileTree)
  | [] => [(name, tree)]
  | (other, old) :: rest => if other = name then (name, tree) :: rest else (other, old) :: setEntry name tree rest

/-- The tree with something else at a place; directories that are missing above it are made. -/
def put (tree new : FileTree) : Place → FileTree
  | [] => new
  | name :: place => directory (setEntry name (put ((tree.child? name).getD empty) new place) tree.entries)

/-- The tree without what stands at a place, and all beneath it. -/
def remove (tree : FileTree) : Place → FileTree
  | [] => empty
  | [name] => directory (tree.entries.filter fun (other, _) => other != name)
  | name :: place =>
    match tree.child? name with
    | some below => directory (setEntry name (below.remove place) tree.entries)
    | none => tree

/-- The place of a path, of whose last name links are not followed. -/
def siteOf (tree : FileTree) (path : Steps) : Except Fault Place := do
  match (placeOf path).reverse with
  | [] => return []
  | name :: above => return (← tree.canonical above.reverse) ++ [name]

def makeDirectory (tree : FileTree) (path : Steps) : Except Fault FileTree := do
  let place ← tree.canonical (placeOf path)
  match tree.at? place with
  | some _ => return tree
  | none => return tree.put empty place

def writeFile (tree : FileTree) (path : Steps) (content : List UInt8) : Except Fault FileTree :=
  return tree.put (file content) (← tree.canonical (placeOf path))

def makeLink (tree : FileTree) (path : Steps) (target : Text) : Except Fault FileTree :=
  return tree.put (link target) (← tree.siteOf path)

def delete (tree : FileTree) (path : Steps) : Except Fault FileTree := return tree.remove (← tree.siteOf path)

end XmlSchema.FileTree
