import XmlSchema.Catalog.Listing
import XmlSchema.Text.Lines
import XmlSchema.Text.Percent

/-!
Fetching one schema. The path that a caller names may use percent escapes, `..` and links; what counts is the canonical
place that it leads to, which has to lie inside the root.
-/

namespace XmlSchema.Catalog

inductive ReadFault where
  | nulByte
  | outside
  | notFound (path : Text)
  | notUnicode (path : Text)
  | brokenOff (cause : Breakdown)

def ReadFault.message? : ReadFault → Option Text
  | nulByte => some "path contains a NUL byte"
  | outside => some "path resolves outside the catalog root"
  | notFound path => some ("schema " ++ Text.quoted path ++ " not found")
  | notUnicode path => some ("schema " ++ Text.quoted path ++ " is not valid UTF-8")
  | brokenOff _ => none

/-- Surrogates that stand for single bytes can be written as these. -/
def isWritable (c : CodePoint) : Bool := !c.isSurrogate || (0xDC80 ≤ c.val && c.val ≤ 0xDCFF)

/-- The canonical place of a path below a root; an absolute path leaves the root. -/
def placeOf (tree : FileTree) (root : FileTree.Place) (path : Text) : Except FileTree.Fault FileTree.Place :=
  tree.canonical (if FileTree.isAbsolute path then FileTree.movingSteps path else root ++ FileTree.movingSteps path)

/-- The bytes of the schema at a place. `path` is what callers are told of. -/
def readPlace (tree : FileTree) (place : FileTree.Place) (path : Text) : Except ReadFault (List UInt8) :=
  if Text.endsWith (place.getLastD []) schemaSuffix then
    match tree.reach place with
    | .ok (.file content) => .ok content
    | .error .tooLong => .error (.brokenOff .nameTooLong)
    | _ => .error (.notFound path)
  else .error (.notFound path)

/-- The text of the schema at a path; lines end with line feeds. -/
def read (c : Catalog) (path : Text) : Except ReadFault Text := do
  let path := Text.Percent.decode path
  if path.any (·.val = 0) then throw .nulByte
  let root ← (c.tree.canonical c.root).mapError fun _ => .brokenOff .linkLoop
  unless path.all isWritable do throw (.brokenOff .unwritablePath)
  let place ← (placeOf c.tree root path).mapError fun _ => .brokenOff .linkLoop
  unless root.isPrefixOf place do throw .outside
  match Text.Utf8.decode? (← readPlace c.tree place path) with
  | some text => return Text.withLineFeeds text
  | none => throw (.notUnicode path)

end XmlSchema.Catalog
