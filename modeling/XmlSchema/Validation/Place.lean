import XmlSchema.Name

/-!
Paths to elements: the local names on the way down, with the number of the element among its siblings of the same name
where there are several.
-/

namespace XmlSchema.Validation

def rootPath (name : Name) : Text := "/" ++ name.localPart

def countOne : List (Name × Nat) → Name → List (Name × Nat)
  | [], name => [(name, 1)]
  | (other, n) :: later, name => if other = name then (other, n + 1) :: later else (other, n) :: countOne later name

def countOf (counts : List (Name × Nat)) (name : Name) : Nat := (counts.lookup name).getD 0

def counts (names : List Name) : List (Name × Nat) := names.foldl countOne []

/-- The path of the child that is the last of its name so far, given the names of all children and of those so far. -/
def childPath (path : Text) (total seen : List (Name × Nat)) (name : Name) : Text :=
  path ++ "/" ++ name.localPart ++
    if 1 < countOf total name then "[" ++ Text.ofNat (countOf seen name) ++ "]" else []

/-- The paths of children with these names, the last one first, with the counts of the names. -/
def childPathsFrom (path : Text) (total : List (Name × Nat)) (names : List Name) : List (Name × Nat) × List Text :=
  names.foldl (fun (seen, paths) name =>
    let seen := countOne seen name
    (seen, childPath path total seen name :: paths)) ([], [])

def childPaths (path : Text) (names : List Name) : List Text := (childPathsFrom path (counts names) names).2.reverse

end XmlSchema.Validation
