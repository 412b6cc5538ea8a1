import XmlSchema.Pattern.Reader

/-!
Matching of whole texts. Each expression has a table that tells, for every position of the text, the positions at
which a match that starts there can end.
-/

namespace XmlSchema.Pattern

def literalEnd (input : Array CodePoint) (literal : Text) (pos : Nat) : Positions :=
  match literal with
  | [] => .single pos
  | c :: rest => if input[pos]? = some c then literalEnd input rest (pos + 1) else .empty

def setEnd (input : Array CodePoint) (s : CodePointSet) (pos : Nat) : Positions :=
  match input[pos]? with
  | some c => if s.contains c.val then .single (pos + 1) else .empty
  | none => .empty

mutual

def ends (input : Array CodePoint) : Expression → Table Positions
  | .point c => .tabulate input.size (literalEnd input [c])
  | .set s => .tabulate input.size (setEnd input s)
  | .choice branches =>
    let tables := endsOfEach input branches
    .tabulate input.size fun pos => tables.foldr (fun table acc => table.get pos ∪ acc) .empty
  | .sequence pieces =>
    let tables := endsOfEach input pieces
    .tabulate input.size fun pos => tables.foldl (fun acc table => acc.bind table.get) (.single pos)
  | .repeated atom q =>
    let table := ends input atom
    if q.isLiteral then .tabulate input.size fun pos => (table.get pos).bind (literalEnd input q.text)
    else .tabulate input.size fun pos => (sweep q.range table.get input.size pos).reached

def endsOfEach (input : Array CodePoint) : List Expression → List (Table Positions)
  | [] => []
  | e :: es => ends input e :: endsOfEach input es

end

end XmlSchema.Pattern

namespace XmlSchema

/-- A pattern that was read: its source and its branches. -/
structure Pattern where
  source : Text
  branches : List Pattern.Expression

namespace Pattern

def compile (source : Text) : Except Failure Pattern := do
  let branches ← read source
  if anyTooLarge branches then .error .boundTooLarge else return ⟨source, branches⟩

def isMatch (p : Pattern) (t : Text) : Bool :=
  let input := t.toArray
  ((ends input (.choice p.branches)).get 0).contains input.size

end Pattern

end XmlSchema
