/-!
Graphs of what needs what: a cycle, if there is one, and an order in which everything follows what it needs.
-/

namespace XmlSchema

/-- The nodes in the order in which they were first mentioned, each with what it needs in the order of mention. -/
structure DependencyGraph (α : Type) where
  nodes : List (α × List α) := []

namespace DependencyGraph

variable {α : Type} [DecidableEq α]

def empty : DependencyGraph α := ⟨[]⟩

def keys (g : DependencyGraph α) : List α := g.nodes.map Prod.fst

def contains (g : DependencyGraph α) (a : α) : Bool := g.nodes.any fun (b, _) => b = a

def needs (g : DependencyGraph α) (a : α) : List α :=
  match g.nodes.find? fun (b, _) => b = a with
  | some (_, needed) => needed
  | none => []

def add (g : DependencyGraph α) (a : α) : DependencyGraph α := if g.contains a then g else ⟨g.nodes ++ [(a, [])]⟩

def addNeed (a needed : α) : α × List α → α × List α
  | (b, known) => if b = a ∧ needed ∉ known then (b, known ++ [needed]) else (b, known)

/-- Records that `a` needs `needed`; both become nodes. -/
def require (g : DependencyGraph α) (a needed : α) : DependencyGraph α :=
  ⟨((g.add a).add needed).nodes.map (addNeed a needed)⟩

/-! ### Cycles -/

/-- The way from the last occurrence of `a` on a path, whose last node comes first, back to `a`. -/
def closed (path : List α) (a : α) : List α := a :: ((path.takeWhile (· ≠ a)).reverse ++ [a])

/-- Visits a node in depth, with the nodes on the way to it, the last one first, and the nodes that are known to lead to
no cycle. The result is a cycle, or the nodes now known. At most `depth` nodes lie ahead on any way. -/
def visit (g : DependencyGraph α) : (depth : Nat) → (path known : List α) → α → Except (List α) (List α)
  | 0, _, known, _ => .ok known
  | depth + 1, path, known, a =>
    if a ∈ path then .error (closed path a)
    else if a ∈ known then .ok known
    else do
      let known ← (g.needs a).foldlM (visit g depth (a :: path)) known
      return a :: known

/-- A closed walk in which every node needs the next one. -/
def cycle? (g : DependencyGraph α) : Option (List α) :=
  match g.keys.foldlM (g.visit (g.nodes.length + 1) []) [] with
  | .ok _ => none
  | .error cycle => some cycle

/-! ### Order -/

/-- For every node the number of nodes that need it. -/
def demands (g : DependencyGraph α) : List (α × Nat) :=
  let needed := g.nodes.flatMap Prod.snd
  g.keys.map fun a => (a, needed.count a)

def idle (demands : List (α × Nat)) : List α := (demands.filter fun (_, n) => n = 0).map Prod.fst

/-- Takes one demand off the node `a`. -/
def lower (demands : List (α × Nat)) (a : α) : List (α × Nat) :=
  demands.map fun (b, n) => if b = a then (b, n - 1) else (b, n)

/-- Takes one demand off each of the nodes; those that nobody is left to need are free, in the given order. -/
def release (demands : List (α × Nat)) : List α → List (α × Nat) × List α
  | [] => (demands, [])
  | a :: later =>
    let demands := lower demands a
    let (last, freed) := release demands later
    (last, if demands.lookup a = some 0 then a :: freed else freed)

/-- Takes at most `count` nodes that nobody left needs out of the graph, the one that became free first before the
others, and puts each before those taken earlier. -/
def peel (g : DependencyGraph α) : (count : Nat) → (demands : List (α × Nat)) → (free taken : List α) → List α
  | 0, _, _, taken => taken
  | _, _, [], taken => taken
  | count + 1, demands, a :: free, taken =>
    let (demands, freed) := release demands (g.needs a)
    peel g count demands (free ++ freed) (a :: taken)

/-- All nodes, each behind those that it needs; a cyclic graph has no such order. -/
def order? (g : DependencyGraph α) : Option (List α) :=
  let taken := g.peel g.nodes.length g.demands (idle g.demands) []
  if taken.length = g.nodes.length then some taken else none

end DependencyGraph

end XmlSchema
