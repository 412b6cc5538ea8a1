/-!
Occurrence ranges over sets of positions. `sweep` applies one occurrence after another to a set of positions and
collects every position that an allowed number of occurrences reaches, without counting out the range.
-/

namespace XmlSchema

/-- How often something may occur; no maximum means without bound. -/
structure Occurs where
  min : Nat := 1
  max : Option Nat := some 1
deriving DecidableEq

namespace Occurs

def allowsMore (o : Occurs) (count : Nat) : Bool :=
  match o.max with
  | none => true
  | some m => count < m

def allows (o : Occurs) (count : Nat) : Prop := o.min ≤ count ∧ ∀ m, o.max = some m → count ≤ m

end Occurs

/-- A finite set of positions, the greatest first. -/
structure Positions where
  toList : List Nat
  sorted : toList.Pairwise (· > ·)

namespace Positions

instance : Membership Nat Positions := ⟨fun s n => n ∈ s.toList⟩

instance : DecidableEq Positions := fun a b =>
  if h : a.toList = b.toList then isTrue (by cases a; cases b; cases h; rfl)
  else isFalse (fun e => h (e ▸ rfl))

def empty : Positions := ⟨[], .nil⟩

def single (n : Nat) : Positions := ⟨[n], List.pairwise_singleton _ _⟩

instance : Inhabited Positions := ⟨empty⟩

def isEmpty (s : Positions) : Bool := s.toList.isEmpty

def greatest (s : Positions) : Nat := s.toList.headD 0

/-- Membership, given up at the first smaller member. -/
def has (n : Nat) : List Nat → Bool
  | [] => false
  | a :: s => if n < a then has n s else n = a

def contains (s : Positions) (n : Nat) : Bool := has n s.toList

def merge : List Nat → List Nat → List Nat
  | [], t => t
  | s, [] => s
  | a :: s, b :: t =>
    if b < a then a :: merge s (b :: t) else if a < b then b :: merge (a :: s) t else a :: merge s t

def without : List Nat → List Nat → List Nat
  | [], _ => []
  | s, [] => s
  | a :: s, b :: t =>
    if b < a then a :: without s (b :: t) else if a < b then without (a :: s) t else without s t

theorem mem_merge {n : Nat} {s t : List Nat} : n ∈ merge s t ↔ n ∈ s ∨ n ∈ t := by
  fun_induction merge s t with
  | case1 => simp
  | case2 => simp
  | case3 a s b t h ih => simp [ih]; grind
  | case4 a s b t h h' ih => simp [ih]; grind
  | case5 a s b t h h' ih => simp [ih]; grind

theorem sorted_merge {s t : List Nat} (hs : s.Pairwise (· > ·)) (ht : t.Pairwise (· > ·)) :
    (merge s t).Pairwise (· > ·) := by
  fun_induction merge s t with
  | case1 => exact ht
  | case2 => exact hs
  | case3 a s b t h ih =>
    rw [List.pairwise_cons] at hs ⊢
    refine ⟨fun x hx => ?_, ih hs.2 ht⟩
    rw [mem_merge, List.mem_cons] at hx
    rw [List.pairwise_cons] at ht
    rcases hx with hx | rfl | hx
    · exact hs.1 x hx
    · exact h
    · have := ht.1 x hx; omega
  | case4 a s b t h h' ih =>
    rw [List.pairwise_cons] at ht ⊢
    refine ⟨fun x hx => ?_, ih hs ht.2⟩
    rw [mem_merge, List.mem_cons] at hx
    rw [List.pairwise_cons] at hs
    rcases hx with (rfl | hx) | hx
    · exact h'
    · have := hs.1 x hx; omega
    · exact ht.1 x hx
  | case5 a s b t h h' ih =>
    rw [List.pairwise_cons] at hs ht ⊢
    refine ⟨fun x hx => ?_, ih hs.2 ht.2⟩
    rw [mem_merge] at hx
    rcases hx with hx | hx
    · exact hs.1 x hx
    · have := ht.1 x hx; omega

theorem mem_without {n : Nat} {s t : List Nat} (hs : s.Pairwise (· > ·)) (ht : t.Pairwise (· > ·)) :
    n ∈ without s t ↔ n ∈ s ∧ n ∉ t := by
  fun_induction without s t with
  | case1 => simp
  | case2 => simp
  | case3 a s b t h ih =>
    rw [List.pairwise_cons] at hs
    have hb : ∀ x ∈ b :: t, x ≤ b := by
      rw [List.pairwise_cons] at ht
      intro x hx
      rcases List.mem_cons.1 hx with rfl | hx
      · exact Nat.le_refl _
      · exact Nat.le_of_lt (ht.1 x hx)
    rw [List.mem_cons, ih hs.2 ht]
    constructor
    · rintro (rfl | hx)
      · exact ⟨List.mem_cons_self, fun hn => by have := hb _ hn; omega⟩
      · exact ⟨List.mem_cons_of_mem _ hx.1, hx.2⟩
    · rintro ⟨hx, hn⟩
      rcases List.mem_cons.1 hx with rfl | hx
      · exact .inl rfl
      · exact .inr ⟨hx, hn⟩
  | case4 a s b t h h' ih =>
    rw [List.pairwise_cons] at ht
    rw [ih hs ht.2]
    rw [List.pairwise_cons] at hs
    constructor
    · rintro ⟨hx, hn⟩
      refine ⟨hx, fun hb => ?_⟩
      rcases List.mem_cons.1 hb with rfl | hb
      · rcases List.mem_cons.1 hx with rfl | hx
        · omega
        · have := hs.1 _ hx; omega
      · exact hn hb
    · rintro ⟨hx, hn⟩
      exact ⟨hx, fun hb => hn (List.mem_cons_of_mem _ hb)⟩
  | case5 a s b t h h' ih =>
    have e : a = b := by omega
    subst e
    rw [List.pairwise_cons] at hs ht
    rw [ih hs.2 ht.2]
    constructor
    · rintro ⟨hx, hn⟩
      refine ⟨List.mem_cons_of_mem _ hx, fun hb => ?_⟩
      rcases List.mem_cons.1 hb with rfl | hb
      · have := hs.1 _ hx; omega
      · exact hn hb
    · rintro ⟨hx, hn⟩
      rcases List.mem_cons.1 hx with rfl | hx
      · exact absurd List.mem_cons_self hn
      · exact ⟨hx, fun hb => hn (List.mem_cons_of_mem _ hb)⟩

theorem sublist_without (s t : List Nat) : (without s t).Sublist s := by
  fun_induction without s t with
  | case1 => exact .slnil
  | case2 => exact List.Sublist.refl _
  | case3 a s b t h ih => exact ih.cons_cons a
  | case4 a s b t h h' ih => exact ih
  | case5 a s b t h h' ih => exact ih.cons a

def union (s t : Positions) : Positions := ⟨merge s.toList t.toList, sorted_merge s.sorted t.sorted⟩

instance : Union Positions := ⟨union⟩

def diff (s t : Positions) : Positions :=
  ⟨without s.toList t.toList, s.sorted.sublist (sublist_without _ _)⟩

instance : SDiff Positions := ⟨diff⟩

/-- The union of what `f` gives for each member. -/
def bind (s : Positions) (f : Nat → Positions) : Positions := s.toList.foldr (fun n acc => f n ∪ acc) empty

theorem mem_def {s : Positions} {n : Nat} : n ∈ s ↔ n ∈ s.toList := Iff.rfl

@[simp] theorem not_mem_empty (n : Nat) : n ∉ empty := by simp [mem_def, empty]

@[simp] theorem mem_single {n m : Nat} : n ∈ single m ↔ n = m := by simp [mem_def, single]

@[simp] theorem mem_union {s t : Positions} {n : Nat} : n ∈ s ∪ t ↔ n ∈ s ∨ n ∈ t := mem_merge

@[simp] theorem mem_diff {s t : Positions} {n : Nat} : n ∈ s \ t ↔ n ∈ s ∧ n ∉ t := mem_without s.sorted t.sorted

@[simp] theorem mem_bind {s : Positions} {f : Nat → Positions} {n : Nat} : n ∈ s.bind f ↔ ∃ m ∈ s, n ∈ f m := by
  obtain ⟨l, hl⟩ := s
  simp only [bind, mem_def]
  clear hl
  induction l with
  | nil => simp [empty]
  | cons a l ih =>
    have := @mem_union (f a) (l.foldr (fun n acc => f n ∪ acc) empty) n
    simp only [mem_def] at this
    simp [this, ih]

end Positions

/-- The state of a repeated step: how many rounds were made, the positions that the next round starts from, those
reached by an allowed number of rounds, and those that rounds started from. -/
structure Sweep where
  rounds : Nat
  frontier : Positions
  reached : Positions
  tried : Positions

namespace Sweep

instance : Inhabited Sweep := ⟨⟨0, .empty, .empty, .empty⟩⟩

/-- Before the first round only a range that allows none has reached anything. -/
def start (o : Occurs) (pos : Nat) : Sweep :=
  ⟨0, .single pos, if o.min = 0 then .single pos else .empty, .empty⟩

def finished (o : Occurs) (s : Sweep) : Bool := s.frontier.isEmpty || !o.allowsMore s.rounds

/-- One round. From the minimum on only new positions are followed up. Below it a round that ends where it started
would only repeat itself, so the minimum is met at once. -/
def next (o : Occurs) (step : Nat → Positions) (s : Sweep) : Sweep :=
  let ends := s.frontier.bind step
  let tried := s.frontier ∪ s.tried
  if o.min ≤ s.rounds + 1 then ⟨s.rounds + 1, ends \ s.reached, ends ∪ s.reached, tried⟩
  else if ends = s.frontier then ⟨s.rounds + 1, .empty, ends ∪ s.reached, tried⟩
  else ⟨s.rounds + 1, ends, s.reached, tried⟩

def run (o : Occurs) (step : Nat → Positions) : (fuel : Nat) → Sweep → Sweep
  | 0, s => s
  | fuel + 1, s => if s.finished o then s else run o step fuel (s.next o step)

end Sweep

/-- All rounds of a step from `pos`, for positions up to `last`. Below the minimum there are at most as many rounds
as the minimum, and later rounds each reach a new position. -/
def sweep (o : Occurs) (step : Nat → Positions) (last pos : Nat) : Sweep :=
  Sweep.run o step (o.min + last + 2) (Sweep.start o pos)

/-- A function on the positions up to `last` whose values are computed when they are first asked for. -/
structure Table (α : Type) where
  cells : Array (Thunk α)

namespace Table

def tabulate {α : Type} (last : Nat) (f : Nat → α) : Table α :=
  ⟨Array.ofFn fun i : Fin (last + 1) => Thunk.mk fun _ => f i⟩

def get {α : Type} [Inhabited α] (t : Table α) (i : Nat) : α :=
  match t.cells[i]? with
  | some cell => cell.get
  | none => default

@[simp] theorem get_tabulate {α : Type} [Inhabited α] (last : Nat) (f : Nat → α) (i : Nat) (h : i ≤ last) :
    (tabulate last f).get i = f i := by
  simp [get, tabulate, Nat.lt_succ_of_le h, Thunk.get]

end Table

end XmlSchema
