import XmlSchema.Proofs.Content.Matchers
import XmlSchema.Proofs.Schema.Reading

/-!
Where local elements stand. Reading leaves each of them behind, to be read later, and what it reads refers to no local
elements but these and those of the definitions that it refers to.
-/

namespace XmlSchema.Schema

/-! ### Items -/

namespace Item

/-- Induction over items: what holds of an item may be shown from what holds of the items in it. -/
@[elab_as_elim]
theorem induct {P : Item → Prop} (mk : ∀ tag path foreign inner, (∀ i ∈ inner, P i) → P (.mk tag path foreign inner))
    (i : Item) : P i :=
  Item.rec (motive_1 := P) (motive_2 := fun items => ∀ i ∈ items, P i) mk (by simp)
    (fun _ _ h hs => List.forall_mem_cons.2 ⟨h, hs⟩) i

theorem le_heightsFrom (h : Nat) (items : List Item) :
    h ≤ heightsFrom h items ∧ ∀ i ∈ items, i.height ≤ heightsFrom h items := by
  induction items generalizing h with
  | nil => simp [heightsFrom]
  | cons i items ih =>
      obtain ⟨hle, hitems⟩ := ih (max h i.height)
      rw [heightsFrom]
      exact ⟨by omega, List.forall_mem_cons.2 ⟨by omega, hitems⟩⟩

theorem height_lt_of_mem_items {i j : Item} (h : j ∈ i.items) : j.height < i.height := by
  obtain ⟨tag, path, foreign, inner⟩ := i
  have := (le_heightsFrom 0 inner).2 j h
  rw [height]
  omega

/-- An item stands at or inside another one. -/
inductive Within : Item → Item → Prop
  | refl (i : Item) : Within i i
  | inside {j m i : Item} (hm : m ∈ i.items) (h : Within j m) : Within j i

namespace Within

theorem of_mem {i j : Item} (h : j ∈ i.items) : j.Within i := .inside h (.refl j)

theorem trans {i j k : Item} (h : k.Within j) (h' : j.Within i) : k.Within i := by
  induction h' with
  | refl => exact h
  | inside hm _ ih => exact .inside hm ih

theorem height_le {i j : Item} (h : j.Within i) : j.height ≤ i.height := by
  induction h with
  | refl => exact Nat.le_refl _
  | inside hm _ ih => exact Nat.le_trans ih (Nat.le_of_lt (height_lt_of_mem_items hm))

end Within

end Item

/-! ### Places of local elements -/

/-- Whether a particle is read at all: one that may not occur is not. -/
def mayOccur (i : Item) : Bool :=
  match occurs i with
  | .ok o => o.max ≠ some 0
  | .error _ => false

mutual

/-- The paths of the local elements in a particle. -/
def particlePaths : Item → List (List Nat)
  | .mk tag path foreign inner =>
    let i := Item.mk tag path foreign inner
    if !mayOccur i then []
    else if i.is "element" then if (i.getFull? "ref").isSome then [] else [path]
    else if i.is "any" then []
    else if (compositor? i.kind).isSome then particlePathsOfAll inner
    else []

def particlePathsOfAll : List Item → List (List Nat)
  | [] => []
  | i :: later => particlePaths i ++ particlePathsOfAll later

end

def modelPaths : List Item → List (List Nat)
  | [] => []
  | first :: _ => if first.isAmong modelKinds then particlePaths first else []

/-- The paths of the local elements in a complex type, but for those in the types of local elements. -/
def typePaths (i : Item) : List (List Nat) :=
  match i.items with
  | [] => []
  | first :: later =>
    if first.is "simpleContent" then []
    else if first.is "complexContent" then first.items.flatMap fun body => modelPaths body.items
    else modelPaths (first :: later)

def definitionPaths (key : DefinitionKey) (i : Item) : List (List Nat) :=
  match key.kind with
  | .type => if i.is "complexType" then typePaths i else []
  | .group => particlePathsOfAll i.items
  | _ => []

/-! ### What is left behind -/

/-- A local element of a definition as it is left behind: it stands at or inside an item, and is known by its place. -/
structure PendingElement.StandsIn (e : PendingElement) (owner : DefinitionKey) (i : Item) : Prop where
  owned : e.owner = owner
  key : e.key = .inside owner e.item.path
  within : e.item.Within i
  headless : e.declaration.head = none

/-- A reading leaves behind local elements inside an item: one for every path, in their order. -/
def Leaves (owner : DefinitionKey) (i : Item) (paths : List (List Nat)) (t t' : Traces) : Prop :=
  ∃ left, t'.elements = left ++ t.elements ∧ (∀ e ∈ left, e.StandsIn owner i) ∧
    left.map (·.item.path) = paths.reverse

namespace Leaves

variable {owner : DefinitionKey} {i : Item} {paths later : List (List Nat)} {t t₁ t' : Traces}

theorem none (h : t'.elements = t.elements) : Leaves owner i [] t t' := ⟨[], h, by simp, rfl⟩

theorem one {e : PendingElement} (he : e.StandsIn owner i) (h : t'.elements = e :: t.elements) :
    Leaves owner i [e.item.path] t t' :=
  ⟨[e], h, List.forall_mem_singleton.2 he, rfl⟩

theorem append (h : Leaves owner i paths t t₁) (h' : Leaves owner i later t₁ t') :
    Leaves owner i (paths ++ later) t t' := by
  obtain ⟨left, he, hleft, hpaths⟩ := h
  obtain ⟨left', he', hleft', hlater⟩ := h'
  refine ⟨left' ++ left, by rw [he', he, List.append_assoc], List.forall_mem_append.2 ⟨hleft', hleft⟩, ?_⟩
  rw [List.map_append, hlater, hpaths, List.reverse_append]

theorem mono {j : Item} (h : Leaves owner j paths t t') (hj : j.Within i) : Leaves owner i paths t t' := by
  obtain ⟨left, he, hleft, hpaths⟩ := h
  exact ⟨left, he, fun e he => { hleft e he with within := (hleft e he).within.trans hj }, hpaths⟩

theorem congr (h : Leaves owner i paths t t₁) (he : t'.elements = t₁.elements) : Leaves owner i paths t t' := by
  obtain ⟨left, he', hleft⟩ := h
  exact ⟨left, he.trans he', hleft⟩

/-- An element of every path is left behind. -/
theorem exists_of_mem {left : List PendingElement} (hleft : ∀ e ∈ left, e.StandsIn owner i)
    (hpaths : left.map (·.item.path) = paths.reverse) {path : List Nat} (h : path ∈ paths) :
    ∃ e ∈ left, e.key = .inside owner path := by
  obtain ⟨e, he, rfl⟩ := List.mem_map.1 (hpaths ▸ List.mem_reverse.2 h)
  exact ⟨e, he, (hleft e he).key⟩

end Leaves

section

variable {s : Scope} {owner : DefinitionKey} {i : Item} {t t' : Traces}

theorem readMembers_leaves {items : List Item}
    (ih : ∀ j ∈ items, ∀ t x t', readParticle s owner j t = .ok (x, t') → Leaves owner i (particlePaths j) t t')
    {compositor : Compositor} {read members : List Particle}
    (h : readMembers s owner compositor read items t = .ok (members, t')) :
    Leaves owner i (particlePathsOfAll items) t t' := by
  induction items generalizing read t with
  | nil =>
      obtain ⟨_, rfl⟩ := readMembers_nil_ok h
      exact .none rfl
  | cons i items ihitems =>
      obtain ⟨ihi, ih⟩ := List.forall_mem_cons.1 ih
      obtain ⟨x, t₁, hx, _, h⟩ := readMembers_cons_ok h
      exact (ihi t x t₁ hx).append (ihitems ih h)

theorem readElementParticle_leaves {o : Occurs} {p : Particle} (h : readElementParticle s owner o i t = .ok (p, t')) :
    Leaves owner i (if (i.getFull? "ref").isSome then [] else [i.path]) t t' := by
  rcases readElementParticle_ok h with ⟨ref, name, hr, _, _, rfl⟩ | ⟨hr, x, hx, _⟩
  · rw [hr]
    exact .none rfl
  · obtain ⟨_, d, _, hhead, rfl⟩ := readLocalElement_ok hx
    rw [hr]
    exact .one (e := ⟨_, owner, i, d⟩) ⟨rfl, rfl, .refl i, hhead⟩ rfl

theorem readParticle_leaves (i : Item) : ∀ t x t', readParticle s owner i t = .ok (x, t') →
    Leaves owner i (particlePaths i) t t' := by
  induction i using Item.induct with
  | mk tag path foreign inner ih =>
      intro t x t' h
      obtain ⟨o, ho, hread⟩ := readParticle_ok h
      have hoccur : mayOccur (.mk tag path foreign inner) = (decide (o.max ≠ some 0)) := by rw [mayOccur, ho]
      rw [particlePaths]
      simp only [hoccur]
      cases hread with
      | absent hmax ht =>
          rw [if_pos (by simp [hmax])]
          exact .none (by rw [ht])
      | element hmax hi p hp =>
          rw [if_neg (by simp [hmax]), if_pos hi]
          exact readElementParticle_leaves hp
      | wildcard hmax he hi w hw ht =>
          rw [if_neg (by simp [hmax]), if_neg (by simp [he]), if_pos hi]
          exact .none (by rw [ht])
      | reference hmax he ha hi p hp =>
          rw [if_neg (by simp [hmax]), if_neg (by simp [he]), if_neg (by simp [ha]), if_neg (by simp [hi])]
          exact .none (by rw [(readGroupReference_ok hp).1])
      | group hmax he ha compositor hi members hmembers hall =>
          rw [if_neg (by simp [hmax]), if_neg (by simp [he]), if_neg (by simp [ha]), if_pos (by simp [hi])]
          refine readMembers_leaves (fun i hi t x t' h => ?_) hmembers
          exact (ih i hi t x t' h).mono (.of_mem hi)

theorem readModel_leaves {items rest : List Item} (hitems : ∀ j ∈ items, j.Within i) {model : Option Particle}
    (h : readModel s owner items t = .ok ((model, rest), t')) : Leaves owner i (modelPaths items) t t' := by
  rcases readModel_ok h with ⟨_, _, rfl, hkind⟩ | ⟨first, later, rfl, hkind, _, h⟩
  · cases items with
    | nil => exact .none rfl
    | cons first later =>
        rw [modelPaths, if_neg (by simp [hkind first later rfl])]
        exact .none rfl
  · rw [modelPaths, if_pos hkind]
    exact (readParticle_leaves first t model t' h).mono (hitems first List.mem_cons_self)

theorem readComplexType_leaves {name : Option Name} {x : ComplexType}
    (h : readComplexType s owner name i t = .ok (x, t')) : Leaves owner i (typePaths i) t t' := by
  cases readComplexType_ok h with
  | simple first later hi hs isAbstract h =>
      rw [typePaths, hi]
      simp only [hs, if_true]
      exact .none (readSimpleContent_ok h).2
  | complex first later hi hs hc isAbstract mixed h =>
      obtain ⟨d, base, mixed', model, rest, t₁, hd, _, _, hmodel, he, _⟩ := readComplexContent_ok h
      have hbody := (readDerivation_ok hd).1
      rw [typePaths, hi]
      simp only [hs, hc, if_true, hbody, List.flatMap_singleton]
      have hfirst : first ∈ i.items := hi ▸ List.mem_cons_self
      have hd : d.body ∈ first.items := hbody ▸ List.mem_singleton_self d.body
      exact (readModel_leaves (fun j hj => .inside hfirst (.inside hd (.of_mem hj))) hmodel).congr he
  | declared hi isAbstract mixed h =>
      obtain ⟨model, rest, t₁, hmodel, he, _⟩ := readDeclaredType_ok h
      have hpaths : typePaths i = modelPaths i.items := by
        rw [typePaths]
        cases hitems : i.items with
        | nil => rfl
        | cons first later =>
            obtain ⟨hs, hc⟩ := hi first later hitems
            simp [hs, hc]
      rw [hpaths]
      exact (readModel_leaves (fun j => .of_mem) hmodel).congr he

end

end XmlSchema.Schema
