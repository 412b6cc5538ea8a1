import Mathlib.Data.List.Infix
import XmlSchema.Proofs.Schema.Places

/-!
Positions of items. The path of an item tells its position on every level, so it leads back to the item; and items of
which neither stands inside the other have paths of which neither leads through the other. The local elements of a
definition are such items.
-/

namespace XmlSchema.Schema

/-! ### Paths -/

/-- Neither of two paths leads through the other's end. -/
def Apart (p q : List Nat) : Prop := ¬ p <:+ q ∧ ¬ q <:+ p

namespace Apart

variable {p q p' q' : List Nat}

theorem symm (h : Apart p q) : Apart q p := And.symm h

/-- What is inside of either is apart as well. -/
theorem extend (h : Apart p q) (hp : p <:+ p') (hq : q <:+ q') : Apart p' q' := by
  constructor
  · intro hpq
    exact (List.suffix_or_suffix_of_suffix (hp.trans hpq) hq).elim h.1 h.2
  · intro hqp
    exact (List.suffix_or_suffix_of_suffix hp (hq.trans hqp)).elim h.1 h.2

theorem of_ne {k l : Nat} (h : k ≠ l) (path : List Nat) : Apart (k :: path) (l :: path) := by
  have hne {k l : Nat} (h : k ≠ l) : ¬ (k :: path) <:+ (l :: path) := fun hs =>
    h (List.cons.inj (hs.eq_of_length (by simp))).1
  exact ⟨hne h, hne h.symm⟩

end Apart

/-! ### Items -/

namespace Item

/-- Every item inside goes by its position, on every level. -/
def Placed (i : Item) : Prop :=
  ∀ j : Item, j.Within i → ∀ (k : Nat) (m : Item), j.items[k]? = some m → m.path = k :: j.path

/-- The item to which positions lead, from the outermost level on. -/
def at? (i : Item) : List Nat → Option Item
  | [] => some i
  | k :: steps => i.items[k]?.bind (at? · steps)

theorem placed_mk {tag : Xml.Tag} {path : List Nat} {foreign : Option (Name × Nat)} {inner : List Item}
    (hpath : ∀ (k : Nat) (m : Item), inner[k]? = some m → m.path = k :: path) (hinner : ∀ m ∈ inner, m.Placed) :
    (mk tag path foreign inner).Placed := by
  intro j hj
  cases hj with
  | refl => exact hpath
  | inside hm h => exact hinner _ hm j h

namespace Placed

variable {i j : Item}

theorem within (h : i.Placed) (hj : j.Within i) : j.Placed := fun m hm => h m (hm.trans hj)

theorem exists_position (h : i.Placed) (hj : j ∈ i.items) : ∃ k : Nat, i.items[k]? = some j ∧ j.path = k :: i.path := by
  obtain ⟨k, hk⟩ := List.mem_iff_getElem?.1 hj
  exact ⟨k, hk, h i (.refl i) k j hk⟩

theorem suffix_of_mem (h : i.Placed) (hj : j ∈ i.items) : i.path <:+ j.path := by
  obtain ⟨k, _, hpath⟩ := h.exists_position hj
  exact hpath ▸ List.suffix_cons k i.path

theorem suffix (h : i.Placed) (hj : j.Within i) : i.path <:+ j.path := by
  induction hj with
  | refl => exact List.suffix_rfl
  | inside hm _ ih => exact (h.suffix_of_mem hm).trans (ih (h.within (.of_mem hm)))

/-- The path of an item leads to it. -/
theorem at?_eq (h : i.Placed) (hj : j.Within i) :
    ∃ steps : List Nat, j.path = steps.reverse ++ i.path ∧ i.at? steps = some j := by
  induction hj with
  | refl => exact ⟨[], rfl, rfl⟩
  | inside hm _ ih =>
      obtain ⟨k, hk, hpath⟩ := h.exists_position hm
      obtain ⟨steps, hsteps, hat⟩ := ih (h.within (.of_mem hm))
      refine ⟨k :: steps, by rw [hsteps, hpath]; simp, ?_⟩
      rw [at?, hk, Option.bind_some, hat]

end Placed

/-! ### Gathering -/

/-- What has been gathered inside an item of a path goes by its position. -/
structure Gathering.StandsAt (g : Gathering) (path : List Nat) : Prop where
  count : g.count = g.items.length
  path : ∀ (k : Nat) m, g.items.reverse[k]? = some m → m.path = k :: path
  placed : ∀ m ∈ g.items, m.Placed

namespace Gathering.StandsAt

variable {g : Gathering} {path : List Nat}

theorem add (h : g.StandsAt path) {m : Item} (hpath : m.path = g.count :: path) (hm : m.Placed) :
    Gathering.StandsAt { g with items := m :: g.items, count := g.count + 1 } path where
  count := by rw [h.count, List.length_cons]
  path := by
    intro k m' hk
    rw [List.reverse_cons, List.getElem?_append] at hk
    split at hk
    · exact h.path k m' hk
    · next hlast =>
        rw [List.getElem?_singleton] at hk
        split at hk
        · next hzero =>
            cases hk
            rw [List.length_reverse] at hlast hzero
            rw [hpath, h.count, show k = g.items.length by omega]
        · cases hk
  placed := List.forall_mem_cons.2 ⟨hm, h.placed⟩

theorem mk_placed (h : g.StandsAt path) (tag : Xml.Tag) : (Item.mk tag path g.foreign g.items.reverse).Placed :=
  placed_mk h.path fun m hm => h.placed m (List.mem_reverse.1 hm)

end Gathering.StandsAt

theorem standsAt_empty (path : List Nat) : Gathering.StandsAt {} path := ⟨rfl, by simp, by simp⟩

mutual

theorem gather_standsAt {path : List Nat} {g : Gathering} (h : g.StandsAt path) :
    (node : Xml.Node) → (gather (· :: path) g node).StandsAt path
  | .element tag content => by
    rw [gather]
    split
    · exact ⟨h.count, h.path, h.placed⟩
    split
    · exact h
    · exact h.add rfl ((gatherAll_standsAt (standsAt_empty _) content).mk_placed tag)
  | .text _ _ => h
  | .comment _ _ => h
  | .instruction _ _ _ => h

theorem gatherAll_standsAt {path : List Nat} {g : Gathering} (h : g.StandsAt path) :
    (nodes : List Xml.Node) → (gatherAll (· :: path) g nodes).StandsAt path
  | [] => h
  | node :: later => gatherAll_standsAt (gather_standsAt h node) later

end

theorem placed_ofTag (tag : Xml.Tag) (content : List Xml.Node) : (ofTag tag content).Placed :=
  (gatherAll_standsAt (standsAt_empty []) content).mk_placed tag

end Item

/-! ### Paths of local elements -/

/-- Paths inside an item, apart from each other. -/
structure Spread (i : Item) (paths : List (List Nat)) : Prop where
  inside : ∀ path ∈ paths, i.path <:+ path
  apart : paths.Pairwise Apart

namespace Spread

variable {i j : Item} {paths : List (List Nat)}

theorem nil (i : Item) : Spread i [] := ⟨by simp, .nil⟩

theorem self (i : Item) : Spread i [i.path] := ⟨by simp, List.pairwise_singleton _ _⟩

theorem of_mem (h : i.Placed) (hj : j ∈ i.items) (hpaths : Spread j paths) : Spread i paths :=
  ⟨fun path hpath => (h.suffix_of_mem hj).trans (hpaths.inside path hpath), hpaths.apart⟩

theorem flatMap (h : i.Placed) {f : Item → List (List Nat)} (hf : ∀ m ∈ i.items, Spread m (f m)) :
    Spread i (i.items.flatMap f) where
  inside := by
    intro path hpath
    obtain ⟨m, hm, hpath⟩ := List.mem_flatMap.1 hpath
    exact (of_mem h hm (hf m hm)).inside path hpath
  apart := by
    refine List.pairwise_flatMap.2 ⟨fun m hm => (hf m hm).apart, List.pairwise_iff_getElem.2 ?_⟩
    intro k l hk hl hlt p hp q hq
    have hpath (n : Nat) (hn : n < i.items.length) : i.items[n].path = n :: i.path :=
      h i (.refl i) n _ (List.getElem?_eq_getElem hn)
    refine (Apart.of_ne (Nat.ne_of_lt hlt) i.path).extend ?_ ?_
    · exact hpath k hk ▸ (hf _ (List.getElem_mem hk)).inside p hp
    · exact hpath l hl ▸ (hf _ (List.getElem_mem hl)).inside q hq

end Spread

theorem particlePathsOfAll_eq_flatMap (items : List Item) : particlePathsOfAll items = items.flatMap particlePaths := by
  induction items with
  | nil => rfl
  | cons i items ih => rw [particlePathsOfAll, ih, List.flatMap_cons]

theorem particlePaths_spread (i : Item) : i.Placed → Spread i (particlePaths i) := by
  induction i using Item.induct with
  | mk tag path foreign inner ih =>
      intro h
      rw [particlePaths]
      split
      · exact .nil _
      split
      · split
        · exact .nil _
        · exact .self _
      split
      · exact .nil _
      split
      · rw [particlePathsOfAll_eq_flatMap]
        exact .flatMap h fun m hm => ih m hm (h.within (.of_mem hm))
      · exact .nil _

theorem modelPaths_spread {i : Item} (h : i.Placed) : Spread i (modelPaths i.items) := by
  cases hi : i.items with
  | nil => exact .nil i
  | cons first later =>
      have hfirst : first ∈ i.items := hi ▸ List.mem_cons_self
      rw [modelPaths]
      split
      · exact .of_mem h hfirst (particlePaths_spread first (h.within (.of_mem hfirst)))
      · exact .nil i

theorem typePaths_spread {i : Item} (h : i.Placed) : Spread i (typePaths i) := by
  rw [typePaths]
  cases hi : i.items with
  | nil => exact .nil i
  | cons first later =>
      have hfirst : first ∈ i.items := hi ▸ List.mem_cons_self
      simp only
      split
      · exact .nil i
      split
      · refine .of_mem h hfirst (.flatMap (h.within (.of_mem hfirst)) fun body hbody => modelPaths_spread ?_)
        exact h.within (.inside hfirst (.of_mem hbody))
      · exact hi ▸ modelPaths_spread h

theorem definitionPaths_spread {i : Item} (h : i.Placed) (key : DefinitionKey) : Spread i (definitionPaths key i) := by
  rw [definitionPaths]
  split
  · split
    · exact typePaths_spread h
    · exact .nil i
  · rw [particlePathsOfAll_eq_flatMap]
    exact .flatMap h fun m hm => particlePaths_spread m (h.within (.of_mem hm))
  · exact .nil i

end XmlSchema.Schema
