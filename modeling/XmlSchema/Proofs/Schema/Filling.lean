import XmlSchema.Proofs.Schema.DeclarationOrder
import XmlSchema.Proofs.Schema.Positions

/-!
How the elements of a schema are filled. They wait in a queue, behind which come those that filling one leaves behind;
since these stand deeper, the queue gets empty, and since they stand at places of their own, no element is filled twice.
An element that is left without a type takes over that of its head, and one of its heads has a type of its own.
-/

namespace XmlSchema.Schema

variable {s : Scope} {depth : Nat} {pending queue : List PendingElement} {read : List ReadElement}

/-! ### The queue -/

/-- Fills the elements in a queue one after the other, each with what it leaves behind put at the end, till none
waits. -/
inductive Drains (s : Scope) : List PendingElement → List ReadElement → Prop
  | done : Drains s [] []
  | next {p : PendingElement} {queue : List PendingElement} {e : ReadElement} {left : Traces} {read : List ReadElement}
      (h : readElementType s p {} = .ok (e, left)) (later : Drains s (queue ++ left.elements.reverse) read) :
      Drains s (p :: queue) (e :: read)

namespace Drains

theorem readable_next {p : PendingElement} (hp : Readable s p)
    (later : Drains s (queue ++ (outcome s p).2.elements.reverse) read) :
    Drains s (p :: queue) ((outcome s p).1 :: read) := by
  obtain ⟨x, hx⟩ := hp
  rw [outcome_eq hx] at later ⊢
  exact .next hx later

/-- After all elements of a level come those that they have left behind, in their order. -/
theorem level (hpending : ∀ p ∈ pending, Readable s p)
    (later : Drains s (queue ++ pending.flatMap fun p => (outcome s p).2.elements.reverse) read) :
    Drains s (pending ++ queue) (pending.map (fun p => (outcome s p).1) ++ read) := by
  induction pending generalizing queue with
  | nil => simpa using later
  | cons p pending ih =>
      obtain ⟨hp, hpending⟩ := List.forall_mem_cons.1 hpending
      rw [List.map_cons, List.cons_append, List.cons_append]
      refine readable_next hp ?_
      rw [List.append_assoc]
      refine ih hpending ?_
      rwa [List.append_assoc, ← List.flatMap_cons (f := fun p => (outcome s p).2.elements.reverse)]

theorem height_lt {p q : PendingElement} (hq : q ∈ (outcome s p).2.elements) : q.item.height < p.item.height := by
  obtain ⟨i, hi, hq⟩ := standsIn_of_mem_outcome hq
  exact Nat.lt_of_le_of_lt hq.within.height_le (Item.height_lt_of_mem_items hi)

/-- As many levels as the greatest height of an item are all that there are. -/
theorem of_levels (hheight : ∀ p ∈ pending, p.item.height < depth)
    (hread : ∀ p ∈ levels s depth pending, Readable s p) :
    Drains s pending ((levels s depth pending).map fun p => (outcome s p).1) := by
  induction depth generalizing pending with
  | zero =>
      cases pending with
      | nil => exact .done
      | cons p pending => exact absurd (hheight p List.mem_cons_self) (Nat.not_lt_zero _)
  | succ depth ih =>
      rw [levels, List.forall_mem_append] at hread
      rw [levels, List.map_append]
      have hlater := ih (fun q hq => ?_) hread.2
      · rw [← List.nil_append (List.flatMap _ pending)] at hlater
        have hlevel := level hread.1 hlater
        rwa [List.append_nil] at hlevel
      · obtain ⟨p, hp, hq⟩ := List.mem_flatMap.1 hq
        have hlt := height_lt (List.mem_reverse.1 hq)
        exact Nat.lt_of_lt_of_le hlt (Nat.le_of_lt_succ (hheight p hp))

end Drains

/-! ### Places -/

namespace PendingElement

/-- The place of an element: the definition in which it stands or the element that it is, and its path there. -/
def place (p : PendingElement) : DefinitionKey × List Nat := (p.owner, p.item.path)

/-- Two elements stand apart, in different definitions or in different items of one. -/
def StandsApart (p q : PendingElement) : Prop := p.owner = q.owner → Apart p.item.path q.item.path

variable {p q p' q' : PendingElement}

instance : Std.Symm StandsApart := ⟨fun _ _ h ho => (h ho.symm).symm⟩

/-- An element stands inside another one of the same definition. -/
def Beneath (q p : PendingElement) : Prop := q.owner = p.owner ∧ p.item.path <:+ q.item.path

theorem StandsApart.beneath (h : p.StandsApart q) (hp : p'.Beneath p) (hq : q'.Beneath q) : p'.StandsApart q' :=
  fun ho => (h (hp.1.symm.trans (ho.trans hq.1))).extend hp.2 hq.2

theorem StandsApart.place_ne (h : p.StandsApart q) : p.place ≠ q.place := by
  intro he
  obtain ⟨ho, hpath⟩ := Prod.mk.inj he
  exact (h ho).1 (hpath ▸ List.suffix_rfl)

end PendingElement

open PendingElement

theorem Leaves.pairwise {owner : DefinitionKey} {i : Item} {paths : List (List Nat)} {t : Traces}
    (h : Leaves owner i paths {} t) (hpaths : Spread i paths) : t.elements.reverse.Pairwise StandsApart := by
  obtain ⟨left, he, _, hleft⟩ := h
  have hmap : t.elements.reverse.map (·.item.path) = paths := by
    rw [he, List.append_nil, List.map_reverse, hleft, List.reverse_reverse]
  have hapart := hpaths.apart
  rw [← hmap, List.pairwise_map] at hapart
  exact hapart.imp fun {p q} h (_ : p.owner = q.owner) => h

section

variable {p q : PendingElement}

/-- What an element leaves behind stands inside it. -/
theorem beneath_of_mem_outcome (hp : p.item.Placed) (hq : q ∈ (outcome s p).2.elements) :
    q.Beneath p ∧ p.item.path.length < q.item.path.length ∧ q.item.Placed := by
  obtain ⟨i, hi, hq⟩ := standsIn_of_mem_outcome hq
  have hplaced := hp.within (.of_mem hi)
  obtain ⟨k, _, hpath⟩ := hp.exists_position hi
  have hsuffix := hplaced.suffix hq.within
  refine ⟨⟨hq.owned, (hp.suffix_of_mem hi).trans hsuffix⟩, ?_, hplaced.within hq.within⟩
  have hle := hsuffix.length_le
  rw [hpath, List.length_cons] at hle
  exact hle

theorem outcome_pairwise (hp : p.item.Placed) : (outcome s p).2.elements.reverse.Pairwise StandsApart := by
  rcases outcome_leaves s p with h | ⟨i, hi, h⟩
  · rw [h]
    exact .nil
  · exact h.pairwise (typePaths_spread (hp.within (.of_mem hi)))

theorem beneath_of_mem_levels (hplaced : ∀ p ∈ pending, p.item.Placed) :
    ∀ q ∈ levels s depth pending, q.item.Placed ∧ ∃ p ∈ pending, q.Beneath p := by
  refine levels_forall (fun p hp q hq => ?_) fun p hp => ⟨hplaced p hp, p, hp, rfl, List.suffix_rfl⟩
  obtain ⟨hplaced, p', hp', hbeneath⟩ := hp
  obtain ⟨⟨howner, hsuffix⟩, _, hq⟩ := beneath_of_mem_outcome hplaced hq
  exact ⟨hq, p', hp', howner.trans hbeneath.1, hbeneath.2.trans hsuffix⟩

theorem left_pairwise (hplaced : ∀ p ∈ pending, p.item.Placed) (h : pending.Pairwise StandsApart) :
    (pending.flatMap fun p => (outcome s p).2.elements.reverse).Pairwise StandsApart := by
  refine List.pairwise_flatMap.2 ⟨fun p hp => outcome_pairwise (hplaced p hp), h.imp_of_mem ?_⟩
  intro p q hp hq hapart x hx y hy
  exact hapart.beneath (beneath_of_mem_outcome (hplaced p hp) (List.mem_reverse.1 hx)).1
    (beneath_of_mem_outcome (hplaced q hq) (List.mem_reverse.1 hy)).1

/-- No place comes twice on all levels, if those that wait stand apart. -/
theorem levels_places_nodup (hplaced : ∀ p ∈ pending, p.item.Placed) (h : pending.Pairwise StandsApart) :
    ((levels s depth pending).map place).Nodup := by
  induction depth generalizing pending with
  | zero => exact .nil
  | succ depth ih =>
      have hleft : ∀ q ∈ pending.flatMap fun p => (outcome s p).2.elements.reverse, q.item.Placed := by
        intro q hq
        obtain ⟨p, hp, hq⟩ := List.mem_flatMap.1 hq
        exact (beneath_of_mem_outcome (hplaced p hp) (List.mem_reverse.1 hq)).2.2
      rw [levels]
      refine Registry.nodup_map_append ?_ (ih hleft (left_pairwise hplaced h)) fun p hp q hq => ?_
      · exact List.pairwise_map.2 (h.imp StandsApart.place_ne)
      -- what stands deeper stands inside one of those that wait, which is `p` or stands apart from it
      obtain ⟨_, y, hy, howner, hsuffix⟩ := beneath_of_mem_levels hleft q hq
      obtain ⟨p', hp', hy⟩ := List.mem_flatMap.1 hy
      obtain ⟨⟨howner', hsuffix'⟩, hlt, _⟩ := beneath_of_mem_outcome (hplaced p' hp') (List.mem_reverse.1 hy)
      by_cases he : p = p'
      · subst he
        intro hplace
        have hpath : p.item.path = q.item.path := (Prod.mk.inj hplace).2
        have := hsuffix.length_le
        rw [hpath] at hlt
        omega
      · have hapart : p.StandsApart p' := h.forall hp hp' he
        exact (hapart.beneath ⟨rfl, List.suffix_rfl⟩ ⟨howner.trans howner', hsuffix'.trans hsuffix⟩).place_ne

end

/-! ### All elements -/

namespace Registry

/-- The item of a definition or a declaration. -/
def top? (r : Registry) (key : DefinitionKey) : Option Item :=
  match key.kind with
  | .element => (r.elements.map fun e => (e.declaration.name, e.item)).lookup key.name
  | _ => r.item? key

/-- Everything that is registered stands at the top of a schema. -/
structure Outermost (r : Registry) : Prop extends r.Distinct where
  definitionItems : ∀ d ∈ r.definitions, d.item.Placed ∧ d.item.path = []
  elementItems : ∀ e ∈ r.elements, e.item.Placed ∧ e.item.path = []

theorem ofRoot_outermost {root : Xml.Element} {r : Registry} (h : ofRoot root = .ok r) : r.Outermost := by
  have hitems := ofRoot_items (P := fun i => i.Placed ∧ i.path = []) (fun e _ => ⟨Item.placed_ofTag _ _, rfl⟩) h
  exact ⟨ofRoot_distinct h, hitems.1, hitems.2⟩

variable {r : Registry} {key : DefinitionKey} {i : Item}

theorem Outermost.of_item? (hr : r.Outermost) (h : r.item? key = some i) : i.Placed ∧ i.path = [] := by
  obtain ⟨d, hd, _, rfl⟩ := exists_definition_of_item? h
  exact hr.definitionItems d hd

theorem top?_of_item? (hkind : key.kind ≠ .element) (h : r.item? key = some i) : r.top? key = some i := by
  rw [top?]
  split
  · next hk => exact absurd hk hkind
  · exact h

theorem top?_of_mem (hr : r.Distinct) {e : PendingElement} (he : e ∈ r.elements) : r.top? e.owner = some e.item := by
  rw [(hr.named e he).2]
  refine lookup_of_mem ?_ (List.mem_map_of_mem he)
  rw [List.map_map]
  exact hr.elements

end Registry

section

variable {r : Registry} {table : DefinitionKey → Option Component} {order : List DefinitionKey}

theorem tracesOf_pairwise (hr : r.Outermost) (key : DefinitionKey) :
    (tracesOf r s table key).elements.reverse.Pairwise StandsApart := by
  rcases tracesOf_leaves r s table key with h | ⟨i, hi, _, h⟩
  · rw [h]
    exact .nil
  · exact h.pairwise (definitionPaths_spread (hr.of_item? hi).1 key)

theorem pendingElements_pairwise (hr : r.Outermost) (horder : order.Nodup) :
    (pendingElements r s table order).Pairwise StandsApart := by
  have hnames : r.elements.reverse.Pairwise fun p q => p.declaration.name ≠ q.declaration.name := by
    have hnodup := List.nodup_reverse.2 hr.elements
    rw [← List.map_reverse] at hnodup
    exact List.pairwise_map.1 hnodup
  refine List.pairwise_append.2 ⟨?_, List.pairwise_flatMap.2 ⟨fun key _ => tracesOf_pairwise hr key, ?_⟩, ?_⟩
  · refine hnames.imp_of_mem fun {p q} hp hq hne ho => absurd ?_ hne
    rw [(hr.named p (List.mem_reverse.1 hp)).2, (hr.named q (List.mem_reverse.1 hq)).2] at ho
    exact congrArg DefinitionKey.name ho
  · refine horder.imp fun {a b} hne p hp q hq ho => absurd ?_ hne
    obtain ⟨_, _, _, hp⟩ := standsIn_of_mem_tracesOf (List.mem_reverse.1 hp)
    obtain ⟨_, _, _, hq⟩ := standsIn_of_mem_tracesOf (List.mem_reverse.1 hq)
    exact hp.owned.symm.trans (ho.trans hq.owned)
  · intro p hp q hq ho
    obtain ⟨key, _, hq⟩ := List.mem_flatMap.1 hq
    obtain ⟨_, _, hkind, hq⟩ := standsIn_of_mem_tracesOf (List.mem_reverse.1 hq)
    rw [(hr.named p (List.mem_reverse.1 hp)).2, hq.owned] at ho
    exact absurd (congrArg DefinitionKey.kind ho).symm hkind

/-- An element that waits or has been left behind: a global one, or a local one inside what it belongs to. -/
def PendingElement.IsListed (r : Registry) (p : PendingElement) : Prop :=
  (p.key = .named ∧ p ∈ r.elements) ∨ ∃ i, r.top? p.owner = some i ∧ i.Placed ∧ i.path = [] ∧ p.StandsIn p.owner i

namespace PendingElement.IsListed

variable {p : PendingElement}

theorem exists_top (h : p.IsListed r) (hr : r.Outermost) :
    ∃ i, r.top? p.owner = some i ∧ i.Placed ∧ i.path = [] ∧ p.item.Within i := by
  rcases h with ⟨_, h⟩ | ⟨i, hi, hplaced, hpath, h⟩
  · exact ⟨p.item, Registry.top?_of_mem hr.toDistinct h, (hr.elementItems p h).1, (hr.elementItems p h).2, .refl _⟩
  · exact ⟨i, hi, hplaced, hpath, h.within⟩

/-- The place of an element leads to its item. -/
theorem at?_eq (h : p.IsListed r) (hr : r.Outermost) :
    ∃ i, r.top? p.owner = some i ∧ i.at? p.item.path.reverse = some p.item := by
  obtain ⟨i, hi, hplaced, hpath, hwithin⟩ := h.exists_top hr
  obtain ⟨steps, hsteps, hat⟩ := hplaced.at?_eq hwithin
  rw [hpath, List.append_nil] at hsteps
  exact ⟨i, hi, by rwa [hsteps, List.reverse_reverse]⟩

theorem mem_of_named (h : p.IsListed r) (hk : p.key = .named) : p ∈ r.elements := by
  rcases h with ⟨_, h⟩ | ⟨_, _, _, _, h⟩
  · exact h
  · exact nomatch hk.symm.trans h.key

theorem headless (h : p.IsListed r) (hk : p.key ≠ .named) : p.declaration.head = none := by
  rcases h with ⟨hnamed, _⟩ | ⟨_, _, _, _, h⟩
  · exact absurd hnamed hk
  · exact h.headless

theorem of_mem_outcome (h : p.IsListed r) (hr : r.Outermost) {q : PendingElement}
    (hq : q ∈ (outcome s p).2.elements) : q.IsListed r := by
  obtain ⟨i, hi, hplaced, hpath, hwithin⟩ := h.exists_top hr
  obtain ⟨j, hj, hq⟩ := standsIn_of_mem_outcome hq
  refine .inr ⟨i, hq.owned ▸ hi, hplaced, hpath, rfl, hq.owned ▸ hq.key, ?_, hq.headless⟩
  exact hq.within.trans ((Item.Within.of_mem hj).trans hwithin)

end PendingElement.IsListed

theorem pendingElements_listed (hr : r.Outermost) : ∀ p ∈ pendingElements r s table order, p.IsListed r := by
  refine List.forall_mem_append.2 ⟨fun p hp => ?_, fun p hp => ?_⟩
  · have hp := List.mem_reverse.1 hp
    exact .inl ⟨(hr.named p hp).1, hp⟩
  · obtain ⟨key, _, hp⟩ := List.mem_flatMap.1 hp
    obtain ⟨i, hi, hkind, hp⟩ := standsIn_of_mem_tracesOf (List.mem_reverse.1 hp)
    obtain ⟨hplaced, hpath⟩ := hr.of_item? hi
    refine .inr ⟨i, ?_, hplaced, hpath, rfl, hp.owned ▸ hp.key, hp.within, hp.headless⟩
    rw [hp.owned]
    exact Registry.top?_of_item? hkind hi

theorem allElements_listed (hr : r.Outermost) : ∀ p ∈ allElements r s table order, p.IsListed r :=
  levels_forall (fun _ hp _ hq => hp.of_mem_outcome hr hq) (pendingElements_listed hr)

/-- No element comes twice. -/
theorem allElements_places_nodup (hr : r.Outermost) (horder : order.Nodup) :
    ((allElements r s table order).map place).Nodup := by
  refine levels_places_nodup (fun p hp => ?_) (pendingElements_pairwise hr horder)
  obtain ⟨i, _, hplaced, _, hwithin⟩ := (pendingElements_listed hr p hp).exists_top hr
  exact hplaced.within hwithin

theorem mem_allElements {p : PendingElement} (hp : p ∈ r.elements) : p ∈ allElements r s table order := by
  rw [allElements, levels]
  exact List.mem_append_left _ (List.mem_append_left _ (List.mem_reverse.2 hp))

theorem drains_allElements (hread : ∀ p ∈ allElements r s table order, Readable (s.knowing table) p) :
    Drains (s.knowing table) (pendingElements r s table order)
      ((allElements r s table order).map fun p => (outcome (s.knowing table) p).1) :=
  .of_levels (fun _ hp => Nat.lt_succ_of_le ((Item.le_heightsFrom 0 _).2 _ (List.mem_map_of_mem hp))) hread

end

end XmlSchema.Schema
