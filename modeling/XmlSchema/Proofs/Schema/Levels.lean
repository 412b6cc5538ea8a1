import XmlSchema.Proofs.Schema.Elements
import XmlSchema.Proofs.Schema.Lookups
import XmlSchema.Proofs.Schema.Scopes

/-!
All elements of a schema, level after level: those that stand in the types of elements come behind them. What reading an
element yields does not depend on where it starts, so reading them all comes to reading each of them; and what stands in
the type of an element belongs to the same definition as the element, so elements of different definitions do not get
in each other's way.
-/

namespace XmlSchema.Schema

variable {α β : Type} {s s' : Scope} {t t' : Traces} {depth : Nat} {pending pending' : List PendingElement}

/-! ### What is left behind one after the other -/

/-- What is left behind in all, the last first. -/
def Traces.gather (f : α → Traces) : List α → Traces
  | [] => {}
  | a :: l => gather f l ++ f a

namespace Traces

variable (f : α → Traces)

theorem foldl_eq_gather (l : List α) (t : Traces) : l.foldl (fun t a => f a ++ t) t = gather f l ++ t := by
  induction l generalizing t with
  | nil => rfl
  | cons a l ih => rw [List.foldl_cons, ih, gather, append_assoc]

theorem gather_append (l l' : List α) : gather f (l ++ l') = gather f l' ++ gather f l := by
  induction l with
  | nil => exact (append_empty _).symm
  | cons a l ih => rw [List.cons_append, gather, gather, ih, append_assoc]

theorem reverse_elements_gather (l : List α) :
    (gather f l).elements.reverse = l.flatMap fun a => (f a).elements.reverse := by
  induction l with
  | nil => rfl
  | cons a l ih => rw [gather, elements_append, List.reverse_append, ih, List.flatMap_cons]

theorem mem_attributes_gather {l : List α} {name : Name} :
    name ∈ (gather f l).attributes ↔ ∃ a ∈ l, name ∈ (f a).attributes := by
  induction l with
  | nil => simp [gather]
  | cons a l ih => simp [gather, ih, or_comm]

end Traces

theorem Reading.mapM_eq_ok {f : α → Reading β} {P : α → Prop} {yields : α → β} {leaves : α → Traces}
    (hf : ∀ a t b t', f a t = .ok (b, t') ↔ P a ∧ b = yields a ∧ t' = leaves a ++ t) {l : List α} {bs : List β} :
    l.mapM f t = .ok (bs, t') ↔ (∀ a ∈ l, P a) ∧ bs = l.map yields ∧ t' = Traces.gather leaves l ++ t := by
  induction l generalizing bs t t' with
  | nil =>
      rw [List.mapM_nil, Reading.pure_eq_ok]
      exact (and_congr eq_comm eq_comm).trans (by simp [Traces.gather, Traces.empty_append])
  | cons a l ih =>
      simp only [List.mapM_cons, Reading.bind_eq_ok, Reading.pure_eq_ok, hf, ih, List.forall_mem_cons, List.map_cons,
        Traces.gather, Traces.append_assoc]
      constructor
      · rintro ⟨_, _, ⟨ha, rfl, rfl⟩, _, _, ⟨hl, rfl, rfl⟩, rfl, rfl⟩
        exact ⟨⟨ha, hl⟩, rfl, rfl⟩
      · rintro ⟨⟨ha, hl⟩, rfl, rfl⟩
        exact ⟨_, _, ⟨ha, rfl, rfl⟩, _, _, ⟨hl, rfl, rfl⟩, rfl, rfl⟩

/-! ### One element -/

def Readable (s : Scope) (p : PendingElement) : Prop := ∃ x, readElementType s p {} = .ok x

/-- What reading the type of an element yields and leaves behind. -/
def outcome (s : Scope) (p : PendingElement) : ReadElement × Traces :=
  (readElementType s p {}).toOption.getD (⟨p, none⟩, {})

theorem outcome_eq {p : PendingElement} {x : ReadElement × Traces} (h : readElementType s p {} = .ok x) :
    outcome s p = x := by
  rw [outcome, h]
  rfl

theorem readElementType_eq_ok (p : PendingElement) (t : Traces) (e : ReadElement) (t' : Traces) :
    readElementType s p t = .ok (e, t') ↔ Readable s p ∧ e = (outcome s p).1 ∧ t' = (outcome s p).2 ++ t := by
  have hle := readElementType_le (.refl s) p
  constructor
  · intro h
    obtain ⟨left, rfl, hempty⟩ := hle.to_empty h
    rw [outcome_eq hempty]
    exact ⟨⟨_, hempty⟩, rfl, rfl⟩
  · rintro ⟨⟨x, hx⟩, rfl, rfl⟩
    rw [outcome_eq hx]
    exact hle.from_empty hx t

theorem pending_outcome (s : Scope) (p : PendingElement) : (outcome s p).1.pending = p := by
  rw [outcome]
  cases h : readElementType s p {} with
  | error e => rfl
  | ok x => exact (readElementType_ok h).1

/-- Whatever the type of an element leaves behind stands in one of the items inside the element. -/
theorem outcome_leaves (s : Scope) (p : PendingElement) : (outcome s p).2.elements = [] ∨
    ∃ i ∈ p.item.items, Leaves p.owner i (typePaths i) {} (outcome s p).2 := by
  rw [outcome]
  cases h : readElementType s p {} with
  | error e => exact .inl rfl
  | ok x =>
      have hread := readOwnType_ok (readElementType_ok h).2
      change x.2.elements = [] ∨ ∃ i ∈ p.item.items, Leaves p.owner i (typePaths i) {} x.2
      generalize x.1.type = type at hread
      cases hread with
      | complex first hi _ type htype => exact .inr ⟨first, List.mem_of_mem_filter hi, readComplexType_leaves htype⟩
      | named _ _ _ ht | simple _ ht | untyped _ ht | anything ht => exact .inl (by rw [ht])

theorem standsIn_of_mem_outcome {p q : PendingElement} (hq : q ∈ (outcome s p).2.elements) :
    ∃ i ∈ p.item.items, q.StandsIn p.owner i := by
  rcases outcome_leaves s p with h | ⟨i, hi, left, he, hleft, _⟩
  · exact absurd hq (h ▸ List.not_mem_nil)
  · exact ⟨i, hi, hleft q (by simpa [he] using hq)⟩

theorem outcome_congr (hs : s.Le s') (hs' : s'.Le s) (p : PendingElement) :
    outcome s' p = outcome s p ∧ (Readable s' p ↔ Readable s p) := by
  have hread (x : ReadElement × Traces) : readElementType s' p {} = .ok x ↔ readElementType s p {} = .ok x :=
    (readElementType_le hs' p).eq_ok_iff (readElementType_le hs p)
  refine ⟨?_, exists_congr hread⟩
  cases h : readElementType s p {} with
  | ok x => rw [outcome_eq h, outcome_eq ((hread x).2 h)]
  | error e =>
      cases h' : readElementType s' p {} with
      | ok x => exact nomatch h.symm.trans ((hread x).1 h')
      | error e' =>
          rw [outcome, outcome, h, h']
          rfl

/-! ### All elements -/

/-- Elements, then those that stand in their types, and so on down at most `depth` levels. -/
def levels (s : Scope) : (depth : Nat) → List PendingElement → List PendingElement
  | 0, _ => []
  | depth + 1, pending => pending ++ levels s depth (pending.flatMap fun p => (outcome s p).2.elements.reverse)

theorem levels_nil (s : Scope) (depth : Nat) : levels s depth [] = [] := by
  induction depth with
  | zero => rfl
  | succ depth ih =>
      rw [levels, List.nil_append, List.flatMap_nil]
      exact ih

theorem nothing_eq_ok {read : List ReadElement} (ht : t.elements = []) {l : List PendingElement} (hl : l = []) :
    [] = read ∧ t = t' ↔ (∀ p ∈ l, Readable s p) ∧ read = l.map (fun p => (outcome s p).1) ∧
      t' = ⟨[], (Traces.gather (fun p => (outcome s p).2) l).attributes ++ t.attributes⟩ := by
  obtain ⟨elements, attributes⟩ := t
  subst hl ht
  exact (and_congr eq_comm eq_comm).trans (by simp [Traces.gather])

theorem levels_congr (hs : s.Le s') (hs' : s'.Le s) (depth : Nat) (pending : List PendingElement) :
    levels s' depth pending = levels s depth pending := by
  induction depth generalizing pending with
  | zero => rfl
  | succ depth ih =>
      rw [levels, levels, ih]
      simp only [(outcome_congr hs hs' _).1]

/-- Reading elements comes to reading each of them on all levels. -/
theorem readElements_eq_ok {read : List ReadElement} (ht : t.elements = []) :
    readElements s depth pending t = .ok (read, t') ↔ (∀ p ∈ levels s depth pending, Readable s p) ∧
      read = (levels s depth pending).map (fun p => (outcome s p).1) ∧
      t' = ⟨[], (Traces.gather (fun p => (outcome s p).2) (levels s depth pending)).attributes ++ t.attributes⟩ := by
  induction depth generalizing pending read t t' with
  | zero =>
      rw [readElements, Reading.pure_eq_ok]
      exact nothing_eq_ok ht rfl
  | succ depth ih =>
      rw [readElements, Reading.ite_eq_ok, Reading.pure_eq_ok]
      simp only [Reading.bind_eq_ok, Reading.pure_eq_ok, Reading.get_eq_ok, Reading.set_eq_ok,
        Reading.mapM_eq_ok (readElementType_eq_ok (s := s))]
      by_cases hempty : pending.isEmpty = true
      · simp only [hempty, true_and, not_true_eq_false, false_and, or_false]
        exact nothing_eq_ok ht (by rw [List.isEmpty_iff.1 hempty, levels_nil])
      simp only [hempty, Bool.false_eq_true, false_and, false_or, not_false_eq_true, true_and]
      have hleft : ((Traces.gather (fun p => (outcome s p).2) pending ++ t).elements.reverse) =
          pending.flatMap fun p => (outcome s p).2.elements.reverse := by
        rw [Traces.elements_append, ht, List.append_nil, Traces.reverse_elements_gather]
      rw [levels, List.forall_mem_append, List.map_append, Traces.gather_append, Traces.attributes_append]
      constructor
      · rintro ⟨_, _, ⟨hpending, rfl, rfl⟩, _, _, ⟨rfl, rfl⟩, _, _, rfl, later, _, hlater, rfl, rfl⟩
        rw [hleft] at hlater
        obtain ⟨hlevels, rfl, rfl⟩ := (ih rfl).1 hlater
        exact ⟨⟨hpending, hlevels⟩, rfl, by rw [Traces.attributes_append, List.append_assoc]⟩
      · rintro ⟨⟨hpending, hlater⟩, rfl, rfl⟩
        refine ⟨_, _, ⟨hpending, rfl, rfl⟩, _, _, ⟨rfl, rfl⟩, ⟨⟩, _, rfl, _, _, ?_, rfl, rfl⟩
        rw [hleft]
        refine (ih rfl).2 ⟨hlater, rfl, ?_⟩
        rw [Traces.attributes_append, List.append_assoc]

/-! ### Elements of different definitions -/

/-- The definition in which the element of a key stands, or the element of this name itself. -/
def ownerOf (name : Name) : ElementKey → DefinitionKey
  | .named => ⟨.element, name⟩
  | .inside owner _ => owner

/-- An element belongs where its key tells. -/
def PendingElement.IsPlaced (p : PendingElement) : Prop := p.owner = ownerOf p.declaration.name p.key

/-- What holds of elements holds on all levels, if each passes it on to what it leaves behind. -/
theorem levels_forall {P : PendingElement → Prop} (hleft : ∀ p, P p → ∀ q ∈ (outcome s p).2.elements, P q)
    (h : ∀ p ∈ pending, P p) : ∀ p ∈ levels s depth pending, P p := by
  induction depth generalizing pending with
  | zero => simp [levels]
  | succ depth ih =>
      rw [levels, List.forall_mem_append]
      refine ⟨h, ih fun q hq => ?_⟩
      obtain ⟨p, hp, hq⟩ := List.mem_flatMap.1 hq
      exact hleft p (h p hp) q (List.mem_reverse.1 hq)

/-- How the elements of one definition lie among those of others makes no difference. -/
theorem levels_sameBy (h : SameBy (·.owner) pending pending') :
    SameBy (·.owner) (levels s depth pending) (levels s depth pending') := by
  induction depth generalizing pending pending' with
  | zero => exact fun _ => rfl
  | succ depth ih =>
      rw [levels, levels]
      refine h.append (ih (h.flatMap id fun p _ q hq => ?_))
      obtain ⟨_, _, hq⟩ := standsIn_of_mem_outcome (List.mem_reverse.1 hq)
      exact hq.owned.symm

theorem heightsFrom_le {h n : Nat} {items : List Item} (hh : h ≤ n) (hi : ∀ i ∈ items, i.height ≤ n) :
    Item.heightsFrom h items ≤ n := by
  induction items generalizing h with
  | nil =>
      rw [Item.heightsFrom]
      exact hh
  | cons i items ih =>
      obtain ⟨hi, hitems⟩ := List.forall_mem_cons.1 hi
      rw [Item.heightsFrom]
      exact ih (Nat.max_le.2 ⟨hh, hi⟩) hitems

theorem heightsFrom_subset {items items' : List Item} (h : items ⊆ items') :
    Item.heightsFrom 0 items ≤ Item.heightsFrom 0 items' :=
  heightsFrom_le (Nat.zero_le _) fun i hi => (Item.le_heightsFrom 0 items').2 i (h hi)

end XmlSchema.Schema
