import XmlSchema.Proofs.Schema.Limits
import XmlSchema.Proofs.Schema.Places

/-!
Reading of content with regard to the limits: whatever goes wrong is reported or lies beyond a limit, and the groups of
a content model nest no deeper than those of the item that it is read from.
-/

namespace XmlSchema

/-- As deep as a group is looked into, one of its members is. -/
theorem Particle.exists_emptinessDepth (members : List Particle) :
    emptinessDepthOfAll members = 0 ∨ ∃ p ∈ members, emptinessDepthOfAll members = p.emptinessDepth := by
  induction members with
  | nil => exact .inl rfl
  | cons p members ih =>
      rw [emptinessDepthOfAll]
      rcases Nat.le_total (if p.isEmptyGroup then emptinessDepthOfAll members else 0) p.emptinessDepth with h | h
      · exact .inr ⟨p, List.mem_cons_self, Nat.max_eq_left h⟩
      rw [Nat.max_eq_right h]
      split
      · refine ih.imp_right ?_
        rintro ⟨q, hq, heq⟩
        exact ⟨q, List.mem_cons_of_mem _ hq, heq⟩
      · exact .inl rfl

namespace Schema

variable {α β : Type} {root : Xml.Element} {r : Registry} {i j : Item} {m n : Nat}

/-! ### Kinds -/

theorem Item.isAmong_eq {kind : Text} (h : i.is kind = true) (kinds : List Text) :
    i.isAmong kinds = kinds.contains kind := by
  rw [Item.isAmong, of_decide_eq_true h]

/-! ### Nesting of what is read -/

/-- The groups of a particle nest no deeper than those of an item; that of an element or a wildcard does not nest. -/
structure Registry.Makes (r : Registry) (i : Item) (p : Particle) : Prop where
  leaf : i.isAmong ["element", "any"] = true → p.emptinessDepth = 0
  nests : r.Nests i p.emptinessDepth

namespace Registry.Nests

theorem mono (h : r.Nests i n) (hm : m ≤ n) : r.Nests i m := by
  cases h with
  | here hn => exact .here (hm.trans hn)
  | inside hj hkind h hn => exact .inside hj hkind h (hm.trans hn)
  | behind hkey hj h hn => exact .behind hkey hj h (hm.trans hn)

theorem of_item (hj : j ∈ i.items) (hkind : j.isAmong ["element", "any"] = false) (h : r.Nests j n) : r.Nests i n :=
  .inside hj hkind h (Nat.le_add_right ..)

/-- An item adds its own level to a particle that is made inside it. -/
theorem of_makes (hj : j ∈ i.items) {p : Particle} (h : r.Makes j p) (hn : n ≤ p.emptinessDepth + i.level) :
    r.Nests i n := by
  cases hkind : j.isAmong ["element", "any"] with
  | true => exact .here (by have := h.leaf hkind; omega)
  | false => exact .inside hj hkind h.nests hn

theorem group {members : List Particle} (h : ∀ p ∈ members, ∃ j ∈ i.items, r.Makes j p)
    (hn : n ≤ Particle.emptinessDepthOfAll members + i.level) : r.Nests i n := by
  rcases Particle.exists_emptinessDepth members with hzero | ⟨p, hp, heq⟩
  · exact .here (by omega)
  · obtain ⟨j, hj, hp⟩ := h p hp
    exact .of_makes hj hp (heq ▸ hn)

end Registry.Nests

namespace Registry.Makes

variable {p : Particle}

theorem of_leaf (h : p.emptinessDepth = 0) : r.Makes i p := ⟨fun _ => h, .here (by omega)⟩

theorem of_nests (he : ¬ i.is "element" = true) (ha : ¬ i.is "any" = true) (h : r.Nests i p.emptinessDepth) :
    r.Makes i p where
  leaf := by
    intro hkind
    simp only [Item.isAmong, List.contains_cons, List.contains_nil, Bool.or_false, Bool.or_eq_true, beq_iff_eq] at hkind
    simp only [Item.is, decide_eq_true_eq] at he ha
    exact (hkind.elim he ha).elim
  nests := h

end Registry.Makes

/-- The groups of a model, if there is one, nest no deeper than those of an item. -/
def Registry.NestsModel (r : Registry) (i : Item) (model : Option Particle) : Prop :=
  ∀ p, model = some p → r.Nests i p.emptinessDepth

namespace Registry.NestsModel

variable {model : Option Particle}

theorem of_item (hj : j ∈ i.items) (hkind : j.isAmong ["element", "any"] = false) (h : r.NestsModel j model) :
    r.NestsModel i model := fun p hp => .of_item hj hkind (h p hp)

theorem of_makes (h : ∀ p, model = some p → ∃ j ∈ i.items, r.Makes j p) : r.NestsModel i model := by
  intro p hp
  obtain ⟨j, hj, hp⟩ := h p hp
  exact .of_makes hj hp (Nat.le_add_right ..)

end Registry.NestsModel

/-- The groups that are looked into in a component nest no deeper than those of an item. -/
def Component.NestsIn (r : Registry) (i : Item) : Component → Prop
  | .type (.complex t) => r.NestsModel i t.content.model?
  | .group _ members => r.Nests i (Particle.emptinessDepthOfAll members + 1)
  | _ => True

/-! ### Scopes -/

/-- What a scope knows comes from the document. -/
structure Scope.From (root : Xml.Element) (r : Registry) (s : Scope) : Prop where
  registry : Registry.ofRoot root = .ok r
  attributes : ∀ name i, s.attributes.lookup name = some i → i.From root
  definitions : ∀ key, Ends (fun found => ∀ c, found = some c → ∃ d, r.item? key = some d ∧ c.NestsIn r d)
    (Reported root) (s.definition? key)

namespace Scope.From

variable {s : Scope}

theorem type? (hs : s.From root r) (name : Name) :
    Ends (fun found => ∀ t, found = some t → ∃ d, r.item? ⟨.type, name⟩ = some d ∧ (Component.type t).NestsIn r d)
      (Reported root) (s.type? name) := by
  rw [Scope.type?]
  refine (hs.definitions _).bind fun found hfound => ?_
  split
  · refine .ok ?_
    rintro _ ⟨⟩
    exact hfound _ rfl
  · exact .ok (by simp)

theorem known (hs : s.From root r) (name : Name) : Ends (fun _ => True) (Reported root) (s.type? name) :=
  (hs.type? name).imp fun _ _ => trivial

end Scope.From

/-! ### Readings -/

/-- A local element is one of the document, and its values are those that the element sets. -/
structure PendingElement.From (root : Xml.Element) (p : PendingElement) : Prop where
  item : p.item.From root
  default : p.declaration.default = p.item.get? "default"
  fixed : p.declaration.fixed = p.item.get? "fixed"

/-- A reading ends in a result with a property or in an error that is reported, and leaves behind elements of the
document. -/
def Reads (root : Xml.Element) (P : α → Prop) (x : Reading α) : Prop :=
  ∀ t : Traces, (∀ p ∈ t.elements, p.From root) →
    Ends (fun y => P y.1 ∧ ∀ p ∈ y.2.elements, p.From root) (Reported root) (x t)

namespace Reads

variable {P : α → Prop} {Q : β → Prop} {x : Reading α}

theorem pure {a : α} (h : P a) : Reads root P (pure a) := fun _ ht => .ok ⟨h, ht⟩

theorem lift {x : Build α} (h : Ends P (Reported root) x) : Reads root P (liftM x) :=
  fun _ ht => h.bind fun _ ha => .ok ⟨ha, ht⟩

theorem fail (i : Item) (fault : SchemaFault) : Reads root P (liftM (i.fail fault : Build α)) :=
  .lift (ends_fail i fault)

theorem bind {f : α → Reading β} (hx : Reads root P x) (hf : ∀ a, P a → Reads root Q (f a)) :
    Reads root Q (x >>= f) := fun t ht => (hx t ht).bind fun y hy => hf y.1 hy.1 y.2 hy.2

theorem ite {c : Prop} [Decidable c] {y : Reading α} (hx : c → Reads root P x) (hy : ¬ c → Reads root P y) :
    Reads root P (if c then x else y) := by
  split
  · exact hx ‹_›
  · exact hy ‹_›

/-- A check that ends a reading before the rest of it. -/
theorem guard {c : Prop} [Decidable c] {i : Item} {fault : SchemaFault} {f : PUnit → Reading β}
    (hf : ¬ c → Reads root Q (f ⟨⟩)) : Reads root Q (if c then liftM (i.fail fault : Build PUnit) >>= f else f ⟨⟩) :=
  .ite (fun _ => .bind (P := fun _ => False) (.fail i fault) fun _ h => h.elim) hf

theorem imp {P' : α → Prop} (h : Reads root P x) (hP : ∀ a, P a → P' a) : Reads root P' x :=
  fun t ht => (h t ht).imp fun _ hy => ⟨hP _ hy.1, hy.2⟩

theorem leaveElement {e : PendingElement} (he : e.From root) :
    Reads root (fun _ => True) (modify fun t => { t with elements := e :: t.elements }) :=
  fun _ ht => .ok ⟨trivial, List.forall_mem_cons.2 ⟨he, ht⟩⟩

theorem leaveAttribute (name : Name) :
    Reads root (fun _ => True) (modify fun t => { t with attributes := name :: t.attributes }) :=
  fun _ ht => .ok ⟨trivial, ht⟩

theorem traces : Reads root (fun t => ∀ p ∈ t.elements, p.From root) get := fun _ ht => .ok ⟨ht, ht⟩

theorem foldlM {step : β → α → Reading β} {l : List α} {b : β} (hb : Q b)
    (h : ∀ b, Q b → ∀ a ∈ l, Reads root Q (step b a)) : Reads root Q (l.foldlM step b) := by
  induction l generalizing b with
  | nil => exact pure hb
  | cons a l ih =>
      rw [List.foldlM_cons]
      exact (h b hb a List.mem_cons_self).bind fun b hb => ih hb fun b hb a ha => h b hb a (List.mem_cons_of_mem _ ha)

theorem mapM {f : α → Reading β} {l : List α} (h : ∀ a ∈ l, Reads root (fun _ => True) (f a)) :
    Reads root (fun _ => True) (l.mapM f) := by
  induction l with
  | nil => exact pure trivial
  | cons a l ih =>
      obtain ⟨ha, hl⟩ := List.forall_mem_cons.1 h
      rw [List.mapM_cons]
      exact ha.bind fun _ _ => (ih hl).bind fun _ _ => pure trivial

end Reads

/-! ### Attributes -/

variable {s : Scope}

/-- A value that an item sets is only beyond arithmetic if it is very long. -/
theorem checkConstraints_ends (hi : i.From root) (type : SimpleType) :
    Ends (fun _ => True) (Reported root) (checkConstraints i type (i.get? "default") (i.get? "fixed")) := by
  rw [checkConstraints]
  refine Ends.bind (P := fun _ => True) (.forIn fun x hx => ?_) fun _ _ => .ok trivial
  have hkey : x.1 ∈ settingKeys ∧ x.2 = i.get? x.1 := by
    rcases List.mem_pair.1 hx with rfl | rfl <;> exact ⟨by simp [settingKeys], rfl⟩
  obtain ⟨key, value⟩ := x
  cases value with
  | none => exact .ok rfl
  | some value =>
      refine .guard (fun hoverflow => .error ?_) fun _ => ?_
      · obtain ⟨e, he, _, hattribute⟩ := hi.exists_attribute hkey.2.symm
        exact .inr (.digits he hkey.1 hattribute (SimpleType.length_of_overflow hoverflow))
      · split
        · exact (ends_fail (P := fun _ => True) ..).bind fun _ _ => .ok rfl
        · exact .ok rfl

theorem attributeType_ends (hs : s.From root r) (hi : i.From root) :
    Ends (fun _ => True) (Reported root) (attributeType s i) := by
  rw [attributeType]
  refine (inner_ends hi).bind fun items hitems => ?_
  have hinline : ∀ j ∈ items.filter (·.is "simpleType"), j.From root :=
    fun j hj => hi.of_mem (hitems ▸ List.mem_of_mem_filter hj)
  dsimp only
  generalize i.getFull? "type" = type, items.filter (·.is "simpleType") = inline at hinline ⊢
  rcases type with _ | type <;> rcases inline with _ | ⟨first, later⟩
  · exact .ok trivial
  · exact readSimpleType_ends hs.known none first (hinline first List.mem_cons_self)
  · exact (expandName_ends ..).bind fun name _ => simpleTypeReference_ends hs.known i name
  · exact ends_fail ..

theorem globalAttribute_ends (hs : s.From root r) (referrer : Nat) (name : Name) :
    Ends (fun _ => True) (Reported root) (globalAttribute s referrer name) := by
  rw [globalAttribute]
  refine .ite (fun _ => .ok trivial) fun _ => ?_
  split
  · exact .error (reported_malformed ..)
  · next i hlookup =>
      have hi := hs.attributes name i hlookup
      refine (attributeType_ends hs hi).bind fun type _ => ?_
      exact (checkConstraints_ends hi type).bind fun _ _ => .ok trivial

theorem readAttributeUse_reads (hs : s.From root r) (hi : i.From root) :
    Reads root (fun _ => True) (readAttributeUse s i) := by
  rw [readAttributeUse]
  dsimp only
  split
  swap
  · exact .fail _ _
  refine .guard fun _ => .guard fun _ => ?_
  split
  · refine .bind (.lift (expandName_ends ..)) fun name _ => ?_
    refine .bind (.lift (globalAttribute_ends hs i.line name)) fun _ _ => ?_
    exact .bind (.leaveAttribute name) fun _ _ => .pure trivial
  split
  swap
  · exact .fail _ _
  refine .bind (.lift (attributeType_ends hs hi)) fun type _ => ?_
  exact .bind (.lift (checkConstraints_ends hi type)) fun _ _ => .pure trivial

theorem readWildcard_ends (s : Scope) (i : Item) : Ends (fun _ => True) (Reported root) (readWildcard s i) := by
  rw [readWildcard]
  dsimp only
  split
  swap
  · exact ends_fail ..
  refine .ite (fun _ => .ok trivial) fun _ => .ite (fun _ => .ok trivial) fun _ => ?_
  refine .bind (.mapM (Q := fun _ => True) fun token _ => ?_) fun _ _ => .ok trivial
  refine .ite (fun _ => .ok trivial) fun _ => .ite (fun _ => .ok trivial) fun _ => ?_
  exact .ite (fun _ => ends_fail ..) fun _ => .ok trivial

theorem readAttributeItem_reads (hs : s.From root r) (hi : i.From root) (parent : Text) (read : AttributeReading) :
    Reads root (fun _ => True) (readAttributeItem s parent read i) := by
  rw [readAttributeItem]
  refine .guard fun _ => .ite (fun _ => ?_) fun _ => .ite (fun _ => ?_) fun _ => ?_
  · exact .bind (readAttributeUse_reads hs hi) fun use _ => .guard fun _ => .pure trivial
  · split
    swap
    · exact .fail _ _
    refine .bind (.lift (expandName_ends ..)) fun name _ => .bind (.lift (hs.definitions _)) fun found _ => ?_
    split
    · exact .pure trivial
    · exact .fail _ _
  · refine .ite (fun _ => ?_) fun _ => .fail _ _
    exact .bind (.lift (readWildcard_ends s i)) fun _ _ => .pure trivial

theorem readAttributes_reads (hs : s.From root r) (parent : Text) {items : List Item}
    (hitems : ∀ i ∈ items, i.From root) : Reads root (fun _ => True) (readAttributes s parent items) := by
  refine .bind (.foldlM (Q := fun _ => True) trivial fun read _ i hi => ?_) fun _ _ => .pure trivial
  exact readAttributeItem_reads hs (hitems i hi) parent read

/-! ### Particles -/

theorem occurs_ends (i : Item) : Ends (fun _ => True) (Reported root) (occurs i) := by
  rw [occurs]
  split
  · exact .ite (fun _ => .ok trivial) fun _ => ends_fail ..
  · exact .ite (fun _ => .ok trivial) fun _ => ends_fail ..
  · exact ends_fail ..

theorem readLocalElement_reads (hi : i.From root) (owner : DefinitionKey) :
    Reads root (fun _ => True) (readLocalElement s owner i) := by
  rw [readLocalElement]
  split
  swap
  · exact .fail _ _
  refine .bind (.lift (flag_ends i "nillable")) fun isNillable _ => ?_
  exact .bind (.leaveElement ⟨hi, rfl, rfl⟩) fun _ _ => .pure trivial

theorem readElementParticle_reads (hi : i.From root) (owner : DefinitionKey) (o : Occurs) :
    Reads root (·.emptinessDepth = 0) (readElementParticle s owner o i) := by
  rw [readElementParticle]
  split
  · exact .bind (.lift (expandName_ends ..)) fun name _ => .ite (fun _ => .pure rfl) fun _ => .fail _ _
  · exact .bind (readLocalElement_reads hi owner) fun _ _ => .pure rfl

theorem readGroupReference_reads (hs : s.From root r) (hkind : i.is "group" = true) (o : Occurs) :
    Reads root (fun p => r.Nests i p.emptinessDepth) (readGroupReference s o i) := by
  rw [readGroupReference]
  split
  swap
  · exact .fail _ _
  next ref href =>
  refine .bind (.lift (expandName_ends ..)) fun name hname => .bind (.lift (hs.definitions _)) fun found hfound => ?_
  split
  · obtain ⟨d, hd, hnests⟩ := hfound _ rfl
    exact .pure (.behind (.group hkind href hname) hd hnests (Nat.le_add_right ..))
  · exact .fail _ _

/-- What is neither an element nor a wildcard nor a group of its own refers to one. -/
theorem is_group_of_particle (hkind : i.isAmong particleKinds = true) (he : ¬ i.is "element" = true)
    (ha : ¬ i.is "any" = true) (hc : compositor? i.kind = none) : i.is "group" = true := by
  simp only [Item.isAmong, particleKinds, List.contains_cons, List.contains_nil, Bool.or_eq_true, beq_iff_eq,
    Bool.or_false] at hkind
  simp only [Item.is, decide_eq_true_eq] at he ha ⊢
  rcases hkind with h | h | h | h | h | h
  · exact absurd h he
  · exact h
  · exact absurd (h ▸ hc) (by decide)
  · exact absurd (h ▸ hc) (by decide)
  · exact absurd (h ▸ hc) (by decide)
  · exact absurd h ha

theorem level_of_compositor {compositor : Compositor} (hc : compositor? i.kind = some compositor) : i.level = 1 := by
  have hkind : compositor.name = i.kind := by simpa using List.find?_some hc
  rw [Item.level, Item.isAmong, ← hkind]
  cases compositor <;> rfl

theorem readMembers_reads {P : Particle → Prop} {owner : DefinitionKey} {items : List Item}
    (h : ∀ j ∈ items, Reads root (fun x => ∀ p, x = some p → P p) (readParticle s owner j)) (compositor : Compositor)
    {read : List Particle} (hread : ∀ p ∈ read, P p) :
    Reads root (fun members => ∀ p ∈ members, P p) (readMembers s owner compositor read items) := by
  induction items generalizing read with
  | nil =>
      rw [readMembers]
      exact .pure fun p hp => hread p (List.mem_reverse.1 hp)
  | cons i later ih =>
      obtain ⟨hi, hlater⟩ := List.forall_mem_cons.1 h
      rw [readMembers]
      refine .guard fun _ => .bind hi fun x hx => ?_
      cases x with
      | none => exact ih hlater hread
      | some p => exact .guard fun _ => ih hlater (List.forall_mem_cons.2 ⟨hx p rfl, hread⟩)

theorem readParticle_reads (hs : s.From root r) (owner : DefinitionKey) (i : Item) : i.From root →
    Reads root (fun x => ∀ p, x = some p → r.Makes i p) (readParticle s owner i) := by
  induction i using Item.induct with
  | mk tag path foreign inner ih =>
      intro hi
      rw [readParticle]
      refine .guard fun hkind => .bind (.lift (occurs_ends _)) fun o _ => .ite (fun _ => .pure (by simp)) fun _ => ?_
      refine .ite (fun he => ?_) fun he => .ite (fun ha => ?_) fun ha => ?_
      · refine .bind (readElementParticle_reads hi owner o) fun p hp => .pure ?_
        rintro _ ⟨⟩
        exact .of_leaf hp
      · refine .bind (.lift (readWildcard_ends ..)) fun w _ => .pure ?_
        rintro _ ⟨⟩
        exact .of_leaf rfl
      · split
        · next hc =>
            have hgroup := is_group_of_particle (by simpa using hkind) he ha hc
            refine .bind (readGroupReference_reads hs hgroup o) fun p hp => .pure ?_
            rintro _ ⟨⟩
            exact .of_nests he ha hp
        · next compositor hc =>
            refine .bind (.lift (inner_ends hi)) fun _ _ => ?_
            have hmake : ∀ j ∈ inner, Reads root (fun x => ∀ p, x = some p → ∃ j ∈ inner, r.Makes j p)
                (readParticle s owner j) :=
              fun j hj => (ih j hj (hi.of_mem hj)).imp fun x hx p hp => ⟨j, hj, hx p hp⟩
            refine .bind (readMembers_reads hmake compositor (by simp)) fun members h => .guard fun _ => .pure ?_
            rintro _ ⟨⟩
            exact .of_nests he ha (.group h (level_of_compositor hc ▸ Nat.le_refl _))

/-- The group that a definition names is looked into one level deeper than its members. -/
theorem readGroup_reads (hs : s.From root r) (owner : DefinitionKey) (hi : i.From root) :
    Reads root (·.NestsIn r i) (readGroup s owner i) := by
  rw [readGroup]
  refine .bind (.lift (inner_ends hi)) fun items hitems => ?_
  split
  · next body =>
      have hbody : body ∈ i.items := hitems ▸ List.mem_singleton_self body
      refine .guard fun _ => .guard fun _ => .bind (readParticle_reads hs owner body (hi.of_mem hbody)) fun x hx => ?_
      split
      · exact .pure (.of_makes hbody (hx _ rfl) (Nat.le_add_right ..))
      · exact .fail _ _
  · exact .fail _ _

theorem readModel_reads (hs : s.From root r) (owner : DefinitionKey) {items : List Item}
    (hitems : ∀ i ∈ items, i.From root) :
    Reads root (fun x => (∀ p, x.1 = some p → ∃ j ∈ items, r.Makes j p) ∧ x.2 ⊆ items) (readModel s owner items) := by
  unfold readModel
  cases items with
  | nil => exact .pure ⟨by simp, List.Subset.refl _⟩
  | cons first later =>
      refine .ite (fun _ => ?_) fun _ => .pure ⟨by simp, List.Subset.refl _⟩
      refine .bind (readParticle_reads hs owner first (hitems first List.mem_cons_self)) fun x hx => .pure ?_
      exact ⟨fun p hp => ⟨first, List.mem_cons_self, hx p hp⟩, List.subset_cons_self ..⟩

/-! ### Content models -/

/-- A model is only too deep to be looked into if the groups of the document nest too deep. -/
theorem nonEmptyModel_ends (hs : s.From root r) (hi : i.From root) {model : Option Particle}
    (h : r.NestsModel i model) : Ends (· = model.filter (!·.isEmptyGroup)) (Reported root) (nonEmptyModel model) := by
  rw [nonEmptyModel]
  refine .ite (fun hdeep => .error ?_) fun _ => .ok rfl
  cases model with
  | none => cases hdeep
  | some p => exact .inr (.depth hs.registry hi ((h p rfl).mono (of_decide_eq_true hdeep)))

theorem contentOfModel_ends (hs : s.From root r) (hi : i.From root) {model : Option Particle}
    (h : r.NestsModel i model) (mixed : Bool) :
    Ends (fun content => r.NestsModel i content.model?) (Reported root) (contentOfModel model mixed) := by
  have hends : Ends (fun _ => True) (Reported root) (contentOfModel model mixed) := by
    refine (nonEmptyModel_ends hs hi h).bind fun m _ => ?_
    cases m <;> exact .ok trivial
  exact hends.known.imp fun content hcontent => contentOfModel_induct (.here (Nat.le_add_left ..)) h hcontent.1

/-! ### Complex types -/

theorem level_of_extension (h : i.is "extension" = true) : i.level = 1 := by
  rw [Item.level, Item.isAmong_eq h]
  rfl

/-- The groups of the model that an extension takes over nest one level deeper in it. -/
def Registry.NestsBase (r : Registry) (i : Item) (base : TypeDefinition) : Prop :=
  i.is "extension" = true → ∀ t, base = .complex t → ∀ p, t.content.model? = some p → r.Nests i (p.emptinessDepth + 1)

theorem nestsBase_anyType (r : Registry) (i : Item) : r.NestsBase i (.complex .anyType) := by
  rintro hextension _ ⟨⟩ p ⟨⟩
  exact .here (by rw [level_of_extension hextension]; rfl)

theorem nestsBase_simple (r : Registry) (i : Item) (type : SimpleType) : r.NestsBase i (.simple type) := nofun

/-- What a derivation has to do with the item that it is read from. -/
structure Derivation.From (r : Registry) (i : Item) (d : Derivation) : Prop where
  body : d.body ∈ i.items
  kind : d.body.isAmong ["element", "any"] = false
  extension : d.isExtension = d.body.is "extension"
  base : r.NestsBase d.body d.base

theorem readDerivation_ends (hs : s.From root r) (hi : i.From root) :
    Ends (Derivation.From r i) (Reported root) (readDerivation s i) := by
  rw [readDerivation]
  refine (inner_ends hi).bind fun items hitems => ?_
  split
  · next body =>
      refine .guard (fun _ => ends_fail ..) fun hkind => ?_
      have hkind : body.isAmong ["extension", "restriction"] = true := by simpa using hkind
      have hleaf : body.isAmong ["element", "any"] = false := by
        rcases List.mem_pair.1 (List.contains_iff_mem.1 hkind) with h | h <;> rw [Item.isAmong, h] <;> rfl
      split
      swap
      · exact ends_fail ..
      next base hbase =>
      refine (expandName_ends ..).bind fun name hname => ?_
      have hknown : Ends (fun found => ∀ t, found = some t → r.NestsBase body t) (Reported root) (s.type? name) := by
        refine (hs.type? name).imp ?_
        rintro _ hfound _ rfl hextension t rfl p hp
        obtain ⟨d, hd, hnests⟩ := hfound _ rfl
        exact .behind (.type hextension hbase hname) hd (hnests p hp) (by rw [level_of_extension hextension])
      refine (typeReference_ends (nestsBase_anyType r body) (nestsBase_simple r body) body hknown).bind ?_
      exact fun type htype => .ok ⟨hitems ▸ List.mem_singleton_self body, hleaf, rfl, htype⟩
  · exact ends_fail ..

theorem extensionBase_ends (d : Derivation) : Ends (fun _ => True) (Reported root) (extensionBase d) := by
  rw [extensionBase]
  split
  · exact .ok trivial
  · split
    · exact .ok trivial
    · exact ends_fail ..

theorem restrictionBase_ends (d : Derivation) : Ends (fun _ => True) (Reported root) (restrictionBase d) := by
  rw [restrictionBase]
  split
  · exact ends_fail ..
  · split
    · exact .ok trivial
    · exact ends_fail ..

theorem restrictedType_ends (hs : s.From root r) (base : SimpleType) {items : List Item}
    (hitems : ∀ i ∈ items, i.From root) :
    Ends (fun x => x.2 ⊆ items) (Reported root) (restrictedType s base items) := by
  cases items with
  | nil => exact .ok (List.Subset.refl _)
  | cons first later =>
      rw [restrictedType]
      refine .ite (fun _ => ?_) fun _ => .ok (List.Subset.refl _)
      refine (readSimpleType_ends hs.known none first (hitems first List.mem_cons_self)).bind fun _ _ => .ok ?_
      exact List.subset_cons_self ..

theorem readSimpleContent_reads (hs : s.From root r) (hi : i.From root) (name : Option Name) (isAbstract : Bool) :
    Reads root (fun x => x.content.model? = none) (readSimpleContent s name isAbstract i) := by
  rw [readSimpleContent]
  refine .bind (.lift (readDerivation_ends hs hi)) fun d hd => ?_
  have hbody := hi.of_mem hd.body
  refine .bind (.lift (inner_ends hbody)) fun parts hparts => ?_
  have hparts : ∀ j ∈ parts, j.From root := fun j hj => hbody.of_mem (hparts ▸ hj)
  refine .ite (fun _ => ?_) fun _ => ?_
  · refine .bind (.lift (extensionBase_ends d)) fun base _ => ?_
    exact .bind (readAttributes_reads hs _ hparts) fun _ _ => .pure rfl
  · refine .bind (.lift (restrictionBase_ends d)) fun base _ => ?_
    refine .bind (.lift (restrictedType_ends hs base.1 hparts)) fun x hx => ?_
    have hrest {keep : Item → Bool} : ∀ j ∈ x.2.filter keep, j.From root :=
      fun j hj => hparts j (hx (List.mem_of_mem_filter hj))
    refine .bind (.lift (readFacets_ends x.1 hrest)) fun facets _ => ?_
    exact .bind (readAttributes_reads hs _ hrest) fun _ _ => .pure rfl

theorem contentMixed_ends (i : Item) (mixed : Bool) :
    Ends (fun _ => True) (Reported root) (contentMixed i mixed) :=
  .ite (fun _ => flag_ends ..) fun _ => .ok trivial

/-- An extension nests what it takes over one level deeper. -/
theorem nestsModel_extendModel (hlevel : i.level = 1) {first second : Option Particle}
    (hfirst : ∀ p, first = some p → r.Nests i (p.emptinessDepth + 1))
    (hsecond : ∀ p, second = some p → ∃ j ∈ i.items, r.Makes j p) : r.NestsModel i (extendModel first second) := by
  intro p hp
  cases first with
  | none => exact Registry.NestsModel.of_makes hsecond p hp
  | some a =>
      cases second with
      | none => exact (hfirst p hp).mono (Nat.le_succ _)
      | some b =>
          cases hp
          change r.Nests i (Particle.emptinessDepthOfAll [a, b] + 1)
          rcases Particle.exists_emptinessDepth [a, b] with hzero | ⟨p, hp, heq⟩
          · exact .here (by omega)
          rw [heq]
          -- the first member was a model before the extension; the second one is made inside it
          rcases List.mem_pair.1 hp with rfl | rfl
          · exact hfirst p rfl
          · obtain ⟨j, hj, hp⟩ := hsecond p rfl
            exact .of_makes hj hp (by rw [hlevel])

theorem readComplexContent_reads (hs : s.From root r) (hi : i.From root) (owner : DefinitionKey) (name : Option Name)
    (isAbstract mixed : Bool) :
    Reads root (fun x => r.NestsModel i x.content.model?) (readComplexContent s owner name isAbstract mixed i) := by
  rw [readComplexContent]
  refine .bind (.lift (readDerivation_ends hs hi)) fun d hd => ?_
  have hbody := hi.of_mem hd.body
  split
  · exact .fail _ _
  next base hbase =>
  refine .bind (.lift (contentMixed_ends i mixed)) fun mixed _ => ?_
  refine .bind (.lift (inner_ends hbody)) fun items hitems => ?_
  subst hitems
  have hitems : ∀ j ∈ d.body.items, j.From root := fun j => hbody.of_mem
  refine .bind (readModel_reads hs owner hitems) ?_
  rintro x ⟨hmodel, hrest⟩
  have hattributes := readAttributes_reads hs d.body.kind fun j hj => hitems j (hrest hj)
  have hnests {content : ContentType} (h : r.NestsModel d.body content.model?) : r.NestsModel i content.model? :=
    h.of_item hd.body hd.kind
  refine .ite (fun hextension => ?_) fun _ => ?_
  · rw [hd.extension] at hextension
    -- what the base has is looked into twice: alone, and with what the extension adds to it
    have hinherited : r.NestsModel d.body base.content.model? :=
      fun p hp => (hd.base hextension base hbase p hp).mono (Nat.le_succ _)
    refine .bind (.lift (nonEmptyModel_ends hs hbody hinherited)) fun inherited hfirst => ?_
    have hfirst (p : Particle) (hp : inherited = some p) : r.Nests d.body (p.emptinessDepth + 1) :=
      hd.base hextension base hbase p (Option.eq_some_of_filter_eq_some (hfirst ▸ hp))
    have hextended := nestsModel_extendModel (level_of_extension hextension) hfirst hmodel
    refine .bind (.lift (contentOfModel_ends hs hbody hextended _)) fun content hcontent => ?_
    exact .bind hattributes fun _ _ => .pure (hnests hcontent)
  · refine .bind (.lift (contentOfModel_ends hs hbody (.of_makes hmodel) mixed)) fun content hcontent => ?_
    exact .bind hattributes fun _ _ => .pure (hnests hcontent)

theorem readDeclaredType_reads (hs : s.From root r) (hi : i.From root) (owner : DefinitionKey) (name : Option Name)
    (isAbstract mixed : Bool) : Reads root (fun x => r.NestsModel i x.content.model?)
      (readDeclaredType s owner name isAbstract mixed i i.items) := by
  rw [readDeclaredType]
  have hitems : ∀ j ∈ i.items, j.From root := fun j => hi.of_mem
  refine .bind (readModel_reads hs owner hitems) ?_
  rintro x ⟨hmodel, hrest⟩
  refine .bind (.lift (contentOfModel_ends hs hi (.of_makes hmodel) mixed)) fun content hcontent => ?_
  exact .bind (readAttributes_reads hs i.kind fun j hj => hitems j (hrest hj)) fun _ _ => .pure hcontent

theorem readComplexType_reads (hs : s.From root r) (hi : i.From root) (owner : DefinitionKey) (name : Option Name) :
    Reads root (fun x => r.NestsModel i x.content.model?) (readComplexType s owner name i) := by
  unfold readComplexType
  refine .bind (.lift (flag_ends i "abstract")) fun isAbstract _ => ?_
  refine .bind (.lift (flag_ends i "mixed")) fun mixed _ => ?_
  refine .bind (.lift (inner_ends hi)) fun items hitems => ?_
  have hdeclared := readDeclaredType_reads hs hi owner name isAbstract mixed
  rw [← hitems] at hdeclared
  split
  · exact hdeclared
  next first later =>
  have hfirst : first ∈ i.items := hitems ▸ List.mem_cons_self
  refine .ite (fun _ => ?_) fun _ => .ite (fun hkind => ?_) fun _ => hdeclared
  · refine (readSimpleContent_reads hs (hi.of_mem hfirst) name isAbstract).imp fun x hx => ?_
    rw [hx]
    rintro _ ⟨⟩
  · refine (readComplexContent_reads hs (hi.of_mem hfirst) owner name isAbstract mixed).imp fun x hx => ?_
    exact hx.of_item hfirst (Item.isAmong_eq hkind _)

end Schema

end XmlSchema
