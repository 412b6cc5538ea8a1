import XmlSchema.Proofs.Schema.Reading
import XmlSchema.Schema.Reader

/-!
Where the uses of attributes in a type come from. Each has been read in the type, in a type that it derives from or in
an attribute group, so what holds of all that are read holds of all that there are.
-/

namespace XmlSchema

/-- The uses of attributes in a type, not those in the types of its elements. -/
def TypeDefinition.uses : TypeDefinition → List AttributeUse
  | .simple _ => []
  | .complex t => t.attributes

namespace Schema

def Component.uses : Component → List AttributeUse
  | .type t => t.uses
  | .group _ _ => []
  | .attributeGroup set => set.uses

variable {P : AttributeUse → Prop} {s : Scope} {owner : DefinitionKey} {i : Item} {t t' : Traces}

theorem forall_mem_insert {u : AttributeUse} (hu : P u) {uses : List AttributeUse}
    (h : ∀ v ∈ uses, P v) : ∀ v ∈ AttributeUse.insert u uses, P v := by
  induction uses with
  | nil => simpa [AttributeUse.insert] using hu
  | cons v uses ih =>
      obtain ⟨hv, huses⟩ := List.forall_mem_cons.1 h
      rw [AttributeUse.insert]
      split
      · exact List.forall_mem_cons.2 ⟨hu, huses⟩
      · exact List.forall_mem_cons.2 ⟨hv, ih huses⟩

theorem forall_mem_insertAll {uses others : List AttributeUse} (huses : ∀ v ∈ uses, P v)
    (h : ∀ v ∈ others, P v) : ∀ v ∈ AttributeUse.insertAll uses others, P v :=
  List.foldlRecOn (motive := fun acc => ∀ v ∈ acc, P v) uses _ h fun _ hacc u hu => forall_mem_insert (huses u hu) hacc

/-- All uses that are read in a scope, and all in what it finds, have a property. -/
structure Scope.UsesHave (s : Scope) (P : AttributeUse → Prop) : Prop where
  read : ∀ i t u t', readAttributeUse s i t = .ok (u, t') → P u
  found : ∀ key c, s.definition? key = .ok (some c) → ∀ u ∈ c.uses, P u

/-! ### Attributes -/

theorem readAttributeItem_uses (hs : s.UsesHave P) {parent : Text} {r r' : AttributeReading}
    (hr : ∀ u ∈ r.set.uses, P u) (h : readAttributeItem s parent r i t = .ok (r', t')) : ∀ u ∈ r'.set.uses, P u := by
  rw [readAttributeItem] at h
  simp only [Reading.ite_eq_ok, Reading.bind_eq_ok, Reading.lift_eq_ok, Reading.pure_eq_ok, Item.fail_eq_ok,
    false_and, and_false, exists_false, false_or, or_false] at h
  obtain ⟨_, ⟨_, u, _, hu, _, rfl, _⟩ | ⟨_, ⟨_, h⟩ | ⟨_, _, w, _, _, rfl, _⟩⟩⟩ := h
  · exact forall_mem_insert (hs.read _ _ _ _ hu) hr
  · cases href : i.getFull? "ref" with
    | none => simp [href] at h
    | some ref =>
        simp only [href, Reading.bind_eq_ok, Reading.lift_eq_ok] at h
        obtain ⟨name, _, _, c, _, ⟨hc, _⟩, h⟩ := h
        rcases c with _ | _ | _ | set
        · simp at h
        · simp at h
        · simp at h
        · simp only [Reading.pure_eq_ok] at h
          obtain ⟨rfl, _⟩ := h
          exact forall_mem_insertAll (hs.found _ _ hc) hr
  · exact hr

theorem readAttributes_uses (hs : s.UsesHave P) {parent : Text} {items : List Item} {set : AttributeSet}
    (h : readAttributes s parent items t = .ok (set, t')) : ∀ u ∈ set.uses, P u := by
  rw [readAttributes] at h
  simp only [Reading.bind_eq_ok, Reading.pure_eq_ok] at h
  obtain ⟨r, _, h, rfl, _⟩ := h
  refine Reading.foldlM_induct (P := fun r => ∀ u ∈ r.set.uses, P u) (by simp) ?_ h
  exact fun _ hr _ _ _ _ _ h => readAttributeItem_uses hs hr h

/-! ### Types -/

theorem typeReference_uses (hs : s.UsesHave P) {name : Name} {type : TypeDefinition}
    (h : typeReference s.type? i name = .ok type) : ∀ u ∈ type.uses, P u := by
  rcases typeReference_ok h with rfl | ⟨u, _, rfl⟩ | hfound
  · simp [TypeDefinition.uses, ComplexType.anyType]
  · simp [TypeDefinition.uses]
  · exact hs.found _ _ hfound

theorem readDerivation_uses (hs : s.UsesHave P) {d : Derivation} (h : readDerivation s i = .ok d) :
    ∀ u ∈ d.base.uses, P u := by
  obtain ⟨_, _, name, h⟩ := readDerivation_ok h
  exact typeReference_uses hs h

theorem extensionBase_uses {d : Derivation} {type : SimpleType} {inherited : AttributeSet}
    (h : extensionBase d = .ok (type, inherited)) : inherited.uses ⊆ d.base.uses := by
  rw [extensionBase] at h
  cases hb : d.base with
  | simple t =>
      rw [hb] at h
      cases h
      simp
  | complex t =>
      rw [hb] at h
      dsimp only at h
      split at h
      · cases h
        exact fun u hu => hu
      · simp at h

theorem restrictionBase_uses {d : Derivation} {type : SimpleType} {inherited : AttributeSet}
    (h : restrictionBase d = .ok (type, inherited)) : inherited.uses ⊆ d.base.uses := by
  rw [restrictionBase] at h
  cases hb : d.base with
  | simple t => simp [hb] at h
  | complex t =>
      rw [hb] at h
      dsimp only at h
      split at h
      · cases h
        exact fun u hu => hu
      · simp at h

theorem derive_uses {name : Option Name} {isAbstract : Bool} {base : TypeDefinition} {content : ContentType}
    {inherited own : AttributeSet} (hinherited : ∀ u ∈ inherited.uses, P u) (hown : ∀ u ∈ own.uses, P u) :
    ∀ u ∈ (derive name isAbstract base content inherited own).attributes, P u :=
  forall_mem_insertAll hown hinherited

variable {name : Option Name} {isAbstract mixed : Bool} {x : ComplexType}

theorem readSimpleContent_uses (hs : s.UsesHave P) (h : readSimpleContent s name isAbstract i t = .ok (x, t')) :
    ∀ u ∈ x.attributes, P u := by
  rw [readSimpleContent] at h
  simp only [Reading.bind_eq_ok, Reading.lift_eq_ok, Reading.ite_eq_ok, Reading.pure_eq_ok] at h
  obtain ⟨d, _, ⟨hd, _⟩, parts, _, _, ⟨_, ⟨type, inherited⟩, _, ⟨hbase, _⟩, own, _, hown, rfl, _⟩ |
    ⟨_, ⟨type, inherited⟩, _, ⟨hbase, _⟩, _, _, _, facets, _, _, own, _, hown, rfl, _⟩⟩ := h
  · exact derive_uses (fun u hu => readDerivation_uses hs hd u (extensionBase_uses hbase hu))
      (readAttributes_uses hs hown)
  · exact derive_uses (fun u hu => readDerivation_uses hs hd u (restrictionBase_uses hbase hu))
      (readAttributes_uses hs hown)

theorem readComplexContent_uses (hs : s.UsesHave P)
    (h : readComplexContent s owner name isAbstract mixed i t = .ok (x, t')) : ∀ u ∈ x.attributes, P u := by
  rw [readComplexContent] at h
  simp only [Reading.bind_eq_ok, Reading.lift_eq_ok] at h
  obtain ⟨d, _, ⟨hd, _⟩, h⟩ := h
  have hbase := readDerivation_uses hs hd
  cases hb : d.base with
  | simple type => simp [hb] at h
  | complex base =>
      rw [hb] at hbase
      simp only [hb, Reading.bind_eq_ok, Reading.lift_eq_ok, Reading.ite_eq_ok, Reading.pure_eq_ok] at h
      obtain ⟨_, _, _, _, _, _, _, _, _, ⟨_, _, _, _, content, _, _, own, _, hown, rfl, _⟩ |
        ⟨_, content, _, _, own, _, hown, rfl, _⟩⟩ := h
      · exact derive_uses hbase (readAttributes_uses hs hown)
      · exact derive_uses hbase (readAttributes_uses hs hown)

theorem readDeclaredType_uses (hs : s.UsesHave P) {items : List Item}
    (h : readDeclaredType s owner name isAbstract mixed i items t = .ok (x, t')) : ∀ u ∈ x.attributes, P u := by
  rw [readDeclaredType] at h
  simp only [Reading.bind_eq_ok, Reading.lift_eq_ok, Reading.pure_eq_ok] at h
  obtain ⟨_, _, _, content, _, _, own, _, hown, rfl, _⟩ := h
  exact derive_uses (by simp) (readAttributes_uses hs hown)

theorem readComplexType_uses (hs : s.UsesHave P) (h : readComplexType s owner name i t = .ok (x, t')) :
    ∀ u ∈ x.attributes, P u := by
  cases readComplexType_ok h with
  | simple _ _ _ _ _ h => exact readSimpleContent_uses hs h
  | complex _ _ _ _ _ _ _ h => exact readComplexContent_uses hs h
  | declared _ _ _ h => exact readDeclaredType_uses hs h

/-! ### Definitions and elements -/

theorem readDefinition_uses (hs : s.UsesHave P) {key : DefinitionKey} {c : Component}
    (h : readDefinition s key i t = .ok (c, t')) : ∀ u ∈ c.uses, P u := by
  rw [readDefinition] at h
  cases hk : key.kind with
  | type =>
      simp only [hk, Reading.ite_eq_ok, Reading.bind_eq_ok, Reading.lift_eq_ok, Reading.pure_eq_ok] at h
      rcases h with ⟨_, x, _, h, rfl, _⟩ | ⟨_, u, _, _, rfl, _⟩
      · exact readComplexType_uses hs h
      · simp [Component.uses, TypeDefinition.uses]
  | group =>
      simp only [hk] at h
      obtain ⟨_, _, _, _, _, _, rfl, _⟩ := readGroup_ok h
      simp [Component.uses]
  | attributeGroup =>
      simp only [hk, Reading.bind_eq_ok, Reading.lift_eq_ok, Reading.pure_eq_ok] at h
      obtain ⟨items, _, _, set, _, h, rfl, _⟩ := h
      exact readAttributes_uses hs h
  | element => simp [hk] at h

theorem readElementType_uses (hs : s.UsesHave P) {p : PendingElement} {e : ReadElement}
    (h : readElementType s p t = .ok (e, t')) : ∀ type, e.type = some type → ∀ u ∈ type.uses, P u := by
  have hread := readOwnType_ok (readElementType_ok h).2
  intro type htype
  rw [htype] at hread
  cases hread with
  | named _ _ h _ => exact typeReference_uses hs h
  | complex _ _ _ x h => exact readComplexType_uses hs h
  | simple => simp [TypeDefinition.uses]
  | anything => simp [TypeDefinition.uses, ComplexType.anyType]

end Schema

end XmlSchema
