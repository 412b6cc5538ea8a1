import XmlSchema.Proofs.Schema.Reading
import XmlSchema.Schema.Reader

/-!
Reading in scopes of which one knows all that the other knows. What succeeds in the one succeeds in the other, with the
same result; and wherever it starts, it leaves the same behind.
-/

namespace XmlSchema.Schema

variable {α β : Type}

/-! ### Builds -/

/-- Where the one succeeds, the other succeeds with the same result. -/
def Build.Le (x y : Build α) : Prop := ∀ a, x = .ok a → y = .ok a

namespace Build.Le

theorem refl (x : Build α) : Le x x := fun _ h => h

theorem bind {x y : Build α} {f g : α → Build β} (h : Le x y) (hf : ∀ a, Le (f a) (g a)) :
    Le (x >>= f) (y >>= g) := by
  intro b hb
  obtain ⟨a, ha, hb⟩ := Build.bind_eq_ok.1 hb
  exact Build.bind_eq_ok.2 ⟨a, h a ha, hf a b hb⟩

theorem ite {c : Prop} [Decidable c] {x y x' y' : Build α} (hx : Le x x') (hy : Le y y') :
    Le (if c then x else y) (if c then x' else y') := by
  split
  · exact hx
  · exact hy

theorem guard {c : Prop} [Decidable c] (x : Build PUnit) {f g : PUnit → Build β} (h : ∀ u, Le (f u) (g u)) :
    Le (if c then x >>= f else f ⟨⟩) (if c then x >>= g else g ⟨⟩) :=
  ite (bind (refl x) h) (h ⟨⟩)

theorem mapM {f g : α → Build β} (h : ∀ a, Le (f a) (g a)) (l : List α) : Le (l.mapM f) (l.mapM g) := by
  induction l with
  | nil => exact refl _
  | cons a l ih =>
      simp only [List.mapM_cons]
      exact bind (h a) fun b => bind ih fun bs => refl _

end Build.Le

/-! ### Readings -/

instance : Append Traces := ⟨fun left t => ⟨left.elements ++ t.elements, left.attributes ++ t.attributes⟩⟩

@[simp] theorem Traces.elements_append (left t : Traces) : (left ++ t).elements = left.elements ++ t.elements := rfl

@[simp] theorem Traces.attributes_append (left t : Traces) : (left ++ t).attributes = left.attributes ++ t.attributes :=
  rfl

theorem Traces.empty_append (t : Traces) : ({} : Traces) ++ t = t := rfl

theorem Traces.append_empty (t : Traces) : t ++ ({} : Traces) = t := by
  change Traces.mk (t.elements ++ []) (t.attributes ++ []) = t
  rw [List.append_nil, List.append_nil]

theorem Traces.append_assoc (t t₁ t₂ : Traces) : t ++ t₁ ++ t₂ = t ++ (t₁ ++ t₂) := by
  change Traces.mk (_ ++ _ ++ _) (_ ++ _ ++ _) = Traces.mk (_ ++ (_ ++ _)) (_ ++ (_ ++ _))
  rw [List.append_assoc, List.append_assoc]

/-- Where the one succeeds, the other succeeds with the same result and leaves the same behind, wherever it starts. -/
def Reading.Le (x y : Reading α) : Prop :=
  ∀ t a t', x t = .ok (a, t') → ∃ left : Traces, t' = left ++ t ∧ ∀ u, y u = .ok (a, left ++ u)

namespace Reading.Le

theorem pure (a : α) : Le (pure a) (pure a) := by
  intro t b t' h
  obtain ⟨rfl, rfl⟩ := Reading.pure_eq_ok.1 h
  exact ⟨{}, rfl, fun u => rfl⟩

theorem lift {x y : Build α} (h : Build.Le x y) : Le (liftM x) (liftM y) := by
  intro t a t' ha
  obtain ⟨hx, rfl⟩ := Reading.lift_eq_ok.1 ha
  exact ⟨{}, rfl, fun u => Reading.lift_eq_ok.2 ⟨h a hx, rfl⟩⟩

theorem bind {x y : Reading α} {f g : α → Reading β} (h : Le x y) (hf : ∀ a, Le (f a) (g a)) :
    Le (x >>= f) (y >>= g) := by
  intro t b t' hb
  obtain ⟨a, t₁, ha, hb⟩ := Reading.bind_eq_ok.1 hb
  obtain ⟨left₁, rfl, hy⟩ := h t a t₁ ha
  obtain ⟨left, rfl, hg⟩ := hf a _ b t' hb
  refine ⟨left ++ left₁, (Traces.append_assoc ..).symm, fun u => Reading.bind_eq_ok.2 ⟨a, _, hy u, ?_⟩⟩
  rw [Traces.append_assoc]
  exact hg (left₁ ++ u)

theorem ite {c : Prop} [Decidable c] {x y x' y' : Reading α} (hx : Le x x') (hy : Le y y') :
    Le (if c then x else y) (if c then x' else y') := by
  split
  · exact hx
  · exact hy

theorem guard {c : Prop} [Decidable c] (x : Build PUnit) {f g : PUnit → Reading β} (h : ∀ u, Le (f u) (g u)) :
    Le (if c then liftM x >>= f else f ⟨⟩) (if c then liftM x >>= g else g ⟨⟩) :=
  ite (bind (lift (.refl x)) h) (h ⟨⟩)

theorem from_empty {x y : Reading α} (h : Le x y) {a : α} {left : Traces} (hx : x {} = .ok (a, left)) (t : Traces) :
    y t = .ok (a, left ++ t) := by
  obtain ⟨left', rfl, hy⟩ := h {} a left hx
  rw [Traces.append_empty]
  exact hy t

theorem to_empty {x y : Reading α} (h : Le x y) {t t' : Traces} {a : α} (hx : x t = .ok (a, t')) :
    ∃ left : Traces, t' = left ++ t ∧ y {} = .ok (a, left) := by
  obtain ⟨left, rfl, hy⟩ := h t a t' hx
  exact ⟨left, rfl, by rw [hy {}, Traces.append_empty]⟩

theorem eq_ok_iff {x y : Reading α} (h : Le x y) (h' : Le y x) {a : α} {left : Traces} :
    x {} = .ok (a, left) ↔ y {} = .ok (a, left) := by
  have hle {x y : Reading α} (h : Le x y) (hx : x {} = .ok (a, left)) : y {} = .ok (a, left) := by
    simpa only [Traces.append_empty] using h.from_empty hx {}
  exact ⟨hle h, hle h'⟩

theorem leaveElement (e : PendingElement) :
    Le (modify fun t => { t with elements := e :: t.elements })
      (modify fun t => { t with elements := e :: t.elements }) := by
  intro t a t' h
  obtain rfl := Reading.modify_eq_ok.1 h
  exact ⟨⟨[e], []⟩, rfl, fun u => rfl⟩

theorem leaveAttribute (name : Name) :
    Le (modify fun t => { t with attributes := name :: t.attributes })
      (modify fun t => { t with attributes := name :: t.attributes }) := by
  intro t a t' h
  obtain rfl := Reading.modify_eq_ok.1 h
  exact ⟨⟨[], [name]⟩, rfl, fun u => rfl⟩

theorem foldlM {step step' : β → α → Reading β} (h : ∀ b a, Le (step b a) (step' b a)) (l : List α) (b : β) :
    Le (l.foldlM step b) (l.foldlM step' b) := by
  induction l generalizing b with
  | nil => exact pure b
  | cons a l ih =>
      simp only [List.foldlM_cons]
      exact bind (h b a) ih

end Reading.Le

/-! ### Scopes -/

/-- The one scope finds all that the other finds, and tells apart attributes and elements alike. -/
structure Scope.Le (s s' : Scope) : Prop where
  targetNamespace : s'.targetNamespace = s.targetNamespace
  elementsQualified : s'.elementsQualified = s.elementsQualified
  attributesQualified : s'.attributesQualified = s.attributesQualified
  definition? : ∀ key, Build.Le (s.definition? key) (s'.definition? key)
  attributes : ∀ name, s'.attributes.lookup name = s.attributes.lookup name
  elements : ∀ name, name ∈ s'.elements ↔ name ∈ s.elements

namespace Scope.Le

theorem refl (s : Scope) : s.Le s := ⟨rfl, rfl, rfl, fun _ => .refl _, fun _ => rfl, fun _ => .rfl⟩

variable {s s' : Scope}

theorem type? (hs : s.Le s') (name : Name) : Build.Le (s.type? name) (s'.type? name) := by
  unfold Scope.type?
  refine .bind (hs.definition? _) fun c => ?_
  exact .refl _

end Scope.Le

/-! ### Simple types -/

variable {known known' : TypeLookup}

theorem typeReference_le (hk : ∀ n, Build.Le (known n) (known' n)) (i : Item) (name : Name) :
    Build.Le (typeReference known i name) (typeReference known' i name) := by
  unfold typeReference
  exact .ite (.refl _) (.bind (hk name) fun _ => .refl _)

theorem simpleTypeReference_le (hk : ∀ n, Build.Le (known n) (known' n)) (i : Item) (name : Name) :
    Build.Le (simpleTypeReference known i name) (simpleTypeReference known' i name) := by
  unfold simpleTypeReference
  exact .bind (typeReference_le hk i name) fun _ => .refl _

theorem simpleTypeReferences_le (hk : ∀ n, Build.Le (known n) (known' n)) (i : Item) (value : Text) :
    Build.Le (simpleTypeReferences known i value) (simpleTypeReferences known' i value) := by
  unfold simpleTypeReferences
  exact .mapM (fun word => .bind (.refl _) fun name => simpleTypeReference_le hk i name) _

mutual

theorem readSimpleType_le (hk : ∀ n, Build.Le (known n) (known' n)) (name : Option Name) (i : Item) :
    Build.Le (readSimpleType known name i) (readSimpleType known' name i) := by
  match i with
  | .mk tag path none [body] =>
      unfold readSimpleType
      exact .ite (readSimpleBody_le hk name body) (.refl _)
  | .mk tag path none [] | .mk tag path none (_ :: _ :: _) | .mk tag path (some _) inner =>
      unfold readSimpleType
      exact .refl _

theorem readSimpleBody_le (hk : ∀ n, Build.Le (known n) (known' n)) (name : Option Name) (i : Item) :
    Build.Le (readSimpleBody known name i) (readSimpleBody known' name i) := by
  match i with
  | .mk tag path foreign inner =>
      unfold readSimpleBody
      dsimp only
      refine .ite (.bind (.refl _) fun _ => ?_) (.ite ?_ ?_)
      · cases (Item.mk tag path foreign inner).getFull? "base" with
        | some base =>
            exact .bind (.refl _) fun base => .bind (simpleTypeReference_le hk _ base) fun _ => .refl _
        | none =>
            match inner with
            | [] => exact .refl _
            | first :: facets => exact .ite (.bind (readSimpleType_le hk none first) fun _ => .refl _) (.refl _)
      · exact .bind (simpleTypeReferences_le hk _ _) fun _ => .bind (.refl _) fun _ =>
          .bind (readSimpleTypes_le hk _ inner) fun _ => .refl _
      · exact .bind (simpleTypeReferences_le hk _ _) fun _ => .bind (.refl _) fun _ =>
          .bind (readSimpleTypes_le hk _ inner) fun _ => .refl _

theorem readSimpleTypes_le (hk : ∀ n, Build.Le (known n) (known' n)) (parent : Text) (items : List Item) :
    Build.Le (readSimpleTypes known parent items) (readSimpleTypes known' parent items) := by
  match items with
  | [] => exact .refl _
  | i :: later =>
      unfold readSimpleTypes
      exact .guard _ fun _ => .bind (readSimpleType_le hk none i) fun _ =>
        .bind (readSimpleTypes_le hk parent later) fun _ => .refl _

end

/-! ### Attributes -/

variable {s s' : Scope}

theorem attributeType_le (hs : s.Le s') (i : Item) : Build.Le (attributeType s i) (attributeType s' i) := by
  unfold attributeType
  refine .bind (.refl _) fun items => ?_
  dsimp only
  generalize items.filter _ = inline
  rcases i.getFull? "type" with _ | type <;> rcases inline with _ | ⟨first, later⟩
  · exact .refl _
  · exact readSimpleType_le hs.type? none first
  · exact .bind (.refl _) fun name => simpleTypeReference_le hs.type? i name
  · exact .refl _

theorem globalAttribute_le (hs : s.Le s') (line : Nat) (name : Name) :
    Build.Le (globalAttribute s line name) (globalAttribute s' line name) := by
  unfold globalAttribute
  refine .ite (.refl _) ?_
  rw [hs.attributes]
  cases s.attributes.lookup name with
  | none => exact .refl _
  | some i => exact .bind (attributeType_le hs i) fun _ => .refl _

theorem localNamespace_eq (hs : s.Le s') (i : Item) (qualified : Bool) :
    localNamespace s' i qualified = localNamespace s i qualified := by
  unfold localNamespace
  rw [hs.targetNamespace]

theorem readWildcard_le (hs : s.Le s') (i : Item) : Build.Le (readWildcard s i) (readWildcard s' i) := by
  unfold readWildcard
  rw [hs.targetNamespace]
  exact .refl _

theorem readAttributeUse_le (hs : s.Le s') (i : Item) : Reading.Le (readAttributeUse s i) (readAttributeUse s' i) := by
  unfold readAttributeUse
  dsimp only
  cases Use.ofName? (Text.trim ((i.getFull? "use").getD "optional")) with
  | none => exact .lift (.refl _)
  | some use =>
      refine .guard _ fun _ => .guard _ fun _ => ?_
      cases i.getFull? "ref" with
      | some ref =>
          exact .bind (.lift (.refl _)) fun name => .bind (.lift (globalAttribute_le hs _ name)) fun declaration =>
            .bind (.leaveAttribute name) fun _ => .pure _
      | none =>
          cases i.getFull? "name" with
          | none => exact .lift (.refl _)
          | some name =>
              refine .bind (.lift (attributeType_le hs i)) fun type => .bind (.lift (.refl _)) fun _ => ?_
              rw [localNamespace_eq hs, hs.attributesQualified]
              exact .pure _

theorem readAttributeItem_le (hs : s.Le s') (parent : Text) (r : AttributeReading) (i : Item) :
    Reading.Le (readAttributeItem s parent r i) (readAttributeItem s' parent r i) := by
  unfold readAttributeItem
  refine .guard _ fun _ => .ite (.bind (readAttributeUse_le hs i) fun use => .guard _ fun _ => .pure _) (.ite ?_
    (.ite (.bind (.lift (readWildcard_le hs i)) fun _ => .pure _) (.lift (.refl _))))
  cases i.getFull? "ref" with
  | none => exact .lift (.refl _)
  | some ref =>
      refine .bind (.lift (.refl _)) fun name => .bind (.lift (hs.definition? _)) fun c => ?_
      rcases c with _ | _ | _ | _
      · exact .lift (.refl _)
      · exact .lift (.refl _)
      · exact .lift (.refl _)
      · exact .pure _

theorem readAttributes_le (hs : s.Le s') (parent : Text) (items : List Item) :
    Reading.Le (readAttributes s parent items) (readAttributes s' parent items) := by
  unfold readAttributes
  exact .bind (.foldlM (readAttributeItem_le hs parent) items {}) fun _ => .pure _

/-! ### Particles -/

variable {owner : DefinitionKey}

theorem readLocalElement_le (hs : s.Le s') (i : Item) :
    Reading.Le (readLocalElement s owner i) (readLocalElement s' owner i) := by
  unfold readLocalElement
  cases i.getFull? "name" with
  | none => exact .lift (.refl _)
  | some name =>
      dsimp only
      rw [localNamespace_eq hs, hs.elementsQualified]
      exact .bind (.lift (.refl _)) fun _ => .bind (.leaveElement _) fun _ => .pure _

theorem readElementParticle_le (hs : s.Le s') (o : Occurs) (i : Item) :
    Reading.Le (readElementParticle s owner o i) (readElementParticle s' owner o i) := by
  unfold readElementParticle
  cases i.getFull? "ref" with
  | none => exact .bind (readLocalElement_le hs i) fun _ => .pure _
  | some ref =>
      refine .bind (.lift (.refl _)) fun name => ?_
      have helements : s'.elements.contains name = s.elements.contains name := by
        rw [Bool.eq_iff_iff, List.contains_iff_mem, List.contains_iff_mem, hs.elements]
      rw [helements]
      exact .ite (.pure _) (.lift (.refl _))

theorem readGroupReference_le (hs : s.Le s') (o : Occurs) (i : Item) :
    Reading.Le (readGroupReference s o i) (readGroupReference s' o i) := by
  unfold readGroupReference
  cases i.getFull? "ref" with
  | none => exact .lift (.refl _)
  | some ref =>
      refine .bind (.lift (.refl _)) fun name => .bind (.lift (hs.definition? _)) fun c => ?_
      rcases c with _ | _ | _ | _
      · exact .lift (.refl _)
      · exact .lift (.refl _)
      · exact .pure _
      · exact .lift (.refl _)

mutual

theorem readParticle_le (hs : s.Le s') (i : Item) :
    Reading.Le (readParticle s owner i) (readParticle s' owner i) := by
  match i with
  | .mk tag path foreign inner =>
      unfold readParticle
      dsimp only
      refine .guard _ fun _ => .bind (.lift (.refl _)) fun o => .ite (.pure _)
        (.ite (.bind (readElementParticle_le hs o _) fun _ => .pure _)
          (.ite (.bind (.lift (readWildcard_le hs _)) fun _ => .pure _) ?_))
      cases compositor? (Item.mk tag path foreign inner).kind with
      | none => exact .bind (readGroupReference_le hs o _) fun _ => .pure _
      | some compositor =>
          exact .bind (.lift (.refl _)) fun _ => .bind (readMembers_le hs compositor [] inner) fun members =>
            .guard _ fun _ => .pure _

theorem readMembers_le (hs : s.Le s') (compositor : Compositor) (read : List Particle) (items : List Item) :
    Reading.Le (readMembers s owner compositor read items) (readMembers s' owner compositor read items) := by
  match items with
  | [] =>
      unfold readMembers
      exact .pure _
  | i :: later =>
      unfold readMembers
      refine .guard _ fun _ => .bind (readParticle_le hs i) fun x => ?_
      cases x with
      | none => exact readMembers_le hs compositor read later
      | some p => exact .guard _ fun _ => readMembers_le hs compositor (p :: read) later

end

theorem readGroup_le (hs : s.Le s') (i : Item) : Reading.Le (readGroup s owner i) (readGroup s' owner i) := by
  unfold readGroup
  refine .bind (.lift (.refl _)) fun items => ?_
  rcases items with _ | ⟨body, _ | ⟨_, _⟩⟩
  · exact .lift (.refl _)
  · refine .guard _ fun _ => .guard _ fun _ => .bind (readParticle_le hs body) fun x => ?_
    rcases x with _ | _ | _ | _
    · exact .lift (.refl _)
    · exact .lift (.refl _)
    · exact .lift (.refl _)
    · exact .pure _
  · exact .lift (.refl _)

theorem readModel_le (hs : s.Le s') (items : List Item) :
    Reading.Le (readModel s owner items) (readModel s' owner items) := by
  unfold readModel
  cases items with
  | nil => exact .pure _
  | cons first later => exact .ite (.bind (readParticle_le hs first) fun _ => .pure _) (.pure _)

/-! ### Complex types -/

theorem readDerivation_le (hs : s.Le s') (i : Item) : Build.Le (readDerivation s i) (readDerivation s' i) := by
  unfold readDerivation
  refine .bind (.refl _) fun items => ?_
  rcases items with _ | ⟨body, _ | ⟨_, _⟩⟩
  · exact .refl _
  · refine .guard _ fun _ => ?_
    cases body.getFull? "base" with
    | none => exact .refl _
    | some base => exact .bind (.refl _) fun name => .bind (typeReference_le hs.type? body name) fun _ => .refl _
  · exact .refl _

theorem restrictedType_le (hs : s.Le s') (base : SimpleType) (items : List Item) :
    Build.Le (restrictedType s base items) (restrictedType s' base items) := by
  cases items with
  | nil => exact .refl _
  | cons first later =>
      unfold restrictedType
      exact .ite (.bind (readSimpleType_le hs.type? none first) fun _ => .refl _) (.refl _)

variable {name : Option Name} {isAbstract mixed : Bool}

theorem readSimpleContent_le (hs : s.Le s') (i : Item) :
    Reading.Le (readSimpleContent s name isAbstract i) (readSimpleContent s' name isAbstract i) := by
  unfold readSimpleContent
  exact .bind (.lift (readDerivation_le hs i)) fun d => .bind (.lift (.refl _)) fun parts => .ite
    (.bind (.lift (.refl _)) fun kept => .bind (readAttributes_le hs _ _) fun _ => .pure _)
    (.bind (.lift (.refl _)) fun kept => .bind (.lift (restrictedType_le hs _ _)) fun restricted =>
      .bind (.lift (.refl _)) fun facets => .bind (readAttributes_le hs _ _) fun _ => .pure _)

theorem readComplexContent_le (hs : s.Le s') (i : Item) :
    Reading.Le (readComplexContent s owner name isAbstract mixed i)
      (readComplexContent s' owner name isAbstract mixed i) := by
  unfold readComplexContent
  refine .bind (.lift (readDerivation_le hs i)) fun d => ?_
  cases d.base with
  | simple t => exact .lift (.refl _)
  | complex base =>
      exact .bind (.lift (.refl _)) fun mixed => .bind (.lift (.refl _)) fun items =>
        .bind (readModel_le hs items) fun model => .ite
          (.bind (.lift (.refl _)) fun _ => .bind (.lift (.refl _)) fun _ => .bind (readAttributes_le hs _ _) fun _ =>
            .pure _)
          (.bind (.lift (.refl _)) fun _ => .bind (readAttributes_le hs _ _) fun _ => .pure _)

theorem readDeclaredType_le (hs : s.Le s') (i : Item) (items : List Item) :
    Reading.Le (readDeclaredType s owner name isAbstract mixed i items)
      (readDeclaredType s' owner name isAbstract mixed i items) := by
  unfold readDeclaredType
  exact .bind (readModel_le hs items) fun model => .bind (.lift (.refl _)) fun _ =>
    .bind (readAttributes_le hs _ _) fun _ => .pure _

theorem readComplexType_le (hs : s.Le s') (i : Item) :
    Reading.Le (readComplexType s owner name i) (readComplexType s' owner name i) := by
  unfold readComplexType
  refine .bind (.lift (.refl _)) fun isAbstract => .bind (.lift (.refl _)) fun mixed =>
    .bind (.lift (.refl _)) fun items => ?_
  cases items with
  | nil => exact readDeclaredType_le hs i []
  | cons first later =>
      exact .ite (readSimpleContent_le hs first) (.ite (readComplexContent_le hs first) (readDeclaredType_le hs i _))

/-! ### Definitions and elements -/

theorem readDefinition_le (hs : s.Le s') (key : DefinitionKey) (i : Item) :
    Reading.Le (readDefinition s key i) (readDefinition s' key i) := by
  unfold readDefinition
  cases key.kind with
  | type =>
      exact .ite (.bind (readComplexType_le hs i) fun _ => .pure _)
        (.bind (.lift (readSimpleType_le hs.type? _ i)) fun _ => .pure _)
  | group => exact readGroup_le hs i
  | attributeGroup => exact .bind (.lift (.refl _)) fun items => .bind (readAttributes_le hs _ items) fun _ => .pure _
  | element => exact .lift (.refl _)

theorem readOwnType_le (hs : s.Le s') (p : PendingElement) (inline : List Item) :
    Reading.Le (readOwnType s p inline) (readOwnType s' p inline) := by
  unfold readOwnType
  rcases p.item.getFull? "type" with _ | type <;> rcases inline with _ | ⟨first, later⟩
  · exact .pure _
  · exact .ite (.bind (readComplexType_le hs first) fun _ => .pure _)
      (.bind (.lift (readSimpleType_le hs.type? none first)) fun _ => .pure _)
  · exact .bind (.lift (.refl _)) fun name => .bind (.lift (typeReference_le hs.type? p.item name)) fun _ => .pure _
  · exact .bind (.lift (.refl _)) fun name => .bind (.lift (typeReference_le hs.type? p.item name)) fun _ => .pure _

theorem readElementType_le (hs : s.Le s') (p : PendingElement) :
    Reading.Le (readElementType s p) (readElementType s' p) := by
  unfold readElementType
  refine .bind (.lift (.refl _)) fun items => .guard _ fun _ => .guard _ fun _ =>
    .bind (readOwnType_le hs p _) fun type => ?_
  cases type.bind (·.simpleType?) with
  | none => exact .pure _
  | some simple => exact .bind (.lift (.refl _)) fun _ => .pure _

end XmlSchema.Schema
