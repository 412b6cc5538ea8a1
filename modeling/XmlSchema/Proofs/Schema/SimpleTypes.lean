import XmlSchema.Proofs.Outcome
import XmlSchema.Proofs.Schema.WellFounded
import XmlSchema.Proofs.SimpleType.Bounds

/-!
How the simple types of a schema are put together. Each is built in or has been read from others of them: a restriction
with facets that were read for its base, a list of items that are no lists, a union of at least one type.
-/

namespace XmlSchema

open Schema

/-- The value of a literal is what the base makes of its text; lists and unions have texts for values. -/
def Literal.IsReadBy (base : SimpleType) (l : Literal) : Prop :=
  if base.variety = .atomic then Value.read base.primitiveOf (base.whiteSpace.apply l.lexical) = .ok l.value
  else l.value = .text (WhiteSpace.collapse.apply l.lexical)

/-- Only atomic types with an order have bounds. -/
structure Literal.IsBoundFor (base : SimpleType) (l : Literal) : Prop where
  atomic : base.variety = .atomic
  ordered : base.primitiveOf.isOrdered = true
  read : l.IsReadBy base

/-- The values in the facets were read by the base. -/
structure Facets.IsReadFor (base : SimpleType) (f : Facets) : Prop where
  enumeration : ∀ allowed, f.enumeration = some allowed → ∀ l ∈ allowed, l.IsReadBy base
  bounds : ∀ kind l, f.bound? kind = some l → l.IsBoundFor base

namespace SimpleType

/-- The type is built in, or was read from types that are so. -/
inductive IsBuilt : SimpleType → Prop
  | builtin {t : SimpleType} (h : t ∈ Builtin.all) : IsBuilt t
  | restriction {name : Option Name} {base : SimpleType} {facets : Facets} (hbase : IsBuilt base)
      (h : facets.IsReadFor base) : IsBuilt (.restriction name base facets)
  | list {name : Option Name} {item : SimpleType} (h : IsBuilt item) (hitem : item.variety ≠ .list) :
      IsBuilt (.list name (some item) {})
  | union {name : Option Name} {members : List SimpleType} (hne : members ≠ []) (h : ∀ m ∈ members, IsBuilt m) :
      IsBuilt (.union name members {})

theorem IsBuilt.link {t u : SimpleType} (h : t.IsBuilt) (hu : u ∈ t.links) : u.IsBuilt := by
  cases h with
  | builtin h => exact .builtin (Builtin.links_subset t h hu)
  | restriction hbase => exact List.mem_singleton.1 hu ▸ hbase
  | list h =>
      rw [links_list, Option.mem_toList] at hu
      exact Option.some.inj hu ▸ h
  | union _ h => exact h u hu

end SimpleType

namespace Schema

variable {base : SimpleType} {i : Item}

/-! ### Facets -/

theorem facetLiteral_ok {value : Text} {l : Literal} (h : facetLiteral base i value = .ok l) :
    l.lexical = value ∧ l.IsReadBy base := by
  rw [facetLiteral] at h
  rw [Literal.IsReadBy]
  split at h
  · next hatomic =>
      rw [if_pos hatomic]
      cases hread : Value.read base.primitiveOf (base.whiteSpace.apply value) with
      | ok v =>
          rw [hread] at h
          cases h
          exact ⟨rfl, hread⟩
      | error e => cases e <;> simp [hread] at h
  · next hother =>
      rw [if_neg hother]
      cases h
      exact ⟨rfl, rfl⟩

theorem facetBound_ok {value : Text} {l : Literal} (h : facetBound base i value = .ok l) : l.IsBoundFor base := by
  simp only [facetBound, Build.ite_eq_ok, Bool.and_eq_true, decide_eq_true_eq, Item.fail_eq_ok, and_false,
    or_false] at h
  exact ⟨h.1.1, h.1.2, (facetLiteral_ok h.2).2⟩

/-- What has been read so far was read for the base. -/
structure FacetReading.IsReadFor (base : SimpleType) (r : FacetReading) : Prop where
  enumeration : ∀ l ∈ r.enumeration, l.IsReadBy base
  bounds : ∀ kind l, r.facets.bound? kind = some l → l.IsBoundFor base

theorem Build.ends {α : Type} (x : Build α) : Ends (fun a => x = .ok a) (fun _ => True) x := by
  cases x with
  | ok a => exact .ok rfl
  | error e => exact .error trivial

theorem readFacet_isReadFor {r : FacetReading} (hr : r.IsReadFor base) :
    Ends (·.IsReadFor base) (fun _ => True) (readFacet base r i) := by
  obtain ⟨henumeration, hbounds⟩ := hr
  rw [readFacet]
  split
  · exact .error trivial
  next value _ =>
  refine .ite (fun _ => (Build.ends _).bind fun _ _ => .ok ⟨henumeration, hbounds⟩) fun _ => ?_
  refine .ite (fun _ => (Build.ends _).bind fun l hl => ?_) fun _ => ?_
  · exact .ok ⟨List.forall_mem_cons.2 ⟨(facetLiteral_ok hl).2, henumeration⟩, hbounds⟩
  refine .guard (fun _ => .error trivial) fun _ => ?_
  -- a count leaves the bounds alone, and a bound is that of its own kind
  have hcount {c : Prop} [Decidable c] {f : Int → Facets} {x : Build FacetReading} {seen : List Text}
      (hf : ∀ n kind, (f n).bound? kind = r.facets.bound? kind) (hx : Ends (·.IsReadFor base) (fun _ => True) x) :
      Ends (·.IsReadFor base) (fun _ => True) (if c then (do
        let n ← facetCount base i value
        let facets ← pure (f n)
        pure { r with facets, seen }) else x) :=
    .ite (fun _ => (Build.ends _).bind fun n _ => .ok ⟨henumeration, fun kind => hf n kind ▸ hbounds kind⟩) fun _ => hx
  have hbound {c : Prop} [Decidable c] {f : Literal → Facets} {x : Build FacetReading} {seen : List Text}
      (hf : ∀ b kind, (f b).bound? kind = some b ∨ (f b).bound? kind = r.facets.bound? kind)
      (hx : Ends (·.IsReadFor base) (fun _ => True) x) :
      Ends (·.IsReadFor base) (fun _ => True) (if c then (do
        let b ← facetBound base i value
        let facets ← pure (f b)
        pure { r with facets, seen }) else x) := by
    refine .ite (fun _ => (Build.ends _).bind fun b hb => .ok ⟨henumeration, fun kind l hl => ?_⟩) fun _ => hx
    rcases hf b kind with h | h
    · exact Option.some.inj (h.symm.trans hl) ▸ facetBound_ok hb
    · exact hbounds kind l (h ▸ hl)
  refine hcount (fun n kind => ?_) (hcount (fun n kind => ?_) (hcount (fun n kind => ?_) (hcount (fun n kind => ?_)
    (hcount (fun n kind => ?_) (hbound (fun b kind => ?_) (hbound (fun b kind => ?_) (hbound (fun b kind => ?_)
    (hbound (fun b kind => ?_) ?space))))))))
  case space =>
    refine .ite (fun _ => ?_) fun _ => (Build.ends _).bind fun _ h => nomatch h
    split
    · next w _ =>
        have hsame (kind : BoundKind) : Facets.bound? { r.facets with whiteSpace := some w } kind = r.facets.bound? kind := by
          cases kind <;> rfl
        exact .ok ⟨henumeration, fun kind => hsame kind ▸ hbounds kind⟩
    · exact (Build.ends _).bind fun _ h => nomatch h
  all_goals cases kind <;> first | rfl | exact .inl rfl | exact .inr rfl

theorem readFacets_isReadFor {items : List Item} {facets : Facets} (h : readFacets base items = .ok facets) :
    facets.IsReadFor base := by
  obtain ⟨r, hr, h⟩ := Build.bind_eq_ok.1 h
  obtain ⟨henumeration, hbounds⟩ : r.IsReadFor base := by
    refine Build.foldlM_induct (P := fun r => r.IsReadFor base) ?_ (fun r hr i _ r' h => ?_) hr
    · exact ⟨fun _ h => (nomatch h), fun kind _ h => by cases kind <;> cases h⟩
    · have hends := readFacet_isReadFor hr (i := i)
      rw [h] at hends
      cases hends with
      | ok h => exact h
  cases h
  have hsame (kind : BoundKind) : r.result.bound? kind = r.facets.bound? kind := by cases kind <;> rfl
  -- the values have been gathered in reverse
  refine ⟨fun allowed hallowed l hl => henumeration l ?_, fun kind => hsame kind ▸ hbounds kind⟩
  have hallowed : (if r.enumeration.isEmpty then none else some r.enumeration.reverse) = some allowed := hallowed
  split at hallowed
  · exact nomatch hallowed
  · exact List.mem_reverse.1 (Option.some.inj hallowed ▸ hl)

end Schema

/-! ### What is read -/

/-- The simple types of content and attributes are built. -/
structure ComplexType.IsBuilt (x : ComplexType) : Prop where
  content : ∀ t, x.content = .simple t → t.IsBuilt
  attributes : ∀ u ∈ x.attributes, u.declaration.type.IsBuilt

def TypeDefinition.IsBuilt : TypeDefinition → Prop
  | simple t => t.IsBuilt
  | complex x => x.IsBuilt

namespace Schema

def Component.IsBuilt : Component → Prop
  | type t => t.IsBuilt
  | group _ _ => True
  | attributeGroup set => ∀ u ∈ set.uses, u.declaration.type.IsBuilt

def Scope.FindsBuilt (s : Scope) : Prop := ∀ key c, s.definition? key = .ok (some c) → c.IsBuilt

variable {s : Scope} {owner : DefinitionKey} {t t' : Traces} {name : Option Name} {u : SimpleType}

theorem isBuilt_anySimple : SimpleType.anySimple.IsBuilt := .builtin (SimpleType.Builtin.primitive_mem_all .anySimpleType)

theorem isBuilt_anyType : ComplexType.anyType.IsBuilt := ⟨nofun, nofun⟩

theorem typeReference_isBuilt (hs : s.FindsBuilt) {name : Name} {type : TypeDefinition}
    (h : typeReference s.type? i name = .ok type) : type.IsBuilt := by
  rcases typeReference_ok h with rfl | ⟨u, hu, rfl⟩ | hfound
  · exact isBuilt_anyType
  · exact .builtin (SimpleType.mem_of_builtin? hu).1
  · exact hs _ _ hfound

theorem simpleTypeReference_isBuilt (hs : s.FindsBuilt) {name : Name}
    (h : simpleTypeReference s.type? i name = .ok u) : u.IsBuilt := by
  rw [simpleTypeReference, Build.bind_eq_ok] at h
  obtain ⟨type, htype, h⟩ := h
  cases type with
  | complex x => simp at h
  | simple t =>
      cases h
      exact typeReference_isBuilt hs htype

theorem simpleTypeReferences_isBuilt (hs : s.FindsBuilt) {value : Text} {types : List SimpleType}
    (h : simpleTypeReferences s.type? i value = .ok types) : ∀ u ∈ types, u.IsBuilt := by
  refine Build.mapM_forall (fun word _ u hu => ?_) h
  obtain ⟨name, _, hu⟩ := Build.bind_eq_ok.1 hu
  exact simpleTypeReference_isBuilt hs hu

mutual

theorem readSimpleType_isBuilt (hs : s.FindsBuilt) {name : Option Name} {u : SimpleType} (i : Item)
    (h : readSimpleType s.type? name i = .ok u) : u.IsBuilt := by
  match i with
  | .mk tag path none [body] =>
      rw [readSimpleType] at h
      simp only [Build.ite_eq_ok, reduceCtorEq, and_false, or_false] at h
      exact readSimpleBody_isBuilt hs body h.2
  | .mk tag path none [] | .mk tag path none (_ :: _ :: _) | .mk tag path (some _) inner =>
      simp [readSimpleType] at h

theorem readSimpleBody_isBuilt (hs : s.FindsBuilt) {name : Option Name} {u : SimpleType} (i : Item)
    (h : readSimpleBody s.type? name i = .ok u) : u.IsBuilt := by
  match i with
  | .mk tag path foreign inner =>
      unfold readSimpleBody at h
      dsimp only at h
      rcases Build.ite_eq_ok.1 h with ⟨_, h⟩ | ⟨_, h⟩
      · obtain ⟨_, _, h⟩ := Build.bind_eq_ok.1 h
        cases hb : (Item.mk tag path foreign inner).getFull? "base" with
        | some base =>
            rw [hb] at h
            simp only [Build.bind_eq_ok, Build.pure_eq_ok] at h
            obtain ⟨n, _, base, hbase, facets, hfacets, rfl⟩ := h
            exact .restriction (simpleTypeReference_isBuilt hs hbase) (readFacets_isReadFor hfacets)
        | none =>
            rw [hb] at h
            match inner with
            | [] => simp at h
            | first :: later =>
                simp only [Build.ite_eq_ok, Build.bind_eq_ok, Build.pure_eq_ok, Item.fail_eq_ok, and_false,
                  or_false] at h
                obtain ⟨_, base, hbase, facets, hfacets, rfl⟩ := h
                exact .restriction (readSimpleType_isBuilt hs first hbase) (readFacets_isReadFor hfacets)
      simp only [Build.ite_eq_ok, Build.bind_eq_ok] at h
      rcases h with ⟨_, named, hnamed, _, _, inline, hinline, h⟩ | ⟨_, named, hnamed, _, _, inline, hinline, h⟩
      · have hall := List.forall_mem_append.2
          ⟨simpleTypeReferences_isBuilt hs hnamed, readSimpleTypes_isBuilt hs inner hinline⟩
        split at h
        · next item hitem =>
            rw [hitem, List.forall_mem_singleton] at hall
            simp only [Build.ite_eq_ok, Build.pure_eq_ok, Item.fail_eq_ok, and_false, false_or] at h
            obtain ⟨hvariety, rfl⟩ := h
            exact .list hall hvariety
        · simp at h
      · have hall := List.forall_mem_append.2
          ⟨simpleTypeReferences_isBuilt hs hnamed, readSimpleTypes_isBuilt hs inner hinline⟩
        simp only [Build.pure_eq_ok, Item.fail_eq_ok, and_false, false_or, List.isEmpty_iff] at h
        obtain ⟨hne, rfl⟩ := h
        exact .union hne hall

theorem readSimpleTypes_isBuilt (hs : s.FindsBuilt) {parent : Text} {types : List SimpleType} (items : List Item)
    (h : readSimpleTypes s.type? parent items = .ok types) : ∀ u ∈ types, u.IsBuilt := by
  match items with
  | [] =>
      cases h
      exact fun _ h => nomatch h
  | i :: later =>
      rw [readSimpleTypes] at h
      simp only [Build.ite_eq_ok, Build.bind_eq_ok, Build.pure_eq_ok, Item.fail_eq_ok, false_and, exists_false,
        and_false, false_or] at h
      obtain ⟨_, type, htype, types', htypes, rfl⟩ := h
      exact List.forall_mem_cons.2 ⟨readSimpleType_isBuilt hs i htype, readSimpleTypes_isBuilt hs later htypes⟩

end

/-! ### Attributes -/

theorem attributeType_isBuilt (hs : s.FindsBuilt) (h : attributeType s i = .ok u) : u.IsBuilt := by
  rw [attributeType] at h
  obtain ⟨items, _, h⟩ := Build.bind_eq_ok.1 h
  dsimp only at h
  generalize i.getFull? "type" = type, items.filter _ = inline at h
  rcases type with _ | type <;> rcases inline with _ | ⟨first, later⟩
  · cases h
    exact isBuilt_anySimple
  · exact readSimpleType_isBuilt hs first h
  · obtain ⟨name, _, h⟩ := Build.bind_eq_ok.1 h
    exact simpleTypeReference_isBuilt hs h
  · simp at h

theorem globalAttribute_isBuilt (hs : s.FindsBuilt) {line : Nat} {name : Name} {d : AttributeDeclaration}
    (h : globalAttribute s line name = .ok d) : d.type.IsBuilt := by
  rw [globalAttribute] at h
  simp only [Build.ite_eq_ok, Build.pure_eq_ok] at h
  rcases h with ⟨_, rfl⟩ | ⟨_, h⟩
  · exact isBuilt_anySimple
  cases hi : s.attributes.lookup name with
  | none => simp [hi] at h
  | some i =>
      simp only [hi, Build.bind_eq_ok, Build.pure_eq_ok] at h
      obtain ⟨type, htype, _, _, rfl⟩ := h
      exact attributeType_isBuilt hs htype

theorem readAttributeUse_isBuilt (hs : s.FindsBuilt) {u : AttributeUse} (h : readAttributeUse s i t = .ok (u, t')) :
    u.declaration.type.IsBuilt := by
  rw [readAttributeUse] at h
  cases hu : Use.ofName? (Text.trim ((i.getFull? "use").getD "optional")) with
  | none => simp [hu] at h
  | some use =>
      cases hr : i.getFull? "ref" with
      | some ref =>
          simp only [hu, hr, Reading.ite_eq_ok, Reading.bind_eq_ok, Reading.lift_eq_ok, Reading.pure_eq_ok,
            Reading.modify_eq_ok, Item.fail_eq_ok, false_and, and_false, exists_false, false_or] at h
          obtain ⟨_, _, name, _, _, declaration, _, ⟨hd, _⟩, _, _, _, rfl, _⟩ := h
          exact globalAttribute_isBuilt hs hd
      | none =>
          simp only [hu, hr, Reading.ite_eq_ok, Reading.bind_eq_ok, Reading.lift_eq_ok, Item.fail_eq_ok, false_and,
            and_false, exists_false, false_or] at h
          cases hn : i.getFull? "name" with
          | none => simp [hn] at h
          | some name =>
              simp only [hn, Reading.bind_eq_ok, Reading.lift_eq_ok, Reading.pure_eq_ok] at h
              obtain ⟨_, _, type, _, ⟨htype, _⟩, _, _, _, rfl, _⟩ := h
              exact attributeType_isBuilt hs htype

theorem Scope.FindsBuilt.usesHave (hs : s.FindsBuilt) : s.UsesHave fun u => u.declaration.type.IsBuilt where
  read := fun _ _ _ _ h => readAttributeUse_isBuilt hs h
  found := by
    rintro key (type | _ | set) hc
    · cases type with
      | simple => exact fun _ h => nomatch h
      | complex x => exact (hs _ _ hc).attributes
    · exact fun _ h => nomatch h
    · exact hs _ _ hc

/-! ### Complex types -/

theorem readDerivation_isBuilt (hs : s.FindsBuilt) {d : Derivation} (h : readDerivation s i = .ok d) :
    d.base.IsBuilt := by
  obtain ⟨_, _, name, h⟩ := readDerivation_ok h
  exact typeReference_isBuilt hs h

theorem extensionBase_isBuilt {d : Derivation} (hd : d.base.IsBuilt) {inherited : AttributeSet}
    (h : extensionBase d = .ok (u, inherited)) : u.IsBuilt := by
  rw [extensionBase] at h
  cases hb : d.base with
  | simple t =>
      rw [hb] at h hd
      cases h
      exact hd
  | complex x =>
      rw [hb] at h hd
      dsimp only at h
      cases hc : x.content with
      | simple type =>
          rw [hc] at h
          cases h
          exact hd.content u hc
      | empty | elementOnly | mixed => simp [hc] at h

theorem restrictionBase_isBuilt {d : Derivation} (hd : d.base.IsBuilt) {inherited : AttributeSet}
    (h : restrictionBase d = .ok (u, inherited)) : u.IsBuilt := by
  rw [restrictionBase] at h
  cases hb : d.base with
  | simple t => simp [hb] at h
  | complex x =>
      rw [hb] at h hd
      dsimp only at h
      cases hc : x.content with
      | simple type =>
          rw [hc] at h
          cases h
          exact hd.content u hc
      | empty | elementOnly | mixed => simp [hc] at h

theorem restrictedType_isBuilt (hs : s.FindsBuilt) {base : SimpleType} {items later : List Item} (hbase : base.IsBuilt)
    (h : restrictedType s base items = .ok (u, later)) : u.IsBuilt := by
  cases items with
  | nil =>
      cases h
      exact hbase
  | cons first items =>
      rw [restrictedType] at h
      simp only [Build.ite_eq_ok, Build.bind_eq_ok, Build.pure_eq_ok, Prod.mk.injEq, Except.ok.injEq] at h
      rcases h with ⟨_, u, hu, rfl, _⟩ | ⟨_, rfl, _⟩
      · exact readSimpleType_isBuilt hs first hu
      · exact hbase

variable {isAbstract mixed : Bool} {x : ComplexType}

theorem readSimpleContent_isBuilt (hs : s.FindsBuilt) (h : readSimpleContent s name isAbstract i t = .ok (x, t')) :
    ∀ u, x.content = .simple u → u.IsBuilt := by
  rw [readSimpleContent] at h
  simp only [Reading.bind_eq_ok, Reading.lift_eq_ok, Reading.ite_eq_ok, Reading.pure_eq_ok] at h
  obtain ⟨d, _, ⟨hd, _⟩, parts, _, _, ⟨_, ⟨type, inherited⟩, _, ⟨hbase, _⟩, own, _, hown, rfl, _⟩ |
    ⟨_, ⟨type, inherited⟩, _, ⟨hbase, _⟩, ⟨base, later⟩, _, ⟨hrestricted, _⟩, facets, _, ⟨hfacets, _⟩, own, _, hown,
      rfl, _⟩⟩ := h
  · rintro _ ⟨⟩
    exact extensionBase_isBuilt (readDerivation_isBuilt hs hd) hbase
  · rintro _ ⟨⟩
    have hbase := restrictionBase_isBuilt (readDerivation_isBuilt hs hd) hbase
    exact .restriction (restrictedType_isBuilt hs hbase hrestricted) (readFacets_isReadFor hfacets)

theorem readComplexContent_notSimple (h : readComplexContent s owner name isAbstract mixed i t = .ok (x, t'))
    (u : SimpleType) : x.content ≠ .simple u := by
  rw [readComplexContent] at h
  simp only [Reading.bind_eq_ok, Reading.lift_eq_ok] at h
  obtain ⟨d, _, _, h⟩ := h
  cases hb : d.base with
  | simple type => simp [hb] at h
  | complex base =>
      simp only [hb, Reading.bind_eq_ok, Reading.lift_eq_ok, Reading.ite_eq_ok, Reading.pure_eq_ok] at h
      obtain ⟨_, _, _, _, _, _, _, _, _, ⟨_, _, _, _, content, _, ⟨hcontent, _⟩, own, _, _, rfl, _⟩ |
        ⟨_, content, _, ⟨hcontent, _⟩, own, _, _, rfl, _⟩⟩ := h
      · exact contentOfModel_simple hcontent u
      · exact contentOfModel_simple hcontent u

theorem readDeclaredType_notSimple {items : List Item}
    (h : readDeclaredType s owner name isAbstract mixed i items t = .ok (x, t')) (u : SimpleType) :
    x.content ≠ .simple u := by
  rw [readDeclaredType] at h
  simp only [Reading.bind_eq_ok, Reading.lift_eq_ok, Reading.pure_eq_ok] at h
  obtain ⟨_, _, _, content, _, ⟨hcontent, _⟩, own, _, _, rfl, _⟩ := h
  exact contentOfModel_simple hcontent u

theorem readComplexType_isBuilt (hs : s.FindsBuilt) (h : readComplexType s owner name i t = .ok (x, t')) :
    x.IsBuilt := by
  refine ⟨?_, readComplexType_uses hs.usesHave h⟩
  cases readComplexType_ok h with
  | simple _ _ _ _ _ h => exact readSimpleContent_isBuilt hs h
  | complex _ _ _ _ _ _ _ h => exact fun u hu => absurd hu (readComplexContent_notSimple h u)
  | declared _ _ _ h => exact fun u hu => absurd hu (readDeclaredType_notSimple h u)

/-! ### Definitions and elements -/

theorem readDefinition_isBuilt (hs : s.FindsBuilt) {key : DefinitionKey} {c : Component}
    (h : readDefinition s key i t = .ok (c, t')) : c.IsBuilt := by
  have huses := readDefinition_uses hs.usesHave h
  rw [readDefinition] at h
  cases hk : key.kind with
  | type =>
      simp only [hk, Reading.ite_eq_ok, Reading.bind_eq_ok, Reading.lift_eq_ok, Reading.pure_eq_ok] at h
      rcases h with ⟨_, x, _, h, rfl, _⟩ | ⟨_, u, _, ⟨h, _⟩, rfl, _⟩
      · exact readComplexType_isBuilt hs h
      · exact readSimpleType_isBuilt hs i h
  | group =>
      simp only [hk] at h
      obtain ⟨_, _, _, _, _, _, rfl, _⟩ := readGroup_ok h
      trivial
  | attributeGroup =>
      simp only [hk, Reading.bind_eq_ok, Reading.lift_eq_ok, Reading.pure_eq_ok] at h
      obtain ⟨_, _, _, set, _, _, rfl, _⟩ := h
      exact huses
  | element => simp [hk] at h

theorem readOwnType_isBuilt (hs : s.FindsBuilt) {p : PendingElement} {inline : List Item} {x : Option TypeDefinition}
    (h : readOwnType s p inline t = .ok (x, t')) : ∀ type, x = some type → type.IsBuilt := by
  unfold readOwnType at h
  generalize p.item.getFull? "type" = named at h
  rcases named with _ | name <;> rcases inline with _ | ⟨first, later⟩
  · rw [Reading.pure_eq_ok] at h
    obtain ⟨rfl, _⟩ := h
    intro type htype
    split at htype
    · exact nomatch htype
    · cases htype
      exact isBuilt_anyType
  · simp only [Reading.bind_eq_ok, Reading.lift_eq_ok, Reading.ite_eq_ok, Reading.pure_eq_ok] at h
    rcases h with ⟨_, x, _, h, rfl, _⟩ | ⟨_, u, _, ⟨h, _⟩, rfl, _⟩
    · rintro _ ⟨⟩
      exact readComplexType_isBuilt hs h
    · rintro _ ⟨⟩
      exact readSimpleType_isBuilt hs first h
  all_goals
    simp only [Reading.bind_eq_ok, Reading.lift_eq_ok, Reading.pure_eq_ok] at h
    obtain ⟨_, _, _, type, _, ⟨h, _⟩, rfl, _⟩ := h
    rintro _ ⟨⟩
    exact typeReference_isBuilt hs h

theorem readElementType_isBuilt (hs : s.FindsBuilt) {p : PendingElement} {e : ReadElement}
    (h : readElementType s p t = .ok (e, t')) : ∀ type, e.type = some type → type.IsBuilt :=
  readOwnType_isBuilt hs (readElementType_ok h).2

/-! ### Schemas -/

variable {r : Registry} {table : Table}

theorem meaning_isBuilt {n : Nat} {key : DefinitionKey} {c : Component} (hn : meaning r s n key = .ok (some c)) :
    c.IsBuilt := by
  induction n generalizing key c with
  | zero => cases hn
  | succ n ih =>
      rw [meaning] at hn
      cases hi : r.item? key with
      | none =>
          rw [hi] at hn
          cases hn
      | some i =>
          rw [hi] at hn
          obtain ⟨⟨c', t'⟩, hc, hn⟩ := Build.bind_eq_ok.1 hn
          cases hn
          exact readDefinition_isBuilt (fun _ _ h => ih h) hc

theorem Settles.isBuilt (h : Settles r s table) {key : DefinitionKey} {c : Component} (hc : table key = some c) :
    c.IsBuilt := by
  obtain ⟨n, hn⟩ := h key
  exact meaning_isBuilt (hn.trans (congrArg Except.ok hc))

theorem Settles.findsBuilt (h : Settles r s table) : (s.knowing table).FindsBuilt :=
  fun _ _ hc => h.isBuilt (Except.ok.inj hc)

theorem isBuilt_typeNamed? {schema : Schema} (h : ∀ name type, (name, type) ∈ schema.types → type.IsBuilt) {name : Name}
    {type : TypeDefinition} (hname : schema.typeNamed? name = some type) : type.IsBuilt := by
  rw [typeNamed?, resolveType?] at hname
  split at hname
  · split at hname
    · cases hname
      exact isBuilt_anyType
    · obtain ⟨u, hu, rfl⟩ := Option.map_eq_some_iff.1 hname
      exact SimpleType.IsBuilt.builtin (SimpleType.mem_of_builtin? hu).1
  · exact h name type (mem_of_lookup hname)

/-- The simple type of the text of an element is one of the schema. -/
theorem Holds.simpleType {schema : Schema} {type : TypeDefinition} (h : schema.Holds type) {t : SimpleType}
    (ht : type.simpleType? = some t) : schema.Holds (.simple t) := by
  cases type with
  | simple u => exact Option.some.inj ht ▸ h
  | complex x =>
      have ht : x.content.simpleType? = some t := ht
      cases hcontent : x.content with
      | simple u =>
          rw [hcontent] at ht
          exact .link _ _ h (.content x t (hcontent.trans (congrArg _ (Option.some.inj ht))))
      | empty | elementOnly | mixed => exact nomatch hcontent ▸ ht

/-- What is so of the simple type of a name is so of a type of the schema. -/
theorem exists_simpleType {root : Xml.Element} {name : Name} {α : Type} {f : SimpleType → α} {a : α}
    (h : (ofElement root).toOption.map (fun s => (s.types.lookup name).bind fun type => type.simpleType?.map f) =
      some (some a)) : ∃ schema t, ofElement root = .ok schema ∧ schema.Holds (.simple t) ∧ f t = a := by
  obtain ⟨schema, h, hnamed⟩ := Build.exists_of_map_toOption h
  obtain ⟨type, hlookup, hnamed⟩ := Option.bind_eq_some_iff.1 hnamed
  obtain ⟨t, htype, hnamed⟩ := Option.map_eq_some_iff.1 hnamed
  exact ⟨schema, t, h, Holds.simpleType (.type name type (mem_of_lookup hlookup)) htype, hnamed⟩

/-- All types of a schema rest on simple types that are built in or were read. -/
theorem ofElement_isBuilt {root : Xml.Element} {schema : Schema} (h : ofElement root = .ok schema)
    {type : TypeDefinition} (htype : schema.Holds type) : type.IsBuilt := by
  obtain ⟨_, _, r, order, read, elements, traces, sub, attributes, hr, horder, hread, hsub, hattributes, hschema⟩ :=
    ofElement_eq_ok.1 h
  obtain ⟨t₁, t₂, hread, _, helements⟩ := readRegistry_ok hread
  have hsettles := readDefinitions_settles (Registry.order_ok horder) hread
  rw [scopeOf_eq_knowing hsettles] at helements hattributes
  have htypes : ∀ name type, (name, type) ∈ schema.types → type.IsBuilt := by
    intro name type hmem
    rw [hschema] at hmem
    obtain ⟨_, _, hl, _⟩ := mem_namedTypes.1 hmem
    exact hsettles.isBuilt hl
  have hdeclared := declares_induct sub (P := TypeDefinition.IsBuilt) (congrArg Schema.elements hschema)
    (congrArg Schema.locals hschema) isBuilt_anyType fun e he => by
      obtain ⟨p, t, t', h⟩ := mem_readElements helements he
      exact readElementType_isBuilt hsettles.findsBuilt h
  induction htype with
  | type name type hmem => exact htypes name type hmem
  | element d hd => exact hdeclared d hd
  | globalAttribute name a ha =>
      rw [hschema] at ha
      refine Build.mapM_forall (P := fun p => p.2.type.IsBuilt) (fun name _ p hp => ?_) hattributes _ ha
      simp only [Build.bind_eq_ok, Build.pure_eq_ok] at hp
      obtain ⟨a, ha, rfl⟩ := hp
      exact globalAttribute_isBuilt hsettles.findsBuilt ha
  | attributeUse x u _ hu ih => exact ih.attributes u hu
  | link type type' _ hlink ih =>
      cases type with
      | simple t =>
          obtain ⟨u, hu, rfl⟩ := link_simple_iff.1 hlink
          exact SimpleType.IsBuilt.link ih hu
      | complex x =>
          cases hlink with
          | base _ _ hbase =>
              cases hbase with
              | complex _ name later _ _ hb => exact isBuilt_typeNamed? htypes hb
          | content _ u hu => exact ih.content u hu

end Schema

end XmlSchema
