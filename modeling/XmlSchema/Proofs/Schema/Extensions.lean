import XmlSchema.Proofs.Schema.EmptyModels
import XmlSchema.Proofs.Schema.Reporting
import XmlSchema.Proofs.Schema.ValueConstraints

/-!
Extension of complex content. The children that an extended type permits are those of its base followed by those that
fit the group of its own; along a chain of extensions the children of the first base come first.
-/

namespace XmlSchema

/-- Empty groups are dropped from the content: the only one that is left is the empty sequence. -/
def ContentType.IsSimplified (c : ContentType) : Prop :=
  ∀ p, c.model? = some p → p.isEmptyGroup = true → p = .emptySequence

namespace Schema

variable {root : Xml.Element} {r : Registry} {s : Scope} {table : Table} {i : Item} {t t' : Traces}

open Content

/-! ### Models that are extended -/

section

variable {substitutes : Name → List Name}

theorem fitting_extendModel {first second : Option Particle} (h₁ : ∀ p, first = some p → p.HasRanges)
    (h₂ : ∀ p, second = some p → p.HasRanges) :
    fitting substitutes (extendModel first second) = fitting substitutes first * fitting substitutes second := by
  cases first with
  | none => rw [extendModel, fitting_none, one_mul]
  | some a =>
      cases second with
      | none => rw [extendModel, fitting_none, mul_one]
      | some b =>
          have hranges : (Particle.group .sequence [a, b] {} none).HasRanges :=
            Particle.hasRanges_group.2 ⟨by decide,
              List.forall_mem_cons.2 ⟨h₁ a rfl, List.forall_mem_singleton.2 (h₂ b rfl)⟩⟩
          rw [extendModel, fitting_some hranges, fitting_some (h₁ a rfl), fitting_some (h₂ b rfl), Particle.taken_pair]

theorem fitting_nonEmptyModel {base : ContentType} (hs : base.IsSimplified) {first : Option Particle}
    (h : nonEmptyModel base.model? = .ok first) : fitting substitutes first = fitting substitutes base.model? := by
  obtain rfl := nonEmptyModel_ok h
  cases hm : base.model? with
  | none => rw [Option.filter_none]
  | some p =>
      cases hp : p.isEmptyGroup with
      | false => simp [Option.filter_some, hp]
      | true =>
          obtain rfl := hs p hm hp
          rw [fitting_some (by decide), Particle.taken_emptySequence]
          exact fitting_none

/-- Extended content permits what the base permits, followed by what fits the group of its own. -/
theorem fitting_extension {base content : ContentType} {first own : Option Particle} {mixed : Bool}
    (hs : base.IsSimplified) (hbase : ∀ p, base.model? = some p → p.HasRanges)
    (hown : ∀ p, own = some p → p.HasRanges) (ha : ∀ p, own = some p → p.HasAlternatives)
    (hfirst : nonEmptyModel base.model? = .ok first) (h : contentOfModel (extendModel first own) mixed = .ok content) :
    fitting substitutes content.model? = fitting substitutes base.model? * fitting substitutes own := by
  have hranges : ∀ p, first = some p → p.HasRanges := by
    intro p hp
    rw [nonEmptyModel_ok hfirst] at hp
    exact hbase p (Option.filter_eq_some_iff.1 hp).1
  rw [← fitting_nonEmptyModel hs hfirst, ← fitting_extendModel hranges hown]
  have hpair : ∀ p, extendModel first own = some p → p.HasRanges := by
    refine extendModel_induct (fun a b ha hb => ?_) hranges hown
    exact Particle.hasRanges_group.2 ⟨by decide, List.forall_mem_cons.2 ⟨ha, List.forall_mem_singleton.2 hb⟩⟩
  refine fitting_of_isEmptiable hpair (fun p hp he => ?_) h
  -- with a base that is not empty nothing is dropped; without one the group stands for itself
  cases first with
  | none => exact Particle.isEmptiable_of_isEmptyGroup he (ha p hp)
  | some a =>
      have hne : a.isEmptyGroup = false := by
        have := (Option.filter_eq_some_iff.1 (nonEmptyModel_ok hfirst).symm).2
        simpa using this
      cases own with
      | none =>
          cases hp
          cases hne.symm.trans he
      | some b =>
          cases hp
          cases hne.symm.trans (Particle.isEmptyGroup_group.1 he a List.mem_cons_self)

end

/-! ### Content that is read -/

theorem isSimplified_of_contentOfModel {model : Option Particle} {mixed : Bool} {content : ContentType}
    (h : contentOfModel model mixed = .ok content) : content.IsSimplified := by
  intro p hp he
  rcases contentOfModel_ok h with ⟨q, _, hne, rfl⟩ | ⟨_, rfl⟩
  · have hq : p = q := by cases mixed <;> cases hp <;> rfl
    cases hne.symm.trans (hq ▸ he)
  · cases mixed <;> cases hp
    rfl

theorem isSimplified_anyType : ComplexType.anyType.content.IsSimplified := by
  rintro p ⟨⟩ he
  exact absurd he (by decide)

theorem isSimplified_of_readComplexType {owner : DefinitionKey} {name : Option Name} {x : ComplexType}
    (h : readComplexType s owner name i t = .ok (x, t')) : x.content.IsSimplified := by
  cases readComplexType_ok h with
  | simple _ _ _ _ _ h =>
      obtain ⟨⟨type, hcontent⟩, _⟩ := readSimpleContent_ok h
      rw [hcontent]
      exact nofun
  | complex _ _ _ _ _ _ _ h =>
      obtain ⟨_, _, _, _, _, _, _, _, _, _, _, ⟨_, _, _, h⟩ | ⟨_, h⟩⟩ := readComplexContent_ok h
      · exact isSimplified_of_contentOfModel h
      · exact isSimplified_of_contentOfModel h
  | declared _ _ _ h =>
      obtain ⟨_, _, _, _, _, h⟩ := readDeclaredType_ok h
      exact isSimplified_of_contentOfModel h

/-- A complex type that is defined is read from the item of its definition. -/
theorem Settles.readComplexType (h : Settles r s table) {key : DefinitionKey} {x : ComplexType}
    (hx : table key = some (.type (.complex x))) : ∃ i t', r.item? key = some i ∧
      Schema.readComplexType (s.knowing table) key (some key.name) i {} = .ok (x, t') := by
  cases hi : r.item? key with
  | none => cases hx.symm.trans (h.eq_none hi)
  | some i =>
      obtain ⟨c, left, hc, hread⟩ := h.reading hi
      obtain rfl := Option.some.inj (hx.symm.trans hc)
      obtain ⟨hk, _⟩ := h.sound hx
      rw [readDefinition] at hread
      simp only [hk, Reading.ite_eq_ok, Reading.bind_eq_ok, Reading.lift_eq_ok, Reading.pure_eq_ok] at hread
      rcases hread with ⟨_, x', t', hread, hx', _⟩ | ⟨_, _, _, _, hx', _⟩
      · cases hx'
        exact ⟨i, t', rfl, hread⟩
      · cases hx'

theorem type?_knowing (name : Name) : (s.knowing table).type? name = .ok (table.type? name) := by
  have hknown : (s.knowing table).definition? ⟨.type, name⟩ = .ok (table ⟨.type, name⟩) := rfl
  rw [Scope.type?, hknown, Table.type?]
  rcases table ⟨.type, name⟩ with _ | _ | _ | _ <;> rfl

theorem Settles.isSimplified (h : Settles r s table) {key : DefinitionKey} {x : ComplexType}
    (hx : table key = some (.type (.complex x))) : x.content.IsSimplified := by
  obtain ⟨_, _, _, hread⟩ := h.readComplexType hx
  exact isSimplified_of_readComplexType hread

theorem Settles.isSimplified_typeReference (h : Settles r s table) {name : Name} {x : ComplexType}
    (hx : typeReference (s.knowing table).type? i name = .ok (.complex x)) : x.content.IsSimplified := by
  rcases typeReference_ok hx with hany | ⟨_, _, hsimple⟩ | hc
  · cases hany
    exact isSimplified_anyType
  · cases hsimple
  · exact h.isSimplified (Except.ok.inj hc)

/-! ### One extension -/

/-- The item of a complex type holds an extension of complex content. -/
def Item.extendsContent (i : Item) : Bool :=
  match i.items with
  | content :: _ => content.is "complexContent" && match content.items with
    | [body] => body.is "extension"
    | _ => false
  | [] => false

/-- A complex type is read from an item that extends a base by a group of its own, or by none. -/
inductive Extends (s : Scope) (i : Item) (x base : ComplexType) (own : Option Particle) : Prop
  | intro (owner : DefinitionKey) (name : Option Name) (t t' : Traces)
      (h : readComplexType s owner name i t = .ok (x, t')) (content : Item) (later : List Item)
      (hi : i.items = content :: later) (hc : content.is "complexContent" = true) (body : Item)
      (hd : readDerivation s content = .ok ⟨body, true, .complex base⟩) (rest : List Item) (t₁ : Traces)
      (hm : readModel s owner body.items t = .ok ((own, rest), t₁))

theorem not_is_simpleContent (h : i.is "complexContent" = true) : i.is "simpleContent" = false := by
  rw [Item.is, of_decide_eq_true h]
  rfl

theorem extends_of_readComplexType {owner : DefinitionKey} {name : Option Name} {x : ComplexType}
    (h : readComplexType s owner name i t = .ok (x, t')) (hi : i.extendsContent = true) :
    ∃ base own, Extends s i x base own := by
  rw [Item.extendsContent] at hi
  cases hitems : i.items with
  | nil => simp [hitems] at hi
  | cons content later =>
      simp only [hitems, Bool.and_eq_true] at hi
      obtain ⟨hc, hbody⟩ := hi
      cases readComplexType_ok h with
      | simple _ _ hi' hs _ _ =>
          cases hitems.symm.trans hi'
          cases hs.symm.trans (not_is_simpleContent hc)
      | complex _ _ hi' _ _ _ _ hread =>
          cases hitems.symm.trans hi'
          obtain ⟨⟨body, isExtension, _⟩, base, _, own, rest, t₁, hd, rfl, _, hm, _⟩ := readComplexContent_ok hread
          obtain ⟨hsingle, hextension, _⟩ := readDerivation_ok hd
          rw [hsingle] at hbody
          obtain rfl : isExtension = true := hextension.trans hbody
          exact ⟨base, own, owner, name, t, t', h, content, later, hitems, hc, body, hd, rest, t₁, hm⟩
      | declared hi' =>
          obtain ⟨_, hno⟩ := hi' content later hitems
          cases hno.symm.trans hc

namespace Extends

variable {x base : ComplexType} {own : Option Particle}

theorem content_eq (h : Extends s i x base own) : x.bases = (TypeDefinition.complex base).lineage ∧
    ∃ first mixed, nonEmptyModel base.content.model? = .ok first ∧
      contentOfModel (extendModel first own) mixed = .ok x.content := by
  obtain ⟨owner, name, t, t', h, content, later, hi, hc, body, hd, rest, t₁, hm⟩ := h
  cases readComplexType_ok h with
  | simple _ _ hi' hs _ _ =>
      cases hi.symm.trans hi'
      cases hs.symm.trans (not_is_simpleContent hc)
  | declared hi' =>
      obtain ⟨_, hno⟩ := hi' content later hi
      cases hno.symm.trans hc
  | complex _ _ hi' _ _ _ _ hread =>
      cases hi.symm.trans hi'
      obtain ⟨d, base', mixed, own', rest', t₁', hd', hb, _, hm', _, hcases⟩ := readComplexContent_ok hread
      cases hd.symm.trans hd'
      cases hb
      cases hm.symm.trans hm'
      rcases hcases with ⟨_, first, hfirst, hcontent⟩ | ⟨hno, _⟩
      · exact ⟨readComplexContent_bases hread hd, first, _, hfirst, hcontent⟩
      · cases hno

theorem ranges_own (h : Extends s i x base own) (hs : table.ScopeSound s) : ∀ p, own = some p → p.HasRanges := by
  obtain ⟨_, _, _, _, _, _, _, _, _, _, _, _, _, hm⟩ := h
  exact fun p hp => (readModel_sound hs hm p hp).ranges

theorem base_of_scope (h : Extends s i x base own) (hs : table.ScopeSound s) : table.Base (.complex base) := by
  obtain ⟨_, _, _, _, _, _, _, _, _, _, hd, _⟩ := h
  exact readDerivation_base hs hd

theorem isSimplified_base (h : Extends (s.knowing table) i x base own) (hs : Settles r s table) :
    base.content.IsSimplified := by
  obtain ⟨_, _, _, _, _, _, _, _, _, _, hd, _⟩ := h
  obtain ⟨_, _, name, hname⟩ := readDerivation_ok hd
  exact hs.isSimplified_typeReference hname

/-- An extended type permits what its base permits, followed by what fits the group of its own. -/
theorem fitting (h : Extends (s.knowing table) i x base own) (hs : Settles r s table)
    (ha : ∀ p, own = some p → p.HasAlternatives) (substitutes : Name → List Name) :
    Content.fitting substitutes x.content.model? =
      Content.fitting substitutes base.content.model? * Content.fitting substitutes own := by
  obtain ⟨_, first, mixed, hfirst, hcontent⟩ := h.content_eq
  have hbase := (h.base_of_scope hs.scopeSound).sound
  exact fitting_extension (h.isSimplified_base hs) (fun p hp => (hbase.model p hp).ranges)
    (h.ranges_own hs.scopeSound) ha hfirst hcontent

end Extends

/-! ### Chains of extensions -/

/-- A complex type comes of another by extensions, each with a group of its own that has no choice without
alternatives. -/
inductive ExtendsBy (s : Scope) (first : ComplexType) : List (Option Particle) → ComplexType → Prop
  | none : ExtendsBy s first [] first
  | extend {i : Item} {base x : ComplexType} {owns : List (Option Particle)} {own : Option Particle}
      (hbase : ExtendsBy s first owns base) (h : Extends s i x base own)
      (ha : ∀ p, own = some p → p.HasAlternatives) : ExtendsBy s first (owns ++ [own]) x

theorem ExtendsBy.fitting (hs : Settles r s table) {first x : ComplexType} {owns : List (Option Particle)}
    (h : ExtendsBy (s.knowing table) first owns x) (substitutes : Name → List Name) :
    Content.fitting substitutes x.content.model? =
      Content.fitting substitutes first.content.model? * (owns.map (Content.fitting substitutes)).prod := by
  induction h with
  | none => rw [List.map_nil, List.prod_nil, mul_one]
  | extend _ h ha ih => rw [h.fitting hs ha, ih, mul_assoc, List.map_append, List.prod_append, List.map_singleton,
      List.prod_singleton]

/-! ### Items of the document -/

theorem Item.From.of_within {j : Item} (hi : i.From root) (h : j.Within i) : j.From root := by
  induction h with
  | refl => exact hi
  | inside hm _ ih => exact ih (hi.of_mem hm)

theorem Registry.From.top? (hr : r.From root) {key : DefinitionKey} (h : r.top? key = some i) : i.From root := by
  rw [Registry.top?] at h
  split at h
  · obtain ⟨p, hp, heq⟩ := List.mem_map.1 (mem_of_lookup h)
    obtain ⟨_, rfl⟩ := Prod.mk.inj heq
    exact (hr.elements p hp).item
  · exact hr.item? key i h

theorem PendingElement.IsListed.from {p : PendingElement} (h : p.IsListed r) (hr : r.Outermost) (hfrom : r.From root) :
    p.item.From root := by
  obtain ⟨i, hi, _, _, hwithin⟩ := h.exists_top hr
  exact (hfrom.top? hi).of_within hwithin

theorem from_of_ofRoot (h : Registry.ofRoot root = .ok r) : r.From root := by
  have hends := Registry.ofRoot_ends root
  rw [h] at hends
  cases hends with
  | ok h => exact h

/-- A complex type, if it is one, is that of anything or has been read from an item of the document. -/
def IsRead (root : Xml.Element) (s : Scope) (type : TypeDefinition) : Prop :=
  ∀ x, type = .complex x → x = .anyType ∨
    ∃ i owner name t t', i.From root ∧ readComplexType s owner name i t = .ok (x, t')

theorem Settles.isRead (h : Settles r s table) (hr : r.From root) {key : DefinitionKey} {type : TypeDefinition}
    (hx : table key = some (.type type)) : IsRead root (s.knowing table) type := by
  rintro x rfl
  obtain ⟨i, t', hi, hread⟩ := h.readComplexType hx
  exact .inr ⟨i, key, some key.name, {}, t', hr.item? key i hi, hread⟩

theorem Settles.isRead_readElementType (h : Settles r s table) (hr : r.From root) {p : PendingElement}
    (hp : p.item.From root) {e : ReadElement} (he : readElementType (s.knowing table) p t = .ok (e, t')) :
    ∀ type, e.type = some type → IsRead root (s.knowing table) type := by
  intro type htype
  have hread := readOwnType_ok (readElementType_ok he).2
  rw [htype] at hread
  cases hread with
  | named name _ htype _ =>
      rcases typeReference_ok htype with rfl | ⟨_, _, rfl⟩ | hc
      · rintro _ ⟨⟩
        exact .inl rfl
      · exact nofun
      · exact h.isRead hr (Except.ok.inj hc)
  | complex first hi _ _ hread =>
      rintro _ ⟨⟩
      exact .inr ⟨first, p.owner, none, t, t', hp.of_mem (List.mem_of_mem_filter hi), hread⟩
  | simple => exact nofun
  | anything =>
      rintro _ ⟨⟩
      exact .inl rfl

/-! ### Schemas -/

/-- The complex types of a schema are read from items of its document, in a scope that knows the types of the schema.
What is read from an extension of complex content permits the children of its base followed by those that fit the group
of its own, unless this has a choice without alternatives; if there is no group, none follow. -/
structure ReadsExtensions (root : Xml.Element) (schema : Schema) (r : Registry) (s : Scope) : Prop where
  registered : Registry.ofRoot root = .ok r
  types : ∀ name, s.type? name = .ok (schema.types.lookup name)
  named : ∀ name x, (name, .complex x) ∈ schema.types → ∃ i t', r.item? ⟨.type, name⟩ = some i ∧ i.From root ∧
    readComplexType s ⟨.type, name⟩ (some name) i {} = .ok (x, t')
  held : ∀ x, schema.Holds (.complex x) → x = .anyType ∨
    ∃ i owner name t t', i.From root ∧ readComplexType s owner name i t = .ok (x, t')
  extended : ∀ i owner name t t' x, readComplexType s owner name i t = .ok (x, t') → i.extendsContent = true →
    ∃ base own, Extends s i x base own
  base : ∀ i x base own, Extends s i x base own → schema.HasBase (.complex x) (.complex base)
  appends : ∀ i x base own, Extends s i x base own → (∀ p, own = some p → p.HasAlternatives) →
    ∀ substitutes, fitting substitutes x.content.model? =
      fitting substitutes base.content.model? * fitting substitutes own
  absent : ∀ substitutes, fitting substitutes none = 1
  chains : ∀ first owns x, ExtendsBy s first owns x → ∀ substitutes, fitting substitutes x.content.model? =
    fitting substitutes first.content.model? * (owns.map (fitting substitutes)).prod

theorem ofElement_readsExtensions {schema : Schema} (h : ofElement root = .ok schema) :
    ∃ r s, ReadsExtensions root schema r s := by
  obtain ⟨_, _, r, order, definitions, read, traces, sub, attributes, hr, horder, hread, hsub, hattributes, hschema⟩ :=
    ofElement_eq_ok.1 h
  have houtermost := Registry.ofRoot_outermost hr
  have hfrom := from_of_ofRoot hr
  obtain ⟨_, _, hdefinitions, _, helements⟩ := readRegistry_ok hread
  have hsettles := readDefinitions_settles (Registry.order_ok horder) hdefinitions
  obtain ⟨_, _, hreadable, hall, _⟩ := (readRegistry_eq_ok hsettles (Registry.order_ok horder)).1 hread
  rw [scopeOf_eq_knowing hsettles] at helements
  have hreadAs : r.ReadAs read := hall ▸ allElements_readAs houtermost hreadable
  have htypes (name : Name) : schema.types.lookup name = Table.type? (fun key => definitions.lookup key) name := by
    rw [hschema]
    exact lookup_namedTypes hsettles name
  have hdeclared := declares_induct sub (P := IsRead root _) (congrArg Schema.elements hschema)
    (congrArg Schema.locals hschema) (by rintro _ ⟨⟩; exact .inl rfl) fun e he => by
      obtain ⟨p, t, t', hread⟩ := mem_readElements helements he
      obtain ⟨rfl, _⟩ := readElementType_ok hread
      exact hsettles.isRead_readElementType hfrom ((hreadAs.listed e he).from houtermost hfrom) hread
  have hnamed (name : Name) (type : TypeDefinition) (htype : (name, type) ∈ schema.types) :
      definitions.lookup ⟨.type, name⟩ = some (.type type) := by
    rw [hschema] at htype
    obtain ⟨⟨⟨kind, _⟩, _, _⟩, _, hl, rfl⟩ := mem_namedTypes.1 htype
    obtain ⟨rfl, _⟩ := hsettles.sound hl
    exact hl
  refine ⟨r, _, hr, fun name => ?_, fun name x hx => ?_, fun x hx => ?_, fun i owner name t t' x => ?_,
    fun i x base own hx => ?_, fun i x base own hx ha => hx.fitting hsettles ha, fun _ => fitting_none,
    fun first owns x hx => hx.fitting hsettles⟩
  · rw [htypes, type?_knowing]
  · obtain ⟨i, t', hi, hread⟩ := hsettles.readComplexType (hnamed name _ hx)
    exact ⟨i, t', hi, hfrom.item? _ i hi, hread⟩
  · rcases hx.complex with ⟨name, hx⟩ | ⟨d, hd, hx⟩ | rfl
    · exact hsettles.isRead hfrom (hnamed name _ hx) x rfl
    · exact hdeclared d hd x hx
    · exact .inl rfl
  · exact extends_of_readComplexType
  · obtain ⟨name, hresolve, hname⟩ := (hx.base_of_scope hsettles.scopeSound).name
    refine .complex x name base.bases (.complex base) ?_ ?_
    · rw [hx.content_eq.1, TypeDefinition.lineage, show base.name = some name from hname]
      rfl
    · rw [typeNamed?, funext htypes]
      exact hresolve

/-- A card has a text, a parcel a weight and perhaps a value behind it, in any order; a crate is as a parcel. -/
def parcelSchema : Xml.Element :=
  let node (kind : Text) (attributes : List (Text × Text)) (content : List Xml.Node) : Xml.Node :=
    .element (schemaTag kind attributes) content
  let extension (base : Text) (content : List Xml.Node) : Xml.Node :=
    node "complexContent" [] [node "extension" [("base", base)] content]
  ⟨schemaTag "schema" [], [
    node "complexType" [("name", "crate")] [extension "parcel" []],
    node "complexType" [("name", "parcel")] [extension "card" [
      node "all" [] [node "element" [("name", "value"), ("minOccurs", "0")] [],
        node "element" [("name", "weight")] []]]],
    node "complexType" [("name", "card")] [node "sequence" [] [node "element" [("name", "text")] []]]]⟩

/-- The elements that a complex type holds, in the order in which they stand in its model. -/
def elementNames (type : TypeDefinition) : List Name := match type with
  | .complex x => (x.content.model?.getD .emptySequence).parts.filterMap fun
    | .element name _ _ => some name
    | _ => none
  | .simple _ => []

theorem ofElement_readsExtensions_parcel : ∃ schema r s i x base own, ofElement parcelSchema = .ok schema ∧
    ReadsExtensions parcelSchema schema r s ∧ (⟨[], "parcel"⟩, .complex x) ∈ schema.types ∧ Extends s i x base own ∧
    elementNames (.complex x) = [⟨[], "text"⟩, ⟨[], "value"⟩, ⟨[], "weight"⟩] := by
  have hnames : (ofElement parcelSchema).toOption.map (fun s => (s.types.lookup ⟨[], "parcel"⟩).map elementNames) =
      some (some [⟨[], "text"⟩, ⟨[], "value"⟩, ⟨[], "weight"⟩]) := by decide +kernel
  have hitem : (Registry.ofRoot parcelSchema).toOption.map (fun r =>
      (r.item? ⟨.type, ⟨[], "parcel"⟩⟩).map Item.extendsContent) = some (some true) := by decide +kernel
  obtain ⟨schema, h, hnames⟩ := Build.exists_of_map_toOption hnames
  obtain ⟨type, hlookup, hnames⟩ := Option.map_eq_some_iff.1 hnames
  cases type with
  | simple => cases hnames
  | complex x =>
      obtain ⟨r, s, hreads⟩ := ofElement_readsExtensions h
      obtain ⟨i, t', hi, _, hread⟩ := hreads.named _ x (mem_of_lookup hlookup)
      rw [hreads.registered] at hitem
      obtain ⟨_, hi', hextends⟩ := Option.map_eq_some_iff.1 (Option.some.inj hitem)
      cases hi.symm.trans hi'
      obtain ⟨base, own, hx⟩ := hreads.extended i _ _ _ _ x hread hextends
      exact ⟨schema, r, s, i, x, base, own, h, hreads, mem_of_lookup hlookup, hx, hnames⟩

end Schema

end XmlSchema
