import XmlSchema.Proofs.Schema.Inheritance
import XmlSchema.Proofs.Schema.WellFounded

/-!
Values that a schema sets. A default or fixed value is checked against the type of the declaration that sets it, where
the declaration is read; what a use of an attribute sets for a declaration at the top is not checked, nor is what an
element sets that takes over the type of its head.
-/

namespace XmlSchema

/-- The texts that are set for a type are values of it. -/
def SimpleType.Admits (type : SimpleType) (default fixed : Option Text) : Prop :=
  ∀ value, default = some value ∨ fixed = some value → type.check value = []

def AttributeDeclaration.SetsValues (d : AttributeDeclaration) : Prop := d.type.Admits d.default d.fixed

/-- What is set is a value of the simple type of the element's text, if there is one. -/
def ElementDeclaration.SetsValues (d : ElementDeclaration) : Prop :=
  ∀ type, d.type.simpleType? = some type → type.Admits d.default d.fixed

namespace Schema

variable {s : Scope} {i : Item} {t t' : Traces} {r : Registry}

/-- A name of an attribute whose declaration stands apart from its uses: at the top, or nowhere for one of markup. -/
def IsShared (attributes : List (Name × Item)) (name : Name) : Prop :=
  name.uri = Namespace.xml ∨ ∃ i, attributes.lookup name = some i

/-- What the declaration of a use sets are values, and the use sets more only if the declaration is shared. -/
structure UseSetsValues (attributes : List (Name × Item)) (u : AttributeUse) : Prop where
  declaration : u.declaration.SetsValues
  own : (u.default = none ∧ u.fixed = none) ∨ IsShared attributes u.name

/-- An element with a head whose item tells no type. -/
structure PendingElement.IsUntyped (p : PendingElement) : Prop where
  head : p.declaration.head.isSome = true
  named : p.item.getFull? "type" = none
  inline : ∀ i ∈ p.item.items, i.is "complexType" = false ∧ i.is "simpleType" = false

/-- What a schema sets for attributes and elements are values of their types, but for what uses set for declarations
that they share, and for elements that take over the type of a head. -/
structure SetsValues (root : Xml.Element) (r : Registry) (schema : Schema) : Prop where
  registered : Registry.ofRoot root = .ok r
  attributes : ∀ name d, (name, d) ∈ schema.attributes → d.SetsValues
  uses : ∀ x, schema.Holds (.complex x) → ∀ u ∈ x.attributes, UseSetsValues r.attributes u
  locals : ∀ key d, (key, d) ∈ schema.locals → d.SetsValues
  elements : ∀ name d, (name, d) ∈ schema.elements →
    d.SetsValues ∨ ∃ p ∈ r.elements, p.declaration.name = name ∧ p.IsUntyped

theorem checkConstraints_eq_ok {type : SimpleType} {default fixed : Option Text} {u : Unit} :
    checkConstraints i type default fixed = .ok u ↔ type.Admits default fixed := by
  rw [checkConstraints]
  simp only [Build.bind_eq_ok, Build.pure_eq_ok, and_true]
  refine (exists_congr fun _ => Build.forIn_eq_ok (P := fun p => ∀ value, p.2 = some value → type.check value = [])
    fun p x => ?_).trans ?_
  · obtain ⟨key, value⟩ := p
    cases value with
    | none => simpa using eq_comm
    | some value =>
        cases hcheck : type.check value with
        | nil => simpa [hcheck] using eq_comm
        | cons problem problems => simp [hcheck, Item.fail]
  · simp [SimpleType.Admits, or_imp, forall_and]

/-! ### Attributes -/

theorem globalAttribute_ok {line : Nat} {name : Name} {d : AttributeDeclaration}
    (h : globalAttribute s line name = .ok d) : d.name = name ∧ IsShared s.attributes name ∧ d.SetsValues := by
  rw [globalAttribute] at h
  simp only [Build.ite_eq_ok, Build.pure_eq_ok] at h
  rcases h with ⟨hxml, rfl⟩ | ⟨_, h⟩
  · exact ⟨rfl, .inl hxml, by simp [AttributeDeclaration.SetsValues, SimpleType.Admits]⟩
  cases hi : s.attributes.lookup name with
  | none => simp [hi] at h
  | some i =>
      simp only [hi, Build.bind_eq_ok, Build.pure_eq_ok] at h
      obtain ⟨type, _, _, hconstraints, rfl⟩ := h
      exact ⟨rfl, .inr ⟨i, hi⟩, checkConstraints_eq_ok.1 hconstraints⟩

theorem readAttributeUse_setsValues {u : AttributeUse} (h : readAttributeUse s i t = .ok (u, t')) :
    UseSetsValues s.attributes u := by
  rw [readAttributeUse] at h
  cases hu : Use.ofName? (Text.trim ((i.getFull? "use").getD "optional")) with
  | none => simp [hu] at h
  | some use =>
      cases hr : i.getFull? "ref" with
      | some ref =>
          simp only [hu, hr, Reading.ite_eq_ok, Reading.bind_eq_ok, Reading.lift_eq_ok, Reading.pure_eq_ok,
            Reading.modify_eq_ok, Item.fail_eq_ok, false_and, and_false, exists_false, false_or] at h
          obtain ⟨_, _, name, _, _, declaration, _, ⟨hd, _⟩, _, _, _, rfl, _⟩ := h
          obtain ⟨rfl, hshared, hvalues⟩ := globalAttribute_ok hd
          exact ⟨hvalues, .inr hshared⟩
      | none =>
          simp only [hu, hr, Reading.ite_eq_ok, Reading.bind_eq_ok, Reading.lift_eq_ok, Item.fail_eq_ok, false_and,
            and_false, exists_false, false_or] at h
          cases hn : i.getFull? "name" with
          | none => simp [hn] at h
          | some name =>
              simp only [hn, Reading.bind_eq_ok, Reading.lift_eq_ok, Reading.pure_eq_ok] at h
              obtain ⟨_, _, type, _, _, _, _, ⟨hconstraints, _⟩, rfl, _⟩ := h
              exact ⟨checkConstraints_eq_ok.1 hconstraints, .inl ⟨rfl, rfl⟩⟩

theorem usesHave_of_found {attributes : List (Name × Item)} (hattributes : s.attributes = attributes)
    (hfound : ∀ key c, s.definition? key = .ok (some c) → ∀ u ∈ c.uses, UseSetsValues attributes u) :
    s.UsesHave (UseSetsValues attributes) where
  read := fun _ _ _ _ h => hattributes ▸ readAttributeUse_setsValues h
  found := hfound

theorem meaning_setsValues {n : Nat} {key : DefinitionKey} {c : Component} (hn : meaning r s n key = .ok (some c)) :
    ∀ u ∈ c.uses, UseSetsValues s.attributes u := by
  induction n generalizing key c with
  | zero => cases hn
  | succ n ih =>
      rw [meaning] at hn
      cases hi : r.item? key with
      | none =>
          rw [hi] at hn
          cases hn
      | some i =>
          rw [hi] at hn
          obtain ⟨⟨c', t'⟩, hc, hn⟩ := Build.bind_eq_ok.1 hn
          cases hn
          have hs : Scope.UsesHave { s with definition? := meaning r s n } (UseSetsValues s.attributes) :=
            usesHave_of_found rfl fun _ _ h => ih h
          exact readDefinition_uses hs hc

variable {table : Table}

theorem Settles.setsValues (h : Settles r s table) {key : DefinitionKey} {c : Component} (hc : table key = some c) :
    ∀ u ∈ c.uses, UseSetsValues s.attributes u := by
  obtain ⟨n, hn⟩ := h key
  exact meaning_setsValues (hn.trans (congrArg Except.ok hc))

theorem Settles.usesHave (h : Settles r s table) : (s.knowing table).UsesHave (UseSetsValues s.attributes) :=
  usesHave_of_found rfl fun _ _ hc => h.setsValues (Except.ok.inj hc)

/-! ### Elements -/

/-- What an element sets are values of the type that it tells. -/
structure ReadElement.SetsValues (e : ReadElement) : Prop where
  typed : ∀ type, e.type = some type → ({ e.pending.declaration with type } : ElementDeclaration).SetsValues
  untyped : e.type = none → e.pending.IsUntyped

theorem untyped_of_readOwnType {p : PendingElement}
    (h : readOwnType s p (p.item.items.filter fun i => i.is "complexType" || i.is "simpleType") t = .ok (none, t')) :
    p.IsUntyped := by
  unfold readOwnType at h
  cases hn : p.item.getFull? "type" with
  | some name =>
      simp only [hn, Reading.bind_eq_ok, Reading.pure_eq_ok, reduceCtorEq, false_and, and_false, exists_false] at h
  | none =>
      cases hi : p.item.items.filter fun i => i.is "complexType" || i.is "simpleType" with
      | nil =>
          simp only [hn, hi, Reading.pure_eq_ok] at h
          refine ⟨?_, hn, fun i hmem => by simpa using List.filter_eq_nil_iff.1 hi i hmem⟩
          by_contra hhead
          simp [hhead] at h
      | cons first later =>
          simp only [hn, hi, Reading.ite_eq_ok, Reading.bind_eq_ok, Reading.pure_eq_ok, reduceCtorEq, false_and,
            and_false, exists_false, or_self] at h

theorem readElementType_setsValues {p : PendingElement} {e : ReadElement}
    (h : readElementType s p t = .ok (e, t')) : e.SetsValues := by
  rw [readElementType] at h
  simp only [Reading.bind_eq_ok, Reading.lift_eq_ok, Reading.ite_eq_ok, Item.fail_eq_ok, false_and, and_false,
    exists_false, false_or] at h
  obtain ⟨items, _, ⟨hitems, rfl⟩, _, _, type, _, htype, h⟩ := h
  obtain rfl := Item.items_of_inner hitems
  have huntyped : type = none → p.IsUntyped := by
    rintro rfl
    exact untyped_of_readOwnType htype
  cases hs : type.bind (·.simpleType?) with
  | none =>
      simp only [hs, Reading.pure_eq_ok] at h
      obtain ⟨rfl, rfl⟩ := h
      refine ⟨?_, huntyped⟩
      rintro type' rfl simple hsimple
      cases hs.symm.trans hsimple
  | some simple =>
      simp only [hs, Reading.bind_eq_ok, Reading.lift_eq_ok, Reading.pure_eq_ok] at h
      obtain ⟨_, _, ⟨hconstraints, rfl⟩, rfl, rfl⟩ := h
      refine ⟨?_, huntyped⟩
      rintro type' rfl simple' hsimple
      obtain rfl := Option.some.inj (hs.symm.trans hsimple)
      exact checkConstraints_eq_ok.1 hconstraints

/-- An element is declared with values of its type, unless it takes the type over. -/
theorem ReadElement.SetsValues.becomes {read : List ReadElement} {e : ReadElement} {d : ElementDeclaration}
    (he : e.SetsValues) (h : e.Becomes read d) : d.SetsValues ∨ e.pending.IsUntyped := by
  obtain ⟨hd, htyped⟩ := h
  rw [hd]
  cases htyped with
  | own htype => exact .inl (he.typed _ htype)
  | inherited hnone => exact .inr (he.untyped hnone)

/-! ### Schemas -/

variable {schema : Schema}

/-- The complex types of a schema stand in its tables, but for the type of anything. -/
theorem Holds.complex {x : ComplexType} (h : schema.Holds (.complex x)) :
    (∃ name, (name, .complex x) ∈ schema.types) ∨ (∃ d, schema.Declares d ∧ d.type = .complex x) ∨ x = .anyType := by
  generalize hx : TypeDefinition.complex x = type at h
  cases h with
  | type name t h => exact .inl ⟨name, hx ▸ h⟩
  | element d h => exact .inr (.inl ⟨d, h, rfl⟩)
  | globalAttribute => cases hx
  | attributeUse => cases hx
  | link t u _ h =>
      subst hx
      cases h with
      | base _ _ h =>
          cases h with
          | complex _ name later _ _ hb =>
              rw [typeNamed?, resolveType?] at hb
              split at hb
              · split at hb
                · cases hb
                  exact .inr (.inr rfl)
                · obtain ⟨_, _, hb⟩ := Option.map_eq_some_iff.1 hb
                  cases hb
              · exact .inl ⟨name, mem_of_lookup hb⟩

theorem ofElement_setsValues {root : Xml.Element} (h : ofElement root = .ok schema) :
    ∃ r, SetsValues root r schema := by
  obtain ⟨_, _, r, order, definitions, read, traces, sub, attributes, hr, horder, hread, hsub, hattributes, hschema⟩ :=
    ofElement_eq_ok.1 h
  have houtermost := Registry.ofRoot_outermost hr
  have hdistinct := houtermost.toDistinct
  obtain ⟨_, _, hdefinitions, _, helements⟩ := readRegistry_ok hread
  have hsettles := readDefinitions_settles (Registry.order_ok horder) hdefinitions
  obtain ⟨_, _, hreadable, hall, _⟩ := (readRegistry_eq_ok hsettles (Registry.order_ok horder)).1 hread
  have hreadAs : r.ReadAs read := hall ▸ allElements_readAs houtermost hreadable
  have helement : ∀ e ∈ read, e.SetsValues := by
    intro e he
    obtain ⟨p, t, t', h⟩ := mem_readElements helements he
    exact readElementType_setsValues h
  have htypes : ∀ e ∈ read, ∀ type, e.type = some type → ∀ u ∈ type.uses, UseSetsValues r.attributes u := by
    intro e he
    obtain ⟨p, t, t', h⟩ := mem_readElements helements he
    rw [scopeOf_eq_knowing hsettles] at h
    exact readElementType_uses hsettles.usesHave h
  have hlocals : schema.locals = (elementTables sub read).2 := by rw [hschema]
  have helements : schema.elements = r.elements.filterMap fun e =>
      ((elementTables sub read).1.lookup e.declaration.name).map (e.declaration.name, ·) := by rw [hschema]
  obtain ⟨hglobal, hlocal⟩ := hreadAs.elementTables_becomes hdistinct hsub
  refine ⟨r, hr, ?attributes, ?uses, ?locals, ?elements⟩
  case attributes =>
    intro name d hd
    rw [hschema] at hd
    refine Build.mapM_forall (P := fun p => p.2.SetsValues) (fun name _ p hp => ?_) hattributes _ hd
    simp only [Build.bind_eq_ok, Build.pure_eq_ok] at hp
    obtain ⟨d, hd, rfl⟩ := hp
    exact (globalAttribute_ok hd).2.2
  case uses =>
    intro x hx
    rcases hx.complex with ⟨name, hx⟩ | ⟨d, hd, hx⟩ | rfl
    · rw [hschema] at hx
      obtain ⟨_, _, hx, _⟩ := mem_namedTypes.1 hx
      exact hsettles.setsValues hx
    · have huses := declares_induct sub (P := fun type => ∀ u ∈ type.uses, UseSetsValues r.attributes u)
        helements hlocals (by simp [TypeDefinition.uses, ComplexType.anyType]) htypes d hd
      rwa [hx] at huses
    · simp [ComplexType.anyType]
  case locals =>
    intro key d hd
    rw [hlocals] at hd
    have hkey : key ≠ .named := by
      obtain ⟨e, he, heq⟩ := List.mem_map.1 hd
      obtain rfl := (Prod.mk.inj heq).1
      simpa using (List.mem_filter.1 he).2
    obtain ⟨e, he, hk, hbecomes⟩ := hlocal _ hd
    -- a local element has no head that it could take a type from
    refine ((helement e he).becomes hbecomes).resolve_right fun huntyped => ?_
    have hhead := huntyped.head
    rw [(hreadAs.listed e he).headless (hk ▸ hkey)] at hhead
    cases hhead
  case elements =>
    intro name d hd
    rw [helements] at hd
    obtain ⟨_, _, hd⟩ := List.mem_filterMap.1 hd
    obtain ⟨d, hlookup, hd⟩ := Option.map_eq_some_iff.1 hd
    obtain ⟨rfl, rfl⟩ := Prod.mk.inj hd
    obtain ⟨e, he, hk, hname, hbecomes⟩ := hglobal _ (mem_of_lookup hlookup)
    refine ((helement e he).becomes hbecomes).imp_right fun huntyped => ?_
    exact ⟨e.pending, (hreadAs.listed e he).mem_of_named hk, hname, huntyped⟩

/-- Boxes are sealed when nothing else is told, and hold a lid that is never open; a crate is as a box. -/
def sealedSchema : Xml.Element :=
  let node (kind : Text) (attributes : List (Text × Text)) (content : List Xml.Node) : Xml.Node :=
    .element (schemaTag kind attributes) content
  ⟨schemaTag "schema" [], [
    node "attribute" [("name", "sealed"), ("type", "xs:boolean"), ("default", "true")] [],
    node "complexType" [("name", "box")] [
      node "sequence" [] [node "element" [("name", "open"), ("type", "xs:boolean"), ("fixed", "false")] []],
      node "attribute" [("ref", "sealed")] []],
    node "element" [("name", "box"), ("type", "box")] [],
    node "element" [("name", "crate"), ("substitutionGroup", "box")] []]⟩

theorem ofElement_setsValues_sealed : ∃ schema r, ofElement sealedSchema = .ok schema ∧
    schema.attributes.map (fun p => p.2.default) = [some (Text.ofString "true")] ∧
    schema.locals.map (fun p => p.2.fixed) = [some (Text.ofString "false")] ∧ SetsValues sealedSchema r schema := by
  have hset : (ofElement sealedSchema).toOption.map (fun s =>
      (s.attributes.map (fun p => p.2.default), s.locals.map fun p => p.2.fixed)) =
      some ([some (Text.ofString "true")], [some (Text.ofString "false")]) := by decide +kernel
  obtain ⟨schema, h, hset⟩ := Build.exists_of_map_toOption hset
  obtain ⟨r, hvalues⟩ := ofElement_setsValues h
  exact ⟨schema, r, h, (Prod.mk.inj hset).1, (Prod.mk.inj hset).2, hvalues⟩

/-- Neither what a use sets for a shared declaration nor what an element sets without a type of its own is looked at. -/
example : (ofElement ⟨schemaTag "schema" [], [
    .element (schemaTag "attribute" [("name", "sealed"), ("type", "xs:boolean")]) [],
    .element (schemaTag "complexType" [("name", "box")])
      [.element (schemaTag "attribute" [("ref", "sealed"), ("default", "perhaps")]) []],
    .element (schemaTag "element" [("name", "open"), ("type", "xs:boolean")]) [],
    .element (schemaTag "element" [("name", "ajar"), ("substitutionGroup", "open"), ("default", "perhaps")]) []]⟩
    ).toOption.isSome = true := by decide +kernel

end Schema

end XmlSchema
