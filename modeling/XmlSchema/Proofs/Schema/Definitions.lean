import XmlSchema.Proofs.Schema.References
import XmlSchema.Schema.Reader

/-!
Reading of definitions, and of the schema that they stand in. Whichever way a definition is found, it refers to the same
local elements; since every definition has its turn, each of these is left behind.
-/

namespace XmlSchema.Schema

variable {known : Name → ElementKey → Prop} {r : Registry} {s : Scope} {t t' : Traces}

/-! ### One definition -/

theorem readDefinition_refersIn (hs : s.RefersIn known) {key : DefinitionKey} {i : Item}
    (hpaths : ∀ path ∈ definitionPaths key i, ∀ name, known name (.inside key path)) {c : Component}
    (h : readDefinition s key i t = .ok (c, t')) : c.RefersIn known := by
  rw [readDefinition] at h
  rw [definitionPaths] at hpaths
  cases hk : key.kind with
  | type =>
      simp only [hk, Reading.ite_eq_ok, Reading.bind_eq_ok, Reading.lift_eq_ok, Reading.pure_eq_ok] at h hpaths
      rcases h with ⟨hc, x, _, h, rfl, rfl⟩ | ⟨_, x, _, ⟨_, rfl⟩, rfl, rfl⟩
      · rw [if_pos hc] at hpaths
        exact readComplexType_refersIn hs hpaths h
      · trivial
  | group =>
      simp only [hk] at h hpaths
      exact readGroup_refersIn hs hpaths h
  | attributeGroup =>
      simp only [hk, Reading.bind_eq_ok, Reading.lift_eq_ok, Reading.pure_eq_ok] at h
      obtain ⟨items, _, _, set, _, _, rfl, rfl⟩ := h
      trivial
  | element => simp [hk] at h

theorem readDefinition_leaves {key : DefinitionKey} {i : Item} {c : Component}
    (h : readDefinition s key i t = .ok (c, t')) : Leaves key i (definitionPaths key i) t t' := by
  rw [readDefinition] at h
  rw [definitionPaths]
  cases hk : key.kind with
  | type =>
      simp only [hk, Reading.ite_eq_ok, Reading.bind_eq_ok, Reading.lift_eq_ok, Reading.pure_eq_ok] at h ⊢
      rcases h with ⟨hc, x, _, h, rfl, rfl⟩ | ⟨hc, x, _, ⟨_, rfl⟩, rfl, rfl⟩
      · rw [if_pos hc]
        exact readComplexType_leaves h
      · rw [if_neg hc]
        exact .none rfl
  | group =>
      simp only [hk] at h ⊢
      obtain ⟨body, compositor, members, o, source, hbody, rfl, hp⟩ := readGroup_ok h
      rw [hbody, particlePathsOfAll, particlePathsOfAll, List.append_nil]
      refine (readParticle_leaves body t _ t' hp).mono (.of_mem ?_)
      rw [hbody]
      exact List.mem_singleton_self body
  | attributeGroup =>
      simp only [hk, Reading.bind_eq_ok, Reading.lift_eq_ok, Reading.pure_eq_ok] at h
      obtain ⟨items, _, ⟨_, rfl⟩, set, _, h, rfl, rfl⟩ := h
      exact .none (readAttributes_elements h)
  | element => simp [hk] at h

theorem readDefinition_kind {key : DefinitionKey} {i : Item} {c : Component}
    (h : readDefinition s key i t = .ok (c, t')) : key.kind ≠ .element := by
  intro hk
  rw [readDefinition] at h
  simp [hk] at h

/-! ### Definitions that are referred to -/

/-- A set of elements holds those that stand in the registered definitions, and the global ones. -/
structure Registry.StandIn (r : Registry) (s : Scope) (known : Name → ElementKey → Prop) : Prop where
  definitions : ∀ key i, r.item? key = some i → ∀ path ∈ definitionPaths key i, ∀ name, known name (.inside key path)
  elements : ∀ name ∈ s.elements, known name .named

theorem findDefinition_refersIn (hr : r.StandIn s known) {read : List (DefinitionKey × Component)}
    (hread : ∀ key c, read.lookup key = some c → c.RefersIn known) {depth : Nat} {opened : List DefinitionKey}
    {key : DefinitionKey} {c : Component} (h : findDefinition r s read depth opened key = .ok (some c)) :
    c.RefersIn known := by
  induction depth generalizing opened key c with
  | zero => simp [findDefinition] at h
  | succ depth ih =>
      rw [findDefinition] at h
      cases hl : read.lookup key with
      | some c' =>
          simp only [hl] at h
          cases h
          exact hread key _ hl
      | none =>
          cases hi : r.item? key with
          | none => simp [hl, hi] at h
          | some i =>
              simp only [hl, hi, Build.ite_eq_ok, Build.bind_eq_ok, Build.pure_eq_ok, Item.fail_eq_ok, false_and,
                and_false, exists_false, false_or, Option.some.injEq] at h
              obtain ⟨_, ⟨c', t'⟩, h, rfl⟩ := h
              have hs : Scope.RefersIn known { s with definition? := findDefinition r s read depth (key :: opened) } :=
                ⟨fun _ _ h => ih h, hr.elements⟩
              exact readDefinition_refersIn hs (hr.definitions key i hi) h

theorem scopeOf_refersIn (hr : r.StandIn s known) {read : List (DefinitionKey × Component)}
    (hread : ∀ key c, read.lookup key = some c → c.RefersIn known) (opened : List DefinitionKey) :
    (scopeOf r s read opened).RefersIn known := by
  refine ⟨fun key c h => ?_, hr.elements⟩
  change findDefinition r s read (r.definitions.length + 1) opened key = _ at h
  exact findDefinition_refersIn hr hread h

theorem readDefinitions_refersIn (hr : r.StandIn s known) {read read' : List (DefinitionKey × Component)}
    (hread : ∀ key c, read.lookup key = some c → c.RefersIn known) {keys : List DefinitionKey}
    (h : readDefinitions r s read keys t = .ok (read', t')) :
    ∀ key c, read'.lookup key = some c → c.RefersIn known := by
  induction keys generalizing read t with
  | nil =>
      rw [readDefinitions, Reading.pure_eq_ok] at h
      exact h.1 ▸ hread
  | cons key keys ih =>
      rw [readDefinitions] at h
      cases hi : r.item? key with
      | none =>
          simp only [hi] at h
          exact ih hread h
      | some i =>
          simp only [hi, Reading.bind_eq_ok] at h
          obtain ⟨c, t₁, hc, h⟩ := h
          refine ih (fun key' c' hl => ?_) h
          rw [List.lookup_cons] at hl
          split at hl
          · cases hl
            exact readDefinition_refersIn (scopeOf_refersIn hr hread [key]) (hr.definitions key i hi) hc
          · exact hread key' c' hl

theorem readDefinitions_leaves {read read' : List (DefinitionKey × Component)} {keys : List DefinitionKey}
    (h : readDefinitions r s read keys t = .ok (read', t')) :
    ∃ left, t'.elements = left ++ t.elements ∧ (∀ e ∈ left, ∃ owner path, e.key = .inside owner path) ∧
      ∀ key ∈ keys, ∀ i, r.item? key = some i → ∀ path ∈ definitionPaths key i,
        ∃ e ∈ left, e.key = .inside key path := by
  induction keys generalizing read t with
  | nil =>
      rw [readDefinitions, Reading.pure_eq_ok] at h
      exact ⟨[], by rw [h.2]; rfl, by simp, by simp⟩
  | cons key keys ih =>
      rw [readDefinitions] at h
      cases hi : r.item? key with
      | none =>
          simp only [hi] at h
          obtain ⟨left, he, hleft, hkeys⟩ := ih h
          refine ⟨left, he, hleft, List.forall_mem_cons.2 ⟨fun i hi' => ?_, hkeys⟩⟩
          exact nomatch hi.symm.trans hi'
      | some i =>
          simp only [hi, Reading.bind_eq_ok] at h
          obtain ⟨c, t₁, hc, h⟩ := h
          obtain ⟨left₁, he₁, hleft₁, hpaths⟩ := readDefinition_leaves hc
          obtain ⟨left, he, hleft, hkeys⟩ := ih h
          refine ⟨left ++ left₁, by rw [he, he₁, List.append_assoc], ?_, List.forall_mem_cons.2 ⟨?_, ?_⟩⟩
          · intro e he
            rcases List.mem_append.1 he with he | he
            · exact hleft e he
            · exact ⟨key, e.item.path, (hleft₁ e he).key⟩
          · intro i' hi' path hpath
            cases hi.symm.trans hi'
            obtain ⟨e, he, hk⟩ := Leaves.exists_of_mem hleft₁ hpaths hpath
            exact ⟨e, List.mem_append_right _ he, hk⟩
          · intro key' hkey' i' hi' path hpath
            obtain ⟨e, he, hk⟩ := hkeys key' hkey' i' hi' path hpath
            exact ⟨e, List.mem_append_left _ he, hk⟩

theorem Registry.exists_definition_of_item? {key : DefinitionKey} {i : Item} (h : r.item? key = some i) :
    ∃ d ∈ r.definitions, d.key = key ∧ d.item = i := by
  obtain ⟨d, hd, rfl⟩ := Option.map_eq_some_iff.1 h
  exact ⟨d, List.mem_of_find?_eq_some hd, by simpa using List.find?_some hd, rfl⟩

/-! ### Schemas -/

theorem readRegistry_ok {order : List DefinitionKey} {line : Nat} {read : List (DefinitionKey × Component)}
    {elements : List ReadElement} (h : readRegistry r s order line t = .ok ((read, elements), t')) :
    ∃ t₁ t₂ : Traces, readDefinitions r s [] order t = .ok (read, t₁) ∧ t₂.elements = t₁.elements ∧
      readElements (scopeOf r s read [])
        (Item.heightsFrom 0 ((r.elements.reverse ++ t₂.elements.reverse).map (·.item)) + 1)
        (r.elements.reverse ++ t₂.elements.reverse) { t₂ with elements := [] } = .ok (elements, t') := by
  rw [readRegistry] at h
  simp only [Reading.bind_eq_ok, Reading.pure_eq_ok, Reading.get_eq_ok, Reading.set_eq_ok, Prod.mk.injEq] at h
  obtain ⟨read, t₁, hread, _, t₂, hattributes, _, _, ⟨rfl, rfl⟩, _, _, rfl, _, _, helements, ⟨rfl, rfl⟩, rfl⟩ := h
  refine ⟨t₁, t₂, hread, Reading.mapM_elements ?_ hattributes, helements⟩
  rintro ⟨name, i⟩ _ t b t' h
  simp only [Reading.bind_eq_ok, Reading.lift_eq_ok, Reading.modify_eq_ok] at h
  obtain ⟨_, _, ⟨_, rfl⟩, rfl⟩ := h
  rfl

/-- The scope of a schema, before any definition is read. -/
def rootScope (root : Xml.Element) (r : Registry) : Scope where
  targetNamespace := (root.tag.attribute? "targetNamespace").getD []
  elementsQualified := decide (root.tag.attribute? "elementFormDefault" = some (Text.ofString "qualified"))
  attributesQualified := decide (root.tag.attribute? "attributeFormDefault" = some (Text.ofString "qualified"))
  definition? := fun _ => .ok none
  attributes := r.attributes
  elements := r.elements.map (·.declaration.name)

/-- A schema is read when each of its parts is. -/
theorem ofElement_eq_ok {root : Xml.Element} {schema : Schema} : ofElement root = .ok schema ↔
    root.name.isProper = true ∧ root.name = ⟨Namespace.schema, "schema"⟩ ∧
    ∃ r order read elements traces sub attributes, Registry.ofRoot root = .ok r ∧ r.order root.tag.line = .ok order ∧
      readRegistry r (rootScope root r) order root.tag.line {} = .ok ((read, elements), traces) ∧
      substitution r.elements = .ok sub ∧
      (traces.attributes.reverse.eraseDups.mapM fun name => do
        return (name, ← globalAttribute (scopeOf r (rootScope root r) read []) root.tag.line name)) = .ok attributes ∧
      schema =
        { targetNamespace := (root.tag.attribute? "targetNamespace").getD [], types := namedTypes r read, attributes
          substitutions := sub.members, locals := (elementTables sub elements).2, warnings := r.warnings
          elements := r.elements.filterMap fun e =>
            ((elementTables sub elements).1.lookup e.declaration.name).map (e.declaration.name, ·) } := by
  rw [ofElement]
  simp only [Build.bind_eq_ok, Build.ite_eq_ok, Build.pure_eq_ok, Build.throw_eq_ok, false_and, and_false,
    exists_false, false_or]
  constructor
  · rintro ⟨hproper, hschema, r, hr, order, horder, ⟨⟨read, elements⟩, t⟩, hread, sub, hsub, attributes, hattributes,
      rfl⟩
    exact ⟨by simpa using hproper, by simpa using hschema, r, order, read, elements, t, sub, attributes, hr, horder,
      hread, hsub, hattributes, rfl⟩
  · rintro ⟨hproper, hschema, r, order, read, elements, t, sub, attributes, hr, horder, hread, hsub, hattributes, rfl⟩
    exact ⟨by simpa using hproper, by simpa using hschema, r, hr, order, horder, ⟨⟨read, elements⟩, t⟩, hread, sub,
      hsub, attributes, hattributes, rfl⟩

end XmlSchema.Schema
