import Mathlib.Data.List.Chain
import XmlSchema.Proofs.Schema.Closed
import XmlSchema.Proofs.Schema.Resolution

/-!
References in a schema are well founded. Definitions may refer to each other in any order, and content may hold elements
of the type that it is the content of; but no type is built from itself otherwise, and no group holds itself.
-/

namespace XmlSchema

namespace Schema

/-- What the name of a type refers to in a schema. -/
def typeNamed? (s : Schema) (name : Name) : Option TypeDefinition := resolveType? (fun n => s.types.lookup n) name

/-- The type that a type derives from; a complex type goes by the names of its bases. -/
inductive HasBase (s : Schema) : TypeDefinition → TypeDefinition → Prop
  | simple (t base : SimpleType) (h : t.base? = some base) : HasBase s (.simple t) (.simple base)
  | complex (t : ComplexType) (name : Name) (later : List Name) (base : TypeDefinition) (h : t.bases = name :: later)
      (hb : s.typeNamed? name = some base) : HasBase s (.complex t) base

/-- The types that a type refers to: its base, the type of its items, its members and the type of simple content. -/
inductive Link (s : Schema) : TypeDefinition → TypeDefinition → Prop
  | base (t base : TypeDefinition) (h : s.HasBase t base) : Link s t base
  | item (t item : SimpleType) (h : t.item? = some item) : Link s (.simple t) (.simple item)
  | member (t member : SimpleType) (h : member ∈ t.members) : Link s (.simple t) (.simple member)
  | content (t : ComplexType) (type : SimpleType) (h : t.content = .simple type) : Link s (.complex t) (.simple type)

/-- The types of a schema, with a name or without: those of its tables, of the elements at any place and of the
attributes of complex types, and all that these refer to. -/
inductive Holds (s : Schema) : TypeDefinition → Prop
  | type (name : Name) (t : TypeDefinition) (h : (name, t) ∈ s.types) : Holds s t
  | element (d : ElementDeclaration) (h : s.Declares d) : Holds s d.type
  | globalAttribute (name : Name) (a : AttributeDeclaration) (h : (name, a) ∈ s.attributes) : Holds s (.simple a.type)
  | attributeUse (t : ComplexType) (u : AttributeUse) (ht : Holds s (.complex t)) (hu : u ∈ t.attributes) :
      Holds s (.simple u.declaration.type)
  | link (t u : TypeDefinition) (ht : Holds s t) (h : s.Link t u) : Holds s u

/-- A particle stands in the content of a type of the schema. -/
def HasParticle (s : Schema) (p : Particle) : Prop :=
  ∃ t model, s.Holds (.complex t) ∧ t.content.model? = some model ∧ p ∈ model.parts

end Schema

def TypeDefinition.IsBaseless : TypeDefinition → Prop
  | simple t => t.base? = none
  | complex t => t.bases = []

/-- References in a schema are well founded. -/
structure Schema.IsWellFounded (s : Schema) : Prop where
  /-- The way of bases ends at a type without one, and the lineage of a type lists the names on this way. -/
  bases : ∀ t, s.Holds t → ∃ path, List.IsChain s.HasBase (t :: path) ∧ (∀ u ∈ (t :: path).getLast?, u.IsBaseless) ∧
    t.lineage = (t :: path).filterMap TypeDefinition.name?
  /-- No way through what types refer to goes on for ever. -/
  ends : ∀ t, s.Holds t → Acc (fun u v => s.Link v u) t
  acyclic : ∀ t, s.Holds t → ¬ Relation.TransGen s.Link t t
  /-- What a type refers to is, if it has a name, what the name refers to. -/
  named : ∀ t u, s.Holds t → s.Link t u → ∀ name, u.name? = some name → s.typeNamed? name = some u
  /-- On no way from a type of the schema does its name come again. -/
  once : ∀ name t u, (name, t) ∈ s.types → name.uri ≠ Namespace.schema → Relation.TransGen s.Link t u →
    u.name? ≠ some name
  restrictions : ∀ t base, s.Holds (.simple t) → t.base? = some base → (∀ p, t ≠ .primitive p) →
    t.variety = base.variety ∧ t.primitiveOf = base.primitiveOf
  /-- Groups that go by one name are the same. -/
  sources : ∀ name compositor compositor' members members' occurs occurs',
    s.HasParticle (.group compositor members occurs (some name)) →
    s.HasParticle (.group compositor' members' occurs' (some name)) → compositor = compositor' ∧ members = members'
  /-- No group holds a group with the same members or of the same name. -/
  groups : ∀ compositor members occurs source, s.HasParticle (.group compositor members occurs source) →
    ∀ m ∈ members, ∀ compositor' members' occurs' source', .group compositor' members' occurs' source' ∈ m.parts →
      members' ≠ members ∧ (source' = none ∨ source' ≠ source)

namespace Schema

variable {s : Schema} {table : Table}

/-! ### Elements of types -/

theorem Closed.refersIn_typeNamed (hs : s.Closed) {name : Name} {type : TypeDefinition}
    (h : s.typeNamed? name = some type) : type.RefersIn s.Knows := by
  rw [typeNamed?, resolveType?] at h
  split at h
  · split at h
    · cases h
      exact ComplexType.refersIn_anyType
    · obtain ⟨t, _, rfl⟩ := Option.map_eq_some_iff.1 h
      trivial
  · exact hs.types name type (mem_of_lookup h)

/-- All types of a closed schema refer to elements that are declared. -/
theorem Closed.refersIn (hs : s.Closed) {type : TypeDefinition} (h : s.Holds type) : type.RefersIn s.Knows := by
  induction h with
  | type name t h => exact hs.types name t h
  | element d h => exact hs.elements d h
  | globalAttribute | attributeUse => trivial
  | link t u _ h _ =>
      cases h with
      | base _ _ h =>
          cases h with
          | simple => trivial
          | complex _ name later base _ hb => exact hs.refersIn_typeNamed hb
      | item | member | content => trivial

/-! ### Ways through types -/

theorem link_simple_iff {t : SimpleType} {u : TypeDefinition} :
    s.Link (.simple t) u ↔ ∃ v ∈ t.links, u = .simple v := by
  constructor
  · intro h
    cases h with
    | base _ _ h =>
        cases h with
        | simple _ base h => exact ⟨base, by simp [SimpleType.links, h], rfl⟩
    | item _ item h => exact ⟨item, by simp [SimpleType.links, h], rfl⟩
    | member _ member h => exact ⟨member, by simp [SimpleType.links, h], rfl⟩
  · rintro ⟨v, hv, rfl⟩
    simp only [SimpleType.links, List.mem_append, Option.mem_toList] at hv
    rcases hv with (h | h) | h
    · exact .base _ _ (.simple t v h)
    · exact .item t v h
    · exact .member t v h

theorem acc_simple (t : SimpleType) : Acc (fun u v => s.Link v u) (.simple t) := by
  induction t.acc_links with
  | intro t _ ih =>
      refine Acc.intro _ fun u hu => ?_
      obtain ⟨v, hv, rfl⟩ := link_simple_iff.1 hu
      exact ih v hv

/-- The types of a schema are those of a table of sound components. -/
structure Tells (s : Schema) (table : Table) : Prop where
  types : ∀ name, s.types.lookup name = table.type? name
  resolved : ∀ name t, resolveType? table.type? name = some t → t.name? = some name ∧ table.TypeSound t
  named : ∀ name t, (name, t) ∈ s.types → table.type? name = some t ∧ table.TypeSound t
  declared : ∀ d, s.Declares d → table.TypeSound d.type
  attributes : ∀ name a, (name, a) ∈ s.attributes → table.SimpleSound a.type

namespace Tells

theorem typeNamed?_eq (h : s.Tells table) (name : Name) : s.typeNamed? name = resolveType? table.type? name := by
  rw [typeNamed?]
  congr 1
  exact funext h.types

/-- A complex type derives from a named one, whose lineage is that of its bases. -/
theorem hasBase_complex (h : s.Tells table) {t : ComplexType} {u : TypeDefinition} (ht : table.ComplexSound t)
    (hu : s.HasBase (.complex t) u) : table.TypeSound u ∧ ∃ name, u.name? = some name ∧ u.lineage = t.bases := by
  cases hu with
  | complex _ name later base hbases hb =>
      obtain ⟨base', hb', hlineage⟩ := ht.bases name later hbases
      rw [h.typeNamed?_eq] at hb
      cases hb.symm.trans hb'
      obtain ⟨hname, hsound⟩ := h.resolved name u hb
      exact ⟨hsound, name, hname, hlineage⟩

theorem link (h : s.Tells table) {t u : TypeDefinition} (ht : table.TypeSound t) (hu : s.Link t u) :
    table.TypeSound u := by
  cases t with
  | simple t =>
      obtain ⟨v, hv, rfl⟩ := link_simple_iff.1 hu
      exact SimpleType.Resolved.link ht hv
  | complex t =>
      cases hu with
      | base _ _ hu => exact (h.hasBase_complex ht hu).1
      | content _ u hu => exact (ht.content u hu).2

theorem sound (h : s.Tells table) {t : TypeDefinition} (ht : s.Holds t) : table.TypeSound t := by
  induction ht with
  | type name t ht => exact (h.named name t ht).2
  | element d hd => exact h.declared d hd
  | globalAttribute name a ha => exact (h.attributes name a ha).2
  | attributeUse t u _ hu ih => exact (ih.attributes u hu).2
  | link t u _ hu ih => exact h.link ih hu

/-- What is known of the content model of a type of a schema: an element without content has an empty one. -/
theorem modelSound (h : s.Tells table) {t : ComplexType} (ht : s.Holds (.complex t)) :
    table.ModelSound (t.content.model?.getD .emptySequence) := by
  cases hm : t.content.model? with
  | none => exact modelSound_emptySequence
  | some p => exact (h.sound ht).model p hm

theorem bases_lt (h : s.Tells table) {t u : ComplexType} (ht : table.ComplexSound t)
    (hu : s.HasBase (.complex t) (.complex u)) : u.bases.length < t.bases.length := by
  obtain ⟨_, name, hname, hlineage⟩ := h.hasBase_complex ht hu
  rw [← hlineage, TypeDefinition.lineage, show u.name = some name from hname, Option.toList_some, List.singleton_append,
    List.length_cons]
  exact Nat.lt_succ_self _

theorem exists_base (h : s.Tells table) {t : ComplexType} (ht : table.ComplexSound t) {name : Name} {later : List Name}
    (hbases : t.bases = name :: later) : ∃ u, s.HasBase (.complex t) u := by
  obtain ⟨base, hb, _⟩ := ht.bases name later hbases
  exact ⟨base, .complex t name later base hbases (by rw [h.typeNamed?_eq, hb])⟩

theorem induct_bases (h : s.Tells table) {P : ComplexType → Prop}
    (hstep : ∀ t, table.ComplexSound t → (∀ u, s.HasBase (.complex t) (.complex u) → P u) → P t) (t : ComplexType)
    (ht : table.ComplexSound t) : P t := by
  -- a base that is a complex type has fewer bases itself
  induction hn : t.bases.length using Nat.strong_induction_on generalizing t with
  | _ n ih =>
      subst hn
      exact hstep t ht fun u hu => ih u.bases.length (h.bases_lt ht hu) u (h.hasBase_complex ht hu).1 rfl

/-! ### Bases -/

/-- The way of bases from a type on, to a type without one. -/
def BasesEnd (s : Schema) (t : TypeDefinition) : Prop :=
  ∃ path, List.IsChain s.HasBase (t :: path) ∧ (∀ u ∈ (t :: path).getLast?, u.IsBaseless) ∧
    t.lineage = (t :: path).filterMap TypeDefinition.name?

theorem basesEnd_simple (t : SimpleType) : BasesEnd s (.simple t) := by
  obtain ⟨path, hchain, hpath, hend⟩ := t.exists_chain
  refine ⟨path.map .simple, ?_, ?_, ?_⟩
  · rw [← List.map_cons, List.isChain_map]
    exact hpath.imp fun u v huv => .simple u v huv
  · intro u hu
    rw [← List.map_cons, List.getLast?_map, Option.mem_def, Option.map_eq_some_iff] at hu
    obtain ⟨v, hv, rfl⟩ := hu
    exact hend v hv
  · rw [TypeDefinition.lineage, hchain, ← List.map_cons, List.filterMap_map]
    rfl

theorem basesEnd_complex (h : s.Tells table) (t : ComplexType) (ht : table.ComplexSound t) :
    BasesEnd s (.complex t) := by
  refine h.induct_bases (P := fun t => BasesEnd s (.complex t)) (fun t ht ih => ?_) t ht
  have hnames (path : List TypeDefinition) : (TypeDefinition.complex t :: path).filterMap TypeDefinition.name? =
      t.name.toList ++ path.filterMap TypeDefinition.name? := by
    rw [List.filterMap_cons]
    cases hname : t.name <;> simp [TypeDefinition.name?, hname]
  cases hbases : t.bases with
  | nil =>
      refine ⟨[], .singleton _, ?_, ?_⟩
      · rintro _ ⟨⟩
        exact hbases
      · rw [hnames, TypeDefinition.lineage, hbases]
        rfl
  | cons name later =>
      obtain ⟨u, hu⟩ := h.exists_base ht hbases
      have hend : BasesEnd s u := by
        cases u with
        | simple u => exact basesEnd_simple u
        | complex u => exact ih u hu
      obtain ⟨path, hpath, hlast, hlineage⟩ := hend
      refine ⟨u :: path, .cons_cons hu hpath, fun v hv => hlast v (by rwa [List.getLast?_cons_cons] at hv), ?_⟩
      obtain ⟨_, _, _, hu⟩ := h.hasBase_complex ht hu
      rw [hnames, ← hlineage, hu, TypeDefinition.lineage]

theorem basesEnd (h : s.Tells table) (t : TypeDefinition) (ht : table.TypeSound t) : BasesEnd s t := by
  cases t with
  | simple t => exact basesEnd_simple t
  | complex t => exact h.basesEnd_complex t ht

/-! ### Links -/

theorem acc_complex (h : s.Tells table) (t : ComplexType) (ht : table.ComplexSound t) :
    Acc (fun u v => s.Link v u) (.complex t) := by
  refine h.induct_bases (P := fun t => Acc (fun u v => s.Link v u) (.complex t))
    (fun t ht ih => Acc.intro _ fun u hu => ?_) t ht
  cases hu with
  | base _ u hu =>
      cases u with
      | simple u => exact acc_simple u
      | complex u => exact ih u hu
  | content _ u hu => exact acc_simple u

theorem acc (h : s.Tells table) (t : TypeDefinition) (ht : table.TypeSound t) : Acc (fun u v => s.Link v u) t := by
  cases t with
  | simple t => exact acc_simple t
  | complex t => exact h.acc_complex t ht

theorem typeNamed?_of_link (h : s.Tells table) {t u : TypeDefinition} (ht : table.TypeSound t) (hu : s.Link t u)
    {name : Name} (hname : u.name? = some name) : s.typeNamed? name = some u := by
  cases t with
  | simple t =>
      obtain ⟨v, hv, rfl⟩ := link_simple_iff.1 hu
      rw [h.typeNamed?_eq]
      exact SimpleType.Resolved.knownBy ht hv name hname
  | complex t =>
      cases hu with
      | base _ _ hu =>
          cases hu with
          | complex _ name' later base hbases hb =>
              rw [h.typeNamed?_eq] at hb
              cases hname.symm.trans (h.resolved name' u hb).1
              rw [h.typeNamed?_eq, hb]
      | content _ u hu =>
          rw [h.typeNamed?_eq]
          exact (ht.content u hu).1 name hname

end Tells

theorem Holds.trans {t u : TypeDefinition} (ht : s.Holds t) (hu : Relation.ReflTransGen s.Link t u) : s.Holds u := by
  induction hu with
  | refl => exact ht
  | tail _ h ih => exact .link _ _ ih h

theorem not_transGen_self {t : TypeDefinition} (h : Acc (fun u v => s.Link v u) t) :
    ¬ Relation.TransGen s.Link t t := by
  intro hcycle
  exact DependencyGraph.not_transGen_self_of_acc h (Relation.transGen_swap.2 hcycle)

/-! ### Groups -/

theorem sizeOf_le_of_mem_parts {p q : Particle} (h : q ∈ p.parts) : sizeOf q ≤ sizeOf p := by
  induction p using Particle.induct with
  | element | wildcard => rw [List.mem_singleton.1 h]
  | group compositor members occurs source ih =>
      rcases Particle.mem_parts_group.1 h with rfl | ⟨m, hm, hq⟩
      · exact Nat.le_refl _
      · have h₁ := ih m hm hq
        have h₂ := List.sizeOf_lt_of_mem hm
        rw [Particle.group.sizeOf_spec]
        omega

theorem mem_parts_trans {p q q' : Particle} (hq' : q' ∈ q.parts) (hq : q ∈ p.parts) : q' ∈ p.parts := by
  induction p using Particle.induct with
  | element | wildcard => rwa [List.mem_singleton.1 hq] at hq'
  | group compositor members occurs source ih =>
      rcases Particle.mem_parts_group.1 hq with rfl | ⟨m, hm, hq⟩
      · exact hq'
      · exact Particle.mem_parts_group.2 (.inr ⟨m, hm, ih m hm hq⟩)

theorem members_ne {members members' : List Particle} {m : Particle} (hm : m ∈ members) {compositor : Compositor}
    {occurs : Occurs} {source : Option Name} (h : .group compositor members' occurs source ∈ m.parts) :
    members' ≠ members := by
  rintro rfl
  have h₁ := sizeOf_le_of_mem_parts h
  have h₂ := List.sizeOf_lt_of_mem hm
  rw [Particle.group.sizeOf_spec] at h₁
  omega

/-! ### Schemas -/

theorem lookup_namedTypes {r : Registry} {scope : Scope} {read : List (DefinitionKey × Component)}
    (h : Settles r scope fun key => read.lookup key) (name : Name) :
    (namedTypes r read).lookup name = Table.type? (fun key => read.lookup key) name := by
  cases hl : (namedTypes r read).lookup name with
  | some t =>
      obtain ⟨⟨⟨kind, name'⟩, i, content⟩, _, ht, rfl⟩ := mem_namedTypes.1 (mem_of_lookup hl)
      obtain ⟨rfl, _⟩ := h.sound ht
      rw [Table.type?, ht]
  | none =>
      rw [Table.type?]
      split
      · next t ht =>
          have hi : r.item? ⟨.type, name⟩ ≠ none := by
            intro hi
            cases ht.symm.trans (h.eq_none hi)
          obtain ⟨i, hi⟩ := Option.ne_none_iff_exists'.1 hi
          obtain ⟨d, hd, hkey, _⟩ := Registry.exists_definition_of_item? hi
          obtain ⟨t', ht'⟩ := exists_lookup (mem_namedTypes.2 ⟨d, hd, by rw [hkey]; exact ht, by rw [hkey]⟩)
          cases hl.symm.trans ht'
      · rfl

/-- What becomes of a schema document: the types in its tables are those of the table of what its definitions mean. -/
theorem ofElement_tells {root : Xml.Element} {schema : Schema} (h : ofElement root = .ok schema) :
    ∃ table, schema.Tells table := by
  obtain ⟨_, _, r, order, read, elements, traces, sub, attributes, hr, horder, hread, hsub, hattributes, hschema⟩ :=
    ofElement_eq_ok.1 h
  obtain ⟨t₁, t₂, hread, _, helements⟩ := readRegistry_ok hread
  have hsettles := readDefinitions_settles (Registry.order_ok horder) hread
  rw [scopeOf_eq_knowing hsettles] at helements hattributes
  have hscope := hsettles.scopeSound
  have htypes (name : Name) : schema.types.lookup name = Table.type? (fun key => read.lookup key) name := by
    rw [hschema]
    exact lookup_namedTypes hsettles name
  have hdeclared := declares_induct sub (P := Table.TypeSound fun key => read.lookup key)
    (congrArg Schema.elements hschema) (congrArg Schema.locals hschema) typeSound_anyType
    (readElements_sound hscope helements)
  refine ⟨fun key => read.lookup key, htypes, fun name t => hsettles.resolveType?, fun name t ht => ?_, hdeclared,
    fun name a ha => ?_⟩
  · rw [hschema] at ht
    obtain ⟨⟨⟨kind, _⟩, _, _⟩, _, hl, rfl⟩ := mem_namedTypes.1 ht
    obtain ⟨rfl, _, hsound⟩ := hsettles.sound hl
    exact ⟨by rw [Table.type?, hl], hsound⟩
  · rw [hschema] at ha
    refine Build.mapM_forall (P := fun p => Table.SimpleSound _ p.2.type) (fun name _ p hp => ?_) hattributes _ ha
    simp only [Build.bind_eq_ok, Build.pure_eq_ok] at hp
    obtain ⟨a, ha, rfl⟩ := hp
    exact globalAttribute_sound hscope ha

/-- References in every schema that can be read are well founded. -/
theorem ofElement_isWellFounded {root : Xml.Element} {schema : Schema} (h : ofElement root = .ok schema) :
    schema.IsWellFounded := by
  obtain ⟨table, htells⟩ := ofElement_tells h
  have hsourced {p : Particle} (hp : schema.HasParticle p) : table.Sourced p := by
    obtain ⟨t, model, ht, hmodel, hp⟩ := hp
    exact fun c ms o name hq => ((htells.sound ht).model model hmodel).sourced c ms o name (mem_parts_trans hq hp)
  have hsource {name : Name} {c : Compositor} {ms : List Particle} {o : Occurs}
      (hp : schema.HasParticle (.group c ms o (some name))) : table ⟨.group, name⟩ = some (.group c ms) :=
    (sourced_group.1 (hsourced hp)).1 name rfl
  constructor
  case bases => exact fun t ht => htells.basesEnd t (htells.sound ht)
  case ends => exact fun t ht => htells.acc t (htells.sound ht)
  case acyclic => exact fun t ht => not_transGen_self (htells.acc t (htells.sound ht))
  case named => exact fun t u ht hu name hname => htells.typeNamed?_of_link (htells.sound ht) hu hname
  case once =>
    intro name t u ht huri hu hname
    obtain ⟨v, hv, hlink⟩ := Relation.TransGen.tail'_iff.1 hu
    have hheld : schema.Holds v := Holds.trans (.type name t ht) hv
    have hnamed := htells.typeNamed?_of_link (htells.sound hheld) hlink hname
    rw [htells.typeNamed?_eq, resolveType?, if_neg huri, (htells.named name t ht).1] at hnamed
    cases hnamed
    exact not_transGen_self (htells.acc t (htells.named name t ht).2) hu
  case restrictions =>
    intro t base _ hbase ht
    cases t with
    | primitive p => exact absurd rfl (ht p)
    | restriction name b facets =>
        cases hbase
        exact ⟨rfl, rfl⟩
    | list | union => cases hbase
  case sources =>
    intro name c c' ms ms' o o' hp hp'
    cases (hsource hp).symm.trans (hsource hp')
    exact ⟨rfl, rfl⟩
  case groups =>
    intro c ms o source hp m hm c' ms' o' source' hq
    refine ⟨members_ne hm hq, ?_⟩
    by_contra hsame
    obtain ⟨hnone, rfl⟩ : source' ≠ none ∧ source' = source := by simpa [not_or] using hsame
    obtain ⟨name, rfl⟩ := Option.ne_none_iff_exists'.1 hnone
    have hq' := hsourced hp c' ms' o' name (Particle.mem_parts_group.2 (.inr ⟨m, hm, hq⟩))
    cases (hsource hp).symm.trans hq'
    exact members_ne hm hq rfl

def schemaTag (kind : Text) (attributes : List (Text × Text)) : Xml.Tag :=
  ⟨⟨Namespace.schema, kind⟩, 1, attributes.map fun (key, value) => (⟨[], key⟩, value), [("xs", Namespace.schema)]⟩

/-- Boxes come in a list of sizes, or hold what a group tells. -/
def boxSchema : Xml.Element :=
  let node (kind : Text) (attributes : List (Text × Text)) (content : List Xml.Node) : Xml.Node :=
    .element (schemaTag kind attributes) content
  ⟨schemaTag "schema" [], [
    node "complexType" [("name", "box")] [node "group" [("ref", "wrapping")] []],
    node "simpleType" [("name", "sizes")] [node "list" [("itemType", "size")] []],
    node "complexType" [("name", "sized")] [node "simpleContent" [] [node "extension" [("base", "sizes")] []]],
    node "simpleType" [("name", "size")] [node "restriction" [("base", "xs:int")] []],
    node "group" [("name", "wrapping")] [node "sequence" [] [node "any" [] []]]]⟩

theorem ofElement_isWellFounded_box : ∃ schema, ofElement boxSchema = .ok schema ∧
    schema.types.map Prod.fst = [⟨[], "box"⟩, ⟨[], "sizes"⟩, ⟨[], "sized"⟩, ⟨[], "size"⟩] ∧ schema.IsWellFounded := by
  have hnames : (ofElement boxSchema).toOption.map (·.types.map Prod.fst) =
      some [⟨[], "box"⟩, ⟨[], "sizes"⟩, ⟨[], "sized"⟩, ⟨[], "size"⟩] := by decide +kernel
  obtain ⟨schema, h, hnames⟩ := Build.exists_of_map_toOption hnames
  exact ⟨schema, h, hnames, ofElement_isWellFounded h⟩

end Schema

end XmlSchema
