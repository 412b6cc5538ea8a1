import XmlSchema.Proofs.Schema.Extensions

/-!
Where the particles in a schema come from. Each has been read at an item of the document, or put around what has been
read, so what holds of all particles that are read at items holds of all in the content models of a schema.
-/

namespace XmlSchema

/-- All particles in a model have a property. -/
def Particle.EachHas (Q : Particle → Prop) (p : Particle) : Prop := ∀ q ∈ p.parts, Q q

theorem Particle.eachHas_group {Q : Particle → Prop} {compositor : Compositor} {members : List Particle}
    {occurs : Occurs} {source : Option Name} : (group compositor members occurs source).EachHas Q ↔
      Q (group compositor members occurs source) ∧ ∀ m ∈ members, m.EachHas Q := by
  constructor
  · exact fun h => ⟨h _ (mem_parts_self _), fun m hm q hq => h q (mem_parts_group.2 (.inr ⟨m, hm, hq⟩))⟩
  · rintro ⟨hgroup, hmembers⟩ q hq
    rcases mem_parts_group.1 hq with rfl | ⟨m, hm, hq⟩
    · exact hgroup
    · exact hmembers m hm q hq

def TypeDefinition.EachHas (Q : Particle → Prop) : TypeDefinition → Prop
  | simple _ => True
  | complex x => ∀ p, x.content.model? = some p → p.EachHas Q

namespace Schema

def Component.EachHas (Q : Particle → Prop) : Component → Prop
  | type t => t.EachHas Q
  | group _ members => ∀ m ∈ members, m.EachHas Q
  | attributeGroup _ => True

/-- All that a scope finds has a property. -/
def Scope.EachHas (s : Scope) (Q : Particle → Prop) : Prop :=
  ∀ key c, s.definition? key = .ok (some c) → c.EachHas Q

/-- The name of a local element at an item. -/
def Item.NamesLocal (s : Scope) (i : Item) (name : Name) : Prop :=
  ∃ raw, i.getFull? "name" = some raw ∧ name = ⟨localNamespace s i s.elementsQualified, Text.trim raw⟩

/-- The name that an item refers to. -/
def Item.RefersTo (i : Item) (name : Name) : Prop := ∃ ref, i.getFull? "ref" = some ref ∧ i.expandName ref = .ok name

/-- An item stands in a definition or a declaration. -/
def Registry.HasItem (r : Registry) (owner : DefinitionKey) (i : Item) : Prop :=
  ∃ top, r.top? owner = some top ∧ i.Within top

/-- A property that particles have as they are read at the items of definitions and declarations. -/
structure Registry.Grants (r : Registry) (s : Scope) (Q : Particle → Prop) : Prop where
  named : ∀ name occurs, occurs.max ≠ some 0 → Q (.element name .named occurs)
  inside : ∀ owner i name occurs, r.HasItem owner i → i.NamesLocal s name → occurs.max ≠ some 0 →
    Q (.element name (.inside owner i.path) occurs)
  wildcard : ∀ w occurs, Q (.wildcard w occurs)
  own : ∀ compositor members occurs, (compositor = .all → occurs.max = some 1 ∧ occurs.min ≤ 1) →
    Q (.group compositor members occurs none)
  reference : ∀ owner i compositor members o name, r.HasItem owner i → i.is "group" = true → i.RefersTo name →
    occurs i = .ok o → Q (.group compositor members o (some name))

variable {Q : Particle → Prop} {r : Registry} {s : Scope} {owner : DefinitionKey} {i j : Item} {t t' : Traces}

theorem Registry.HasItem.of_mem (h : r.HasItem owner i) (hj : j ∈ i.items) : r.HasItem owner j := by
  obtain ⟨top, htop, hwithin⟩ := h
  exact ⟨top, htop, (Item.Within.of_mem hj).trans hwithin⟩

theorem Registry.HasItem.from {root : Xml.Element} (h : r.HasItem owner i) (hr : r.From root) : i.From root := by
  obtain ⟨top, htop, hwithin⟩ := h
  exact (hr.top? htop).of_within hwithin

namespace Registry.Grants

theorem eachHas_sequence (hq : r.Grants s Q) {members : List Particle} (h : ∀ m ∈ members, m.EachHas Q) :
    (Particle.group .sequence members {} none).EachHas Q :=
  Particle.eachHas_group.2 ⟨hq.own _ _ _ nofun, h⟩

theorem eachHas_emptySequence (hq : r.Grants s Q) : Particle.emptySequence.EachHas Q := hq.eachHas_sequence (by simp)

theorem eachHas_wildcard (hq : r.Grants s Q) (w : Wildcard) (occurs : Occurs) :
    (Particle.wildcard w occurs).EachHas Q :=
  List.forall_mem_singleton.2 (hq.wildcard w occurs)

theorem eachHas_anyType (hq : r.Grants s Q) : (TypeDefinition.complex .anyType).EachHas Q := by
  rintro p ⟨⟩
  exact hq.eachHas_sequence (List.forall_mem_singleton.2 (hq.eachHas_wildcard _ _))

end Registry.Grants

/-! ### Particles -/

theorem readLocalElement_names {x : Name × ElementKey} (h : readLocalElement s owner i t = .ok (x, t')) :
    i.NamesLocal s x.1 := by
  rw [readLocalElement] at h
  cases hn : i.getFull? "name" with
  | none => simp [hn] at h
  | some raw =>
      simp only [hn, Reading.bind_eq_ok, Reading.lift_eq_ok, Reading.modify_eq_ok, Reading.pure_eq_ok] at h
      obtain ⟨_, _, _, _, _, _, rfl, _⟩ := h
      exact ⟨raw, hn, rfl⟩

theorem readElementParticle_eachHas (hq : r.Grants s Q) (hi : r.HasItem owner i) {o : Occurs} {p : Particle}
    (ho : o.max ≠ some 0) (h : readElementParticle s owner o i t = .ok (p, t')) : p.EachHas Q := by
  rcases readElementParticle_ok h with ⟨_, name, _, _, rfl, _⟩ | ⟨_, x, hx, rfl⟩
  · exact List.forall_mem_singleton.2 (hq.named name o ho)
  · obtain ⟨hkey, _⟩ := readLocalElement_ok hx
    rw [hkey]
    exact List.forall_mem_singleton.2 (hq.inside owner i x.1 o hi (readLocalElement_names hx) ho)

theorem readGroupReference_refersTo {o : Occurs} {p : Particle} (h : readGroupReference s o i t = .ok (p, t')) :
    ∃ name compositor members, i.RefersTo name ∧
      s.definition? ⟨.group, name⟩ = .ok (some (.group compositor members)) ∧
      p = .group compositor members o (some name) := by
  obtain ⟨_, name, compositor, members, hc, rfl⟩ := readGroupReference_ok h
  refine ⟨name, compositor, members, ?_, hc, rfl⟩
  rw [readGroupReference] at h
  cases href : i.getFull? "ref" with
  | none => simp [href] at h
  | some ref =>
      simp only [href, Reading.bind_eq_ok, Reading.lift_eq_ok] at h
      obtain ⟨name', _, ⟨hname, _⟩, c, _, ⟨_, _⟩, h⟩ := h
      rcases c with _ | _ | _ | _
      · simp at h
      · simp at h
      · simp only [Reading.pure_eq_ok] at h
        cases h.1
        exact ⟨ref, href, hname⟩
      · simp at h

theorem readParticle_kind {x : Option Particle} (h : readParticle s owner i t = .ok (x, t')) :
    i.isAmong particleKinds = true := by
  obtain ⟨tag, path, foreign, inner⟩ := i
  rw [readParticle] at h
  simp only [Reading.ite_eq_ok, Reading.bind_eq_ok, Reading.lift_eq_ok, Item.fail_eq_ok, false_and, and_false,
    exists_false, false_or] at h
  simpa using h.1

theorem readMembers_eachHas {items : List Item}
    (ih : ∀ i ∈ items, ∀ t p t', readParticle s owner i t = .ok (some p, t') → p.EachHas Q) {compositor : Compositor}
    {read members : List Particle} (hread : ∀ m ∈ read, m.EachHas Q)
    (h : readMembers s owner compositor read items t = .ok (members, t')) : ∀ m ∈ members, m.EachHas Q := by
  induction items generalizing read t with
  | nil =>
      obtain ⟨rfl, _⟩ := readMembers_nil_ok h
      exact fun m hm => hread m (List.mem_reverse.1 hm)
  | cons i items ihitems =>
      obtain ⟨ihi, ih⟩ := List.forall_mem_cons.1 ih
      obtain ⟨x, t₁, hx, _, h⟩ := readMembers_cons_ok h
      refine ihitems ih (List.forall_mem_append.2 ⟨fun m hm => ?_, hread⟩) h
      rw [Option.mem_toList] at hm
      obtain rfl : x = some m := hm
      exact ihi t m t₁ hx

theorem readParticle_eachHas (hq : r.Grants s Q) (hs : s.EachHas Q) (i : Item) : r.HasItem owner i →
    ∀ t p t', readParticle s owner i t = .ok (some p, t') → p.EachHas Q := by
  induction i using Item.induct with
  | mk tag path foreign inner ih =>
      intro hi t p t' h
      obtain ⟨o, ho, hread⟩ := readParticle_ok h
      cases hread with
      | element hmax _ p hp => exact readElementParticle_eachHas hq hi hmax hp
      | wildcard => exact hq.eachHas_wildcard _ _
      | reference _ he ha hc p hp =>
          obtain ⟨name, compositor, members, hname, hfound, rfl⟩ := readGroupReference_refersTo hp
          have hgroup := is_group_of_particle (readParticle_kind h) (by simp [he]) (by simp [ha]) hc
          exact Particle.eachHas_group.2 ⟨hq.reference owner _ _ _ o name hi hgroup hname ho, hs _ _ hfound⟩
      | group _ _ _ compositor _ members hmembers hall =>
          refine Particle.eachHas_group.2 ⟨hq.own _ _ _ hall, ?_⟩
          exact readMembers_eachHas (fun j hj => ih j hj (hi.of_mem hj)) (by simp) hmembers

theorem readModel_eachHas (hq : r.Grants s Q) (hs : s.EachHas Q) {items rest : List Item}
    (hitems : ∀ j ∈ items, r.HasItem owner j) {model : Option Particle}
    (h : readModel s owner items t = .ok ((model, rest), t')) : ∀ p, model = some p → p.EachHas Q := by
  rintro p rfl
  rcases readModel_ok h with ⟨hm, _⟩ | ⟨first, later, rfl, _, _, h⟩
  · cases hm
  · exact readParticle_eachHas hq hs first (hitems first List.mem_cons_self) t p t' h

/-! ### Complex types -/

theorem typeReference_eachHas (hq : r.Grants s Q) (hs : s.EachHas Q) {name : Name} {type : TypeDefinition}
    (h : typeReference s.type? i name = .ok type) : type.EachHas Q := by
  rcases typeReference_ok h with rfl | ⟨_, _, rfl⟩ | hfound
  · exact hq.eachHas_anyType
  · trivial
  · exact hs _ _ hfound

theorem readComplexContent_eachHas (hq : r.Grants s Q) (hs : s.EachHas Q) (hi : r.HasItem owner i)
    {name : Option Name} {isAbstract mixed : Bool} {x : ComplexType}
    (h : readComplexContent s owner name isAbstract mixed i t = .ok (x, t')) :
    (TypeDefinition.complex x).EachHas Q := by
  obtain ⟨d, base, _, model, rest, t₁, hd, hb, _, hmodel, _, h⟩ := readComplexContent_ok h
  obtain ⟨hbody, _, n, href⟩ := readDerivation_ok hd
  have hbody := hi.of_mem (hbody ▸ List.mem_singleton_self d.body)
  have hm := readModel_eachHas hq hs (fun j hj => hbody.of_mem hj) hmodel
  have hbase : (TypeDefinition.complex base).EachHas Q := hb ▸ typeReference_eachHas hq hs href
  rcases h with ⟨_, first, hfirst, h⟩ | ⟨_, h⟩
  · refine contentOfModel_induct hq.eachHas_emptySequence (extendModel_induct (fun a b ha hb => ?_) ?_ hm) h
    · exact hq.eachHas_sequence (List.forall_mem_cons.2 ⟨ha, List.forall_mem_singleton.2 hb⟩)
    · intro p hp
      rw [nonEmptyModel_ok hfirst] at hp
      exact hbase p (Option.filter_eq_some_iff.1 hp).1
  · exact contentOfModel_induct hq.eachHas_emptySequence hm h

theorem readComplexType_eachHas (hq : r.Grants s Q) (hs : s.EachHas Q) (hi : r.HasItem owner i) {name : Option Name}
    {x : ComplexType} (h : readComplexType s owner name i t = .ok (x, t')) : (TypeDefinition.complex x).EachHas Q := by
  cases readComplexType_ok h with
  | simple _ _ _ _ _ h =>
      obtain ⟨⟨type, hcontent⟩, _⟩ := readSimpleContent_ok h
      intro p hp
      rw [hcontent] at hp
      cases hp
  | complex first later hitems _ _ _ _ h =>
      exact readComplexContent_eachHas hq hs (hi.of_mem (hitems ▸ List.mem_cons_self)) h
  | declared _ _ _ h =>
      obtain ⟨model, rest, t₁, hmodel, _, h⟩ := readDeclaredType_ok h
      have hm := readModel_eachHas hq hs (fun j hj => hi.of_mem hj) hmodel
      exact contentOfModel_induct hq.eachHas_emptySequence hm h

/-! ### Definitions and elements -/

theorem readDefinition_eachHas (hq : r.Grants s Q) (hs : s.EachHas Q) {key : DefinitionKey} (hi : r.HasItem key i)
    {c : Component} (h : readDefinition s key i t = .ok (c, t')) :
    c.EachHas Q := by
  rw [readDefinition] at h
  cases hk : key.kind with
  | type =>
      simp only [hk, Reading.ite_eq_ok, Reading.bind_eq_ok, Reading.lift_eq_ok, Reading.pure_eq_ok] at h
      rcases h with ⟨_, x, _, h, rfl, _⟩ | ⟨_, _, _, _, rfl, _⟩
      · exact readComplexType_eachHas hq hs hi h
      · trivial
  | group =>
      simp only [hk] at h
      obtain ⟨body, compositor, members, o, source, hbody, rfl, hp⟩ := readGroup_ok h
      have hbody := hi.of_mem (hbody ▸ List.mem_singleton_self body)
      exact (Particle.eachHas_group.1 (readParticle_eachHas hq hs body hbody t _ t' hp)).2
  | attributeGroup =>
      simp only [hk, Reading.bind_eq_ok, Reading.lift_eq_ok, Reading.pure_eq_ok] at h
      obtain ⟨_, _, _, _, _, _, rfl, _⟩ := h
      trivial
  | element => simp [hk] at h

theorem meaning_eachHas (hq : r.Grants s Q) {n : Nat} {key : DefinitionKey} {c : Component}
    (hn : meaning r s n key = .ok (some c)) : c.EachHas Q := by
  induction n generalizing key c with
  | zero => cases hn
  | succ n ih =>
      rw [meaning] at hn
      cases hi : r.item? key with
      | none =>
          rw [hi] at hn
          cases hn
      | some i =>
          rw [hi] at hn
          obtain ⟨⟨c', t'⟩, hc, hn⟩ := Build.bind_eq_ok.1 hn
          cases hn
          have hgrants : r.Grants { s with definition? := meaning r s n } Q := ⟨hq.1, hq.2, hq.3, hq.4, hq.5⟩
          have htop := Registry.top?_of_item? (readDefinition_kind hc) hi
          exact readDefinition_eachHas hgrants (fun _ _ => ih) ⟨i, htop, .refl i⟩ hc

theorem Settles.eachHas {table : Table} (h : Settles r s table) (hq : r.Grants s Q) {key : DefinitionKey}
    {c : Component} (hc : table key = some c) : c.EachHas Q := by
  obtain ⟨n, hn⟩ := h key
  exact meaning_eachHas hq (hn.trans (congrArg Except.ok hc))

theorem readElementType_eachHas (hq : r.Grants s Q) (hs : s.EachHas Q) {p : PendingElement}
    (hp : r.HasItem p.owner p.item) {e : ReadElement}
    (h : readElementType s p t = .ok (e, t')) : ∀ type, e.type = some type → type.EachHas Q := by
  have hread := readOwnType_ok (readElementType_ok h).2
  intro type htype
  rw [htype] at hread
  cases hread with
  | named _ _ h _ => exact typeReference_eachHas hq hs h
  | complex first hi _ _ h => exact readComplexType_eachHas hq hs (hp.of_mem (List.mem_of_mem_filter hi)) h
  | simple => trivial
  | anything => exact hq.eachHas_anyType

/-! ### Schemas -/

theorem exists_registry {root : Xml.Element} {schema : Schema} (h : ofElement root = .ok schema) :
    ∃ r, Registry.ofRoot root = .ok r := by
  obtain ⟨_, _, r, _, _, _, _, _, _, hr, _⟩ := ofElement_eq_ok.1 h
  exact ⟨r, hr⟩

/-- What particles have as they are read, those in the content models of a schema have. -/
theorem ofElement_particles {root : Xml.Element} {schema : Schema} (h : ofElement root = .ok schema)
    (hr : Registry.ofRoot root = .ok r) (hq : r.Grants (rootScope root r) Q) :
    ∀ p, schema.HasParticle p → Q p := by
  obtain ⟨_, _, r', order, definitions, read, traces, sub, attributes, hr', horder, hread, hsub, hattributes,
    hschema⟩ := ofElement_eq_ok.1 h
  cases hr.symm.trans hr'
  have houtermost := Registry.ofRoot_outermost hr
  obtain ⟨_, _, hdefinitions, _, helements⟩ := readRegistry_ok hread
  have hsettles := readDefinitions_settles (Registry.order_ok horder) hdefinitions
  obtain ⟨_, _, hreadable, hall, _⟩ := (readRegistry_eq_ok hsettles (Registry.order_ok horder)).1 hread
  rw [scopeOf_eq_knowing hsettles] at helements
  have hreadAs : r.ReadAs read := hall ▸ allElements_readAs houtermost hreadable
  have hgrants : r.Grants ((rootScope root r).knowing fun key => definitions.lookup key) Q :=
    ⟨hq.1, hq.2, hq.3, hq.4, hq.5⟩
  have hdeclared := declares_induct sub (P := TypeDefinition.EachHas Q) (congrArg Schema.elements hschema)
    (congrArg Schema.locals hschema) hq.eachHas_anyType fun e he => by
      obtain ⟨p, t, t', hread⟩ := mem_readElements helements he
      obtain ⟨rfl, _⟩ := readElementType_ok hread
      obtain ⟨top, htop, _, _, hwithin⟩ := (hreadAs.listed e he).exists_top houtermost
      exact readElementType_eachHas hgrants (fun _ _ hc => hsettles.eachHas hq (Except.ok.inj hc)) ⟨top, htop, hwithin⟩
        hread
  rintro p ⟨x, model, hx, hmodel, hp⟩
  have htype : (TypeDefinition.complex x).EachHas Q := by
    rcases hx.complex with ⟨name, hx⟩ | ⟨d, hd, hx⟩ | rfl
    · rw [hschema] at hx
      obtain ⟨_, _, hx, _⟩ := mem_namedTypes.1 hx
      exact hsettles.eachHas hq hx
    · exact hx ▸ hdeclared d hd
    · exact hq.eachHas_anyType
  exact htype model hmodel p hp

end Schema

end XmlSchema
