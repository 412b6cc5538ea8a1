import XmlSchema.Proofs.Schema.AttributeUses
import XmlSchema.Proofs.Schema.Meaning
import XmlSchema.Proofs.SimpleType.Links

/-!
What the types of a schema refer to. A type with a name that another one is built from is what the name refers to, and
a group that goes by a name has the members that the group of this name has.
-/

namespace XmlSchema.Schema

/-- What the name of a type refers to, where `types` tells the types of a schema; names of the schema namespace are
those of built-in types. -/
def resolveType? (types : Name → Option TypeDefinition) (name : Name) : Option TypeDefinition :=
  if name.uri = Namespace.schema then
    if name = ComplexType.anyTypeName then some (.complex .anyType)
    else (SimpleType.builtin? name.localPart).map .simple
  else types name

/-- What the definitions of a schema mean. -/
abbrev Table := DefinitionKey → Option Component

namespace Table

def type? (table : Table) (name : Name) : Option TypeDefinition :=
  match table ⟨.type, name⟩ with
  | some (.type t) => some t
  | _ => none

def Refers (table : Table) (name : Name) (t : SimpleType) : Prop := resolveType? table.type? name = some (.simple t)

/-- A simple type that others may be built from. -/
def SimpleSound (table : Table) (t : SimpleType) : Prop := t.KnownBy table.Refers ∧ t.Resolved table.Refers

/-- The groups in a particle have the members of the groups that they refer to. -/
def Sourced (table : Table) (p : Particle) : Prop :=
  ∀ compositor members occurs name, .group compositor members occurs (some name) ∈ p.parts →
    table ⟨.group, name⟩ = some (.group compositor members)

/-- A model that may be read: the groups in it are what they refer to, each particle may occur some number of times, and
only single elements stand in any order. -/
structure ModelSound (table : Table) (p : Particle) : Prop where
  sourced : table.Sourced p
  ranges : p.HasRanges
  singles : p.HasSingles

structure ComplexSound (table : Table) (t : ComplexType) : Prop where
  bases : ∀ name later, t.bases = name :: later →
    ∃ base, resolveType? table.type? name = some base ∧ base.lineage = t.bases
  content : ∀ u, t.content = .simple u → table.SimpleSound u
  attributes : ∀ u ∈ t.attributes, table.SimpleSound u.declaration.type
  model : ∀ p, t.content.model? = some p → table.ModelSound p

def TypeSound (table : Table) : TypeDefinition → Prop
  | .simple t => t.Resolved table.Refers
  | .complex t => table.ComplexSound t

/-- What a definition may mean. -/
def ComponentSound (table : Table) (key : DefinitionKey) : Component → Prop
  | .type t => key.kind = .type ∧ t.name? = some key.name ∧ table.TypeSound t
  | .group compositor members => (compositor = .all → ∀ m ∈ members, m.isSingle = true) ∧
      ∀ m ∈ members, table.ModelSound m
  | .attributeGroup set => ∀ u ∈ set.uses, table.SimpleSound u.declaration.type

/-- All definitions that a scope finds are sound, and as the table tells them. -/
def ScopeSound (table : Table) (s : Scope) : Prop :=
  ∀ key c, s.definition? key = .ok (some c) → table key = some c ∧ table.ComponentSound key c

end Table

variable {table : Table} {s : Scope} {owner : DefinitionKey} {i : Item} {t t' : Traces}

/-! ### Built-in types -/

theorem exists_name_of_mem_builtin {u : SimpleType} (h : u ∈ SimpleType.Builtin.all) :
    ∃ name : Name, u.name? = some name ∧ name.uri = Namespace.schema ∧ name ≠ ComplexType.anyTypeName := by
  have hall : (SimpleType.Builtin.all.map SimpleType.name?).all (fun n => n.any fun n =>
      n.uri = Namespace.schema && n ≠ ComplexType.anyTypeName) = true := by decide +kernel
  have hu := List.all_eq_true.1 hall _ (List.mem_map_of_mem h)
  obtain ⟨name, hname, hn⟩ := (Option.any_eq_true _ _).1 hu
  simp only [Bool.and_eq_true, decide_eq_true_eq] at hn
  exact ⟨name, hname, hn⟩

theorem knownBy_of_mem_builtin {u : SimpleType} (h : u ∈ SimpleType.Builtin.all) : u.KnownBy table.Refers := by
  intro name hname
  obtain ⟨_, hu, huri, hne⟩ := exists_name_of_mem_builtin h
  cases hname.symm.trans hu
  rw [Table.Refers, resolveType?, if_pos huri, if_neg hne, SimpleType.builtin?_of_mem h]
  · rfl
  · rw [hname, SimpleType.Builtin.named, ← huri]

theorem simpleSound_of_mem_builtin {u : SimpleType} (h : u ∈ SimpleType.Builtin.all) : table.SimpleSound u := by
  refine ⟨knownBy_of_mem_builtin h, fun v hv w hw => ?_⟩
  have hmem : v ∈ SimpleType.Builtin.all := by
    clear hw
    induction hv with
    | refl => exact h
    | tail _ hlink ih => exact SimpleType.Builtin.links_subset _ ih hlink
  exact knownBy_of_mem_builtin (SimpleType.Builtin.links_subset v hmem hw)

theorem simpleSound_anySimple : table.SimpleSound .anySimple :=
  simpleSound_of_mem_builtin (SimpleType.Builtin.primitive_mem_all .anySimpleType)

/-! ### Particles -/

theorem sourced_group {compositor : Compositor} {members : List Particle} {occurs : Occurs} {source : Option Name} :
    table.Sourced (.group compositor members occurs source) ↔
      (∀ name, source = some name → table ⟨.group, name⟩ = some (.group compositor members)) ∧
        ∀ m ∈ members, table.Sourced m := by
  constructor
  · intro h
    refine ⟨?_, fun m hm c ms o name hp => h c ms o name (Particle.mem_parts_group.2 (.inr ⟨m, hm, hp⟩))⟩
    rintro name rfl
    exact h compositor members occurs name (Particle.mem_parts_group.2 (.inl rfl))
  · rintro ⟨hsource, hmembers⟩ c ms o name hp
    rcases Particle.mem_parts_group.1 hp with hp | ⟨m, hm, hp⟩
    · cases hp
      exact hsource name rfl
    · exact hmembers m hm c ms o name hp

theorem modelSound_group {compositor : Compositor} {members : List Particle} {occurs : Occurs} {source : Option Name} :
    table.ModelSound (.group compositor members occurs source) ↔
      (∀ name, source = some name → table ⟨.group, name⟩ = some (.group compositor members)) ∧ occurs.IsRange ∧
        (compositor = .all → ∀ m ∈ members, m.isSingle = true) ∧ ∀ m ∈ members, table.ModelSound m := by
  constructor
  · rintro ⟨hsourced, hranges, hsingles⟩
    rw [sourced_group] at hsourced
    rw [Particle.hasRanges_group] at hranges
    rw [Particle.hasSingles_group] at hsingles
    exact ⟨hsourced.1, hranges.1, hsingles.1, fun m hm => ⟨hsourced.2 m hm, hranges.2 m hm, hsingles.2 m hm⟩⟩
  · rintro ⟨hsource, ho, hall, hmembers⟩
    exact ⟨sourced_group.2 ⟨hsource, fun m hm => (hmembers m hm).sourced⟩,
      Particle.hasRanges_group.2 ⟨ho, fun m hm => (hmembers m hm).ranges⟩,
      Particle.hasSingles_group.2 ⟨hall, fun m hm => (hmembers m hm).singles⟩⟩

theorem modelSound_element {name : Name} {key : ElementKey} {occurs : Occurs} (h : occurs.IsRange) :
    table.ModelSound (.element name key occurs) where
  sourced := by simp [Table.Sourced, Particle.parts]
  ranges := by simpa [Particle.HasRanges, Particle.parts, Particle.occurs] using h
  singles := by simp [Particle.HasSingles, Particle.parts]

theorem modelSound_wildcard {w : Wildcard} {occurs : Occurs} (h : occurs.IsRange) :
    table.ModelSound (.wildcard w occurs) where
  sourced := by simp [Table.Sourced, Particle.parts]
  ranges := by simpa [Particle.HasRanges, Particle.parts, Particle.occurs] using h
  singles := by simp [Particle.HasSingles, Particle.parts]

theorem modelSound_sequence {members : List Particle} (h : ∀ m ∈ members, table.ModelSound m) :
    table.ModelSound (.group .sequence members {} none) :=
  modelSound_group.2 ⟨nofun, by decide, nofun, h⟩

theorem modelSound_emptySequence : table.ModelSound .emptySequence := modelSound_sequence (by simp)

theorem typeSound_anyType : table.TypeSound (.complex .anyType) where
  bases := nofun
  content := nofun
  attributes := by simp [ComplexType.anyType]
  model := by
    rintro p ⟨⟩
    exact modelSound_sequence (List.forall_mem_singleton.2 (modelSound_wildcard (by decide)))

/-! ### Types by name -/

/-- A type that a name refers to. -/
structure Table.Base (table : Table) (type : TypeDefinition) : Prop where
  name : ∃ name, resolveType? table.type? name = some type ∧ type.name? = some name
  sound : table.TypeSound type

theorem base_anyType : table.Base (.complex .anyType) where
  name := ⟨ComplexType.anyTypeName, by simp [resolveType?, ComplexType.anyTypeName], rfl⟩
  sound := typeSound_anyType

theorem Table.Base.simpleSound {u : SimpleType} (h : table.Base (.simple u)) : table.SimpleSound u := by
  obtain ⟨⟨name, hrefers, hname⟩, hsound⟩ := h
  refine ⟨fun n hn => ?_, hsound⟩
  cases hn.symm.trans hname
  exact hrefers

theorem typeReference_eq {known : TypeLookup} {name : Name} (huri : name.uri = Namespace.schema) {type : TypeDefinition}
    (h : typeReference known i name = .ok type) : resolveType? table.type? name = some type := by
  rw [typeReference, if_pos huri] at h
  rw [resolveType?, if_pos huri]
  split at h
  · next hany =>
      rw [if_pos hany]
      exact congrArg some (Build.pure_eq_ok.1 h)
  · next hany =>
      rw [if_neg hany]
      cases hb : SimpleType.builtin? name.localPart with
      | none => simp [hb] at h
      | some u =>
          rw [hb] at h
          exact congrArg some (Build.pure_eq_ok.1 h)

theorem resolveType?_builtin {name : Name} (huri : name.uri = Namespace.schema) {type : TypeDefinition}
    (h : resolveType? table.type? name = some type) : type.name? = some name ∧ table.TypeSound type := by
  rw [resolveType?, if_pos huri] at h
  split at h
  · next hany =>
      cases h
      exact ⟨hany ▸ rfl, typeSound_anyType⟩
  · obtain ⟨u, hu, rfl⟩ := Option.map_eq_some_iff.1 h
    obtain ⟨hmem, hname⟩ := SimpleType.mem_of_builtin? hu
    refine ⟨?_, (simpleSound_of_mem_builtin hmem).2⟩
    rw [TypeDefinition.name?, hname, SimpleType.Builtin.named, ← huri]

theorem typeReference_base (hs : table.ScopeSound s) {name : Name} {type : TypeDefinition}
    (h : typeReference s.type? i name = .ok type) : table.Base type := by
  by_cases huri : name.uri = Namespace.schema
  · have hrefers : resolveType? table.type? name = some type := typeReference_eq huri h
    obtain ⟨hname, hsound⟩ := resolveType?_builtin huri hrefers
    exact ⟨⟨name, hrefers, hname⟩, hsound⟩
  · rw [typeReference, if_neg huri, Build.bind_eq_ok] at h
    obtain ⟨found, hfound, h⟩ := h
    cases found with
    | none => simp at h
    | some found =>
        cases h
        obtain ⟨htable, _, hname, hsound⟩ := hs _ _ (type?_ok hfound)
        exact ⟨⟨name, by rw [resolveType?, if_neg huri, Table.type?, htable], hname⟩, hsound⟩

/-! ### Simple types -/

theorem simpleTypeReference_sound (hs : table.ScopeSound s) {name : Name} {u : SimpleType}
    (h : simpleTypeReference s.type? i name = .ok u) : table.SimpleSound u := by
  rw [simpleTypeReference, Build.bind_eq_ok] at h
  obtain ⟨type, htype, h⟩ := h
  cases type with
  | complex t => simp at h
  | simple t =>
      cases h
      exact (typeReference_base hs htype).simpleSound

theorem simpleTypeReferences_sound (hs : table.ScopeSound s) {value : Text} {types : List SimpleType}
    (h : simpleTypeReferences s.type? i value = .ok types) : ∀ u ∈ types, table.SimpleSound u := by
  refine Build.mapM_forall (fun word _ u hu => ?_) h
  obtain ⟨name, _, hu⟩ := Build.bind_eq_ok.1 hu
  exact simpleTypeReference_sound hs hu

theorem simpleSound_of_anonymous {u : SimpleType} (h : u.name? = none ∧ u.Resolved table.Refers) :
    table.SimpleSound u :=
  ⟨fun _ hn => (nomatch h.1.symm.trans hn), h.2⟩

mutual

theorem readSimpleType_sound (hs : table.ScopeSound s) {name : Option Name} {u : SimpleType} (i : Item)
    (h : readSimpleType s.type? name i = .ok u) : u.name? = name ∧ u.Resolved table.Refers := by
  match i with
  | .mk tag path none [body] =>
      rw [readSimpleType] at h
      simp only [Build.ite_eq_ok, reduceCtorEq, and_false, or_false] at h
      exact readSimpleBody_sound hs body h.2
  | .mk tag path none [] | .mk tag path none (_ :: _ :: _) | .mk tag path (some _) inner =>
      simp [readSimpleType] at h

theorem readSimpleBody_sound (hs : table.ScopeSound s) {name : Option Name} {u : SimpleType} (i : Item)
    (h : readSimpleBody s.type? name i = .ok u) : u.name? = name ∧ u.Resolved table.Refers := by
  match i with
  | .mk tag path foreign inner =>
      unfold readSimpleBody at h
      dsimp only at h
      rcases Build.ite_eq_ok.1 h with ⟨_, h⟩ | ⟨_, h⟩
      · obtain ⟨_, _, h⟩ := Build.bind_eq_ok.1 h
        cases hb : (Item.mk tag path foreign inner).getFull? "base" with
        | some base =>
            rw [hb] at h
            simp only [Build.bind_eq_ok, Build.pure_eq_ok] at h
            obtain ⟨n, _, base, hbase, facets, _, rfl⟩ := h
            exact ⟨rfl, .of_links (List.forall_mem_singleton.2 (simpleTypeReference_sound hs hbase))⟩
        | none =>
            rw [hb] at h
            match inner with
            | [] => simp at h
            | first :: later =>
                simp only [Build.ite_eq_ok, Build.bind_eq_ok, Build.pure_eq_ok, Item.fail_eq_ok, and_false,
                  or_false] at h
                obtain ⟨_, base, hbase, facets, _, rfl⟩ := h
                have hsound := simpleSound_of_anonymous (readSimpleType_sound hs first hbase)
                exact ⟨rfl, .of_links (List.forall_mem_singleton.2 hsound)⟩
      simp only [Build.ite_eq_ok, Build.bind_eq_ok] at h
      rcases h with ⟨_, named, hnamed, _, _, inline, hinline, h⟩ | ⟨_, named, hnamed, _, _, inline, hinline, h⟩
      · have hall := List.forall_mem_append.2
          ⟨simpleTypeReferences_sound hs hnamed, readSimpleTypes_sound hs inner hinline⟩
        split at h
        · next item hitem =>
            rw [hitem] at hall
            simp only [Build.ite_eq_ok, Build.pure_eq_ok, Item.fail_eq_ok, and_false, false_or] at h
            obtain ⟨_, rfl⟩ := h
            refine ⟨rfl, .of_links ?_⟩
            rwa [SimpleType.links_list]
        · simp at h
      · have hall := List.forall_mem_append.2
          ⟨simpleTypeReferences_sound hs hnamed, readSimpleTypes_sound hs inner hinline⟩
        simp only [Build.pure_eq_ok, Item.fail_eq_ok, and_false, false_or] at h
        obtain ⟨_, rfl⟩ := h
        exact ⟨rfl, .of_links hall⟩

theorem readSimpleTypes_sound (hs : table.ScopeSound s) {parent : Text} {types : List SimpleType} (items : List Item)
    (h : readSimpleTypes s.type? parent items = .ok types) : ∀ u ∈ types, table.SimpleSound u := by
  match items with
  | [] =>
      cases h
      simp
  | i :: later =>
      rw [readSimpleTypes] at h
      simp only [Build.ite_eq_ok, Build.bind_eq_ok, Build.pure_eq_ok, Item.fail_eq_ok, false_and, exists_false,
        and_false, false_or] at h
      obtain ⟨_, type, htype, types', htypes, rfl⟩ := h
      exact List.forall_mem_cons.2
        ⟨simpleSound_of_anonymous (readSimpleType_sound hs i htype), readSimpleTypes_sound hs later htypes⟩

end

/-! ### Attributes -/

theorem attributeType_sound (hs : table.ScopeSound s) {u : SimpleType} (h : attributeType s i = .ok u) :
    table.SimpleSound u := by
  rw [attributeType] at h
  obtain ⟨items, _, h⟩ := Build.bind_eq_ok.1 h
  dsimp only at h
  generalize i.getFull? "type" = type, items.filter _ = inline at h
  rcases type with _ | type <;> rcases inline with _ | ⟨first, later⟩
  · cases h
    exact simpleSound_anySimple
  · exact simpleSound_of_anonymous (readSimpleType_sound hs first h)
  · obtain ⟨name, _, h⟩ := Build.bind_eq_ok.1 h
    exact simpleTypeReference_sound hs h
  · simp at h

theorem globalAttribute_sound (hs : table.ScopeSound s) {line : Nat} {name : Name} {d : AttributeDeclaration}
    (h : globalAttribute s line name = .ok d) : table.SimpleSound d.type := by
  rw [globalAttribute] at h
  simp only [Build.ite_eq_ok, Build.pure_eq_ok] at h
  rcases h with ⟨_, rfl⟩ | ⟨_, h⟩
  · exact simpleSound_anySimple
  cases hi : s.attributes.lookup name with
  | none => simp [hi] at h
  | some i =>
      simp only [hi, Build.bind_eq_ok, Build.pure_eq_ok] at h
      obtain ⟨type, htype, _, _, rfl⟩ := h
      exact attributeType_sound hs htype

theorem readAttributeUse_sound (hs : table.ScopeSound s) {u : AttributeUse} (h : readAttributeUse s i t = .ok (u, t')) :
    table.SimpleSound u.declaration.type := by
  rw [readAttributeUse] at h
  cases hu : Use.ofName? (Text.trim ((i.getFull? "use").getD "optional")) with
  | none => simp [hu] at h
  | some use =>
      cases hr : i.getFull? "ref" with
      | some ref =>
          simp only [hu, hr, Reading.ite_eq_ok, Reading.bind_eq_ok, Reading.lift_eq_ok, Reading.pure_eq_ok,
            Reading.modify_eq_ok, Item.fail_eq_ok, false_and, and_false, exists_false, false_or] at h
          obtain ⟨_, _, name, _, _, declaration, _, ⟨hd, _⟩, _, _, _, rfl, _⟩ := h
          exact globalAttribute_sound hs hd
      | none =>
          simp only [hu, hr, Reading.ite_eq_ok, Reading.bind_eq_ok, Reading.lift_eq_ok, Item.fail_eq_ok, false_and,
            and_false, exists_false, false_or] at h
          cases hn : i.getFull? "name" with
          | none => simp [hn] at h
          | some name =>
              simp only [hn, Reading.bind_eq_ok, Reading.lift_eq_ok, Reading.pure_eq_ok] at h
              obtain ⟨_, _, type, _, ⟨htype, _⟩, _, _, _, rfl, _⟩ := h
              exact attributeType_sound hs htype

theorem Table.ScopeSound.usesHave (hs : table.ScopeSound s) :
    s.UsesHave fun u => table.SimpleSound u.declaration.type where
  read := fun _ _ _ _ h => readAttributeUse_sound hs h
  found := by
    rintro key (type | _ | set) hc
    · cases type with
      | simple => simp [Component.uses, TypeDefinition.uses]
      | complex x => exact (hs _ _ hc).2.2.2.attributes
    · simp [Component.uses]
    · exact (hs _ _ hc).2

theorem readAttributes_sound (hs : table.ScopeSound s) {parent : Text} {items : List Item} {set : AttributeSet}
    (h : readAttributes s parent items t = .ok (set, t')) : ∀ u ∈ set.uses, table.SimpleSound u.declaration.type :=
  readAttributes_uses hs.usesHave h

/-! ### Models -/

/-- The greatest number of occurrences is never below the least. -/
theorem occurs_isRange {o : Occurs} (h : occurs i = .ok o) : o.IsRange := by
  unfold occurs at h
  simp only at h
  split at h
  · simp only [Build.ite_eq_ok, Item.fail_eq_ok, and_false, or_false, Except.ok.injEq] at h
    obtain ⟨_, rfl⟩ := h
    exact nofun
  · simp only [Build.ite_eq_ok, Item.fail_eq_ok, and_false, or_false, Except.ok.injEq, Bool.and_eq_true,
      decide_eq_true_eq] at h
    obtain ⟨⟨_, hle⟩, rfl⟩ := h
    rintro m ⟨⟩
    exact Int.toNat_le_toNat hle
  · simp at h

theorem readMembers_sound {items : List Item} {compositor : Compositor}
    (ih : ∀ i ∈ items, ∀ t p t', readParticle s owner i t = .ok (some p, t') → table.ModelSound p)
    {read members : List Particle}
    (hread : ∀ m ∈ read, table.ModelSound m ∧ (compositor = .all → m.isSingle = true))
    (h : readMembers s owner compositor read items t = .ok (members, t')) :
    ∀ m ∈ members, table.ModelSound m ∧ (compositor = .all → m.isSingle = true) := by
  induction items generalizing read t with
  | nil =>
      obtain ⟨rfl, _⟩ := readMembers_nil_ok h
      exact fun m hm => hread m (List.mem_reverse.1 hm)
  | cons i items ihitems =>
      obtain ⟨ihi, ih⟩ := List.forall_mem_cons.1 ih
      obtain ⟨x, t₁, hx, hall, h⟩ := readMembers_cons_ok h
      refine ihitems ih (List.forall_mem_append.2 ⟨fun m hm => ?_, hread⟩) h
      rw [Option.mem_toList] at hm
      obtain rfl : x = some m := hm
      refine ⟨ihi t m t₁ hx, fun hc => ?_⟩
      obtain ⟨hi, hmax⟩ := hall hc
      obtain ⟨name, key, o, rfl⟩ := readParticle_element hi hx
      exact decide_eq_true (hmax _ rfl)

theorem readParticle_sound (hs : table.ScopeSound s) (i : Item) :
    ∀ t p t', readParticle s owner i t = .ok (some p, t') → table.ModelSound p := by
  induction i using Item.induct with
  | mk tag path foreign inner ih =>
      intro t p t' h
      obtain ⟨o, ho, hread⟩ := readParticle_ok h
      have hrange := occurs_isRange ho
      cases hread with
      | element _ _ p hp =>
          rcases readElementParticle_ok hp with ⟨_, name, _, _, rfl, _⟩ | ⟨_, x, _, rfl⟩
          · exact modelSound_element hrange
          · exact modelSound_element hrange
      | wildcard => exact modelSound_wildcard hrange
      | reference _ _ _ _ p hp =>
          obtain ⟨_, name, compositor, members, hc, rfl⟩ := readGroupReference_ok hp
          obtain ⟨htable, hall, hmembers⟩ := hs _ _ hc
          exact modelSound_group.2 ⟨fun n hn => Option.some.inj hn ▸ htable, hrange, hall, hmembers⟩
      | group _ _ _ compositor _ members hmembers _ =>
          have hmembers := readMembers_sound ih (by simp) hmembers
          exact modelSound_group.2 ⟨nofun, hrange, fun hc m hm => (hmembers m hm).2 hc, fun m hm => (hmembers m hm).1⟩

theorem readModel_sound (hs : table.ScopeSound s) {items rest : List Item} {model : Option Particle}
    (h : readModel s owner items t = .ok ((model, rest), t')) : ∀ p, model = some p → table.ModelSound p := by
  rintro p rfl
  rcases readModel_ok h with ⟨hm, _⟩ | ⟨first, later, _, _, _, h⟩
  · exact nomatch hm
  · exact readParticle_sound hs first t p t' h

/-! ### Complex types -/

theorem exists_lineage {type : TypeDefinition} {name : Name} (h : type.name? = some name) :
    ∃ later, type.lineage = name :: later := by
  cases type with
  | simple u =>
      obtain ⟨path, hchain, _⟩ := u.exists_chain
      have h : u.name? = some name := h
      exact ⟨path.filterMap SimpleType.name?, by rw [TypeDefinition.lineage, hchain, List.filterMap_cons_some h]⟩
  | complex x => exact ⟨x.bases, by rw [TypeDefinition.lineage, show x.name = some name from h]; rfl⟩

theorem derive_sound {base : TypeDefinition} (hbase : table.Base base) {name : Option Name} {isAbstract : Bool}
    {content : ContentType} {inherited own : AttributeSet} (hsimple : ∀ u, content = .simple u → table.SimpleSound u)
    (hmodel : ∀ p, content.model? = some p → table.ModelSound p)
    (hinherited : ∀ u ∈ inherited.uses, table.SimpleSound u.declaration.type)
    (hown : ∀ u ∈ own.uses, table.SimpleSound u.declaration.type) :
    table.ComplexSound (derive name isAbstract base content inherited own) where
  bases := by
    intro n later hbases
    obtain ⟨name, hrefers, hname⟩ := hbase.name
    obtain ⟨later', hlineage⟩ := exists_lineage hname
    cases hlineage.symm.trans hbases
    exact ⟨base, hrefers, rfl⟩
  content := hsimple
  attributes := forall_mem_insertAll (P := fun u => table.SimpleSound u.declaration.type) hown hinherited
  model := hmodel

theorem readDerivation_base (hs : table.ScopeSound s) {d : Derivation} (h : readDerivation s i = .ok d) :
    table.Base d.base := by
  obtain ⟨_, _, name, h⟩ := readDerivation_ok h
  exact typeReference_base hs h

theorem extensionBase_sound {d : Derivation} (hd : table.Base d.base) {u : SimpleType} {inherited : AttributeSet}
    (h : extensionBase d = .ok (u, inherited)) :
    table.SimpleSound u ∧ ∀ v ∈ inherited.uses, table.SimpleSound v.declaration.type := by
  rw [extensionBase] at h
  cases hb : d.base with
  | simple t =>
      rw [hb] at h hd
      cases h
      exact ⟨hd.simpleSound, by simp⟩
  | complex t =>
      rw [hb] at h hd
      dsimp only at h
      cases hc : t.content with
      | simple type =>
          rw [hc] at h
          cases h
          exact ⟨hd.sound.content u hc, hd.sound.attributes⟩
      | empty | elementOnly | mixed => simp [hc] at h

theorem restrictionBase_sound {d : Derivation} (hd : table.Base d.base) {u : SimpleType} {inherited : AttributeSet}
    (h : restrictionBase d = .ok (u, inherited)) :
    table.SimpleSound u ∧ ∀ v ∈ inherited.uses, table.SimpleSound v.declaration.type := by
  rw [restrictionBase] at h
  cases hb : d.base with
  | simple t => simp [hb] at h
  | complex t =>
      rw [hb] at h hd
      dsimp only at h
      cases hc : t.content with
      | simple type =>
          rw [hc] at h
          cases h
          exact ⟨hd.sound.content u hc, hd.sound.attributes⟩
      | empty | elementOnly | mixed => simp [hc] at h

theorem restrictedType_sound (hs : table.ScopeSound s) {base u : SimpleType} {items later : List Item}
    (hbase : table.SimpleSound base) (h : restrictedType s base items = .ok (u, later)) : table.SimpleSound u := by
  cases items with
  | nil =>
      cases h
      exact hbase
  | cons first items =>
      rw [restrictedType] at h
      simp only [Build.ite_eq_ok, Build.bind_eq_ok, Build.pure_eq_ok, Prod.mk.injEq, Except.ok.injEq] at h
      rcases h with ⟨_, u, hu, rfl, _⟩ | ⟨_, rfl, _⟩
      · exact simpleSound_of_anonymous (readSimpleType_sound hs first hu)
      · exact hbase

variable {name : Option Name} {isAbstract mixed : Bool} {x : ComplexType}

theorem readSimpleContent_sound (hs : table.ScopeSound s) (h : readSimpleContent s name isAbstract i t = .ok (x, t')) :
    x.name = name ∧ table.ComplexSound x := by
  rw [readSimpleContent] at h
  simp only [Reading.bind_eq_ok, Reading.lift_eq_ok, Reading.ite_eq_ok, Reading.pure_eq_ok] at h
  obtain ⟨d, _, ⟨hd, _⟩, parts, _, _, ⟨_, ⟨type, inherited⟩, _, ⟨hbase, _⟩, own, _, hown, rfl, _⟩ |
    ⟨_, ⟨type, inherited⟩, _, ⟨hbase, _⟩, ⟨base, later⟩, _, ⟨hrestricted, _⟩, facets, _, _, own, _, hown, rfl, _⟩⟩ := h
  · obtain ⟨hsound, hinherited⟩ := extensionBase_sound (readDerivation_base hs hd) hbase
    refine ⟨rfl, derive_sound (readDerivation_base hs hd) (fun u hu => ContentType.simple.inj hu ▸ hsound)
      (fun p hp => ?_) hinherited (readAttributes_sound hs hown)⟩
    cases hp
  · obtain ⟨hsound, hinherited⟩ := restrictionBase_sound (readDerivation_base hs hd) hbase
    refine ⟨rfl, derive_sound (readDerivation_base hs hd) (fun u hu => ?_) (fun p hp => ?_) hinherited
      (readAttributes_sound hs hown)⟩
    swap
    · cases hp
    cases hu
    have hbase := restrictedType_sound hs hsound hrestricted
    exact simpleSound_of_anonymous ⟨rfl, .of_links (List.forall_mem_singleton.2 hbase)⟩

theorem contentOfModel_simple {model : Option Particle} {content : ContentType}
    (h : contentOfModel model mixed = .ok content) (u : SimpleType) : content ≠ .simple u := by
  rcases contentOfModel_ok h with ⟨_, _, _, rfl⟩ | ⟨_, rfl⟩ <;> cases mixed <;> exact nofun

theorem readComplexContent_sound (hs : table.ScopeSound s)
    (h : readComplexContent s owner name isAbstract mixed i t = .ok (x, t')) :
    x.name = name ∧ table.ComplexSound x := by
  rw [readComplexContent] at h
  simp only [Reading.bind_eq_ok, Reading.lift_eq_ok] at h
  obtain ⟨d, _, ⟨hd, _⟩, h⟩ := h
  have hbase := readDerivation_base hs hd
  cases hb : d.base with
  | simple type => simp [hb] at h
  | complex base =>
      rw [hb] at hbase
      simp only [hb, Reading.bind_eq_ok, Reading.lift_eq_ok, Reading.ite_eq_ok, Reading.pure_eq_ok] at h
      obtain ⟨mixed', _, _, items, _, _, ⟨model, rest⟩, _, hmodel, h⟩ := h
      have hmodel := readModel_sound hs hmodel
      rcases h with ⟨_, first, _, ⟨hfirst, _⟩, content, _, ⟨hcontent, _⟩, own, _, hown, rfl, _⟩ |
        ⟨_, content, _, ⟨hcontent, _⟩, own, _, hown, rfl, _⟩
      · refine ⟨rfl, derive_sound hbase (fun u hu => absurd hu (contentOfModel_simple hcontent u)) ?_
          hbase.sound.attributes (readAttributes_sound hs hown)⟩
        refine contentOfModel_induct modelSound_emptySequence
          (extendModel_induct (fun a b ha hb => ?_) ?_ hmodel) hcontent
        · exact modelSound_sequence (List.forall_mem_cons.2 ⟨ha, List.forall_mem_singleton.2 hb⟩)
        · intro p hp
          rw [nonEmptyModel_ok hfirst] at hp
          exact hbase.sound.model p (Option.filter_eq_some_iff.1 hp).1
      · exact ⟨rfl, derive_sound hbase (fun u hu => absurd hu (contentOfModel_simple hcontent u))
          (contentOfModel_induct modelSound_emptySequence hmodel hcontent) hbase.sound.attributes
          (readAttributes_sound hs hown)⟩

theorem readDeclaredType_sound (hs : table.ScopeSound s) {items : List Item}
    (h : readDeclaredType s owner name isAbstract mixed i items t = .ok (x, t')) :
    x.name = name ∧ table.ComplexSound x := by
  rw [readDeclaredType] at h
  simp only [Reading.bind_eq_ok, Reading.lift_eq_ok, Reading.pure_eq_ok] at h
  obtain ⟨⟨model, rest⟩, _, hmodel, content, _, ⟨hcontent, _⟩, own, _, hown, rfl, _⟩ := h
  exact ⟨rfl, derive_sound base_anyType (fun u hu => absurd hu (contentOfModel_simple hcontent u))
    (contentOfModel_induct modelSound_emptySequence (readModel_sound hs hmodel) hcontent) (by simp)
    (readAttributes_sound hs hown)⟩

theorem readComplexType_sound (hs : table.ScopeSound s) (h : readComplexType s owner name i t = .ok (x, t')) :
    x.name = name ∧ table.ComplexSound x := by
  cases readComplexType_ok h with
  | simple _ _ _ _ _ h => exact readSimpleContent_sound hs h
  | complex _ _ _ _ _ _ _ h => exact readComplexContent_sound hs h
  | declared _ _ _ h => exact readDeclaredType_sound hs h

/-! ### Definitions and elements -/

theorem readDefinition_sound (hs : table.ScopeSound s) {key : DefinitionKey} {c : Component}
    (h : readDefinition s key i t = .ok (c, t')) : table.ComponentSound key c := by
  rw [readDefinition] at h
  cases hk : key.kind with
  | type =>
      simp only [hk, Reading.ite_eq_ok, Reading.bind_eq_ok, Reading.lift_eq_ok, Reading.pure_eq_ok] at h
      rcases h with ⟨_, x, _, h, rfl, _⟩ | ⟨_, u, _, ⟨h, _⟩, rfl, _⟩
      · exact ⟨hk, readComplexType_sound hs h⟩
      · exact ⟨hk, readSimpleType_sound hs i h⟩
  | group =>
      simp only [hk] at h
      obtain ⟨body, compositor, members, o, source, _, rfl, hp⟩ := readGroup_ok h
      exact (modelSound_group.1 (readParticle_sound hs body t _ t' hp)).2.2
  | attributeGroup =>
      simp only [hk, Reading.bind_eq_ok, Reading.lift_eq_ok, Reading.pure_eq_ok] at h
      obtain ⟨items, _, _, set, _, h, rfl, _⟩ := h
      exact readAttributes_sound hs h
  | element => simp [hk] at h

theorem readOwnType_sound (hs : table.ScopeSound s) {p : PendingElement} {inline : List Item}
    {type : Option TypeDefinition} (h : readOwnType s p inline t = .ok (type, t')) :
    ∀ d, type = some d → table.TypeSound d := by
  unfold readOwnType at h
  generalize p.item.getFull? "type" = named at h
  rcases named with _ | name <;> rcases inline with _ | ⟨first, later⟩
  · rw [Reading.pure_eq_ok] at h
    obtain ⟨rfl, _⟩ := h
    intro d hd
    split at hd
    · exact nomatch hd
    · cases hd
      exact typeSound_anyType
  · simp only [Reading.bind_eq_ok, Reading.lift_eq_ok, Reading.ite_eq_ok, Reading.pure_eq_ok] at h
    rcases h with ⟨_, x, _, h, rfl, _⟩ | ⟨_, u, _, ⟨h, _⟩, rfl, _⟩
    · rintro _ ⟨⟩
      exact (readComplexType_sound hs h).2
    · rintro _ ⟨⟩
      exact (readSimpleType_sound hs first h).2
  all_goals
    simp only [Reading.bind_eq_ok, Reading.lift_eq_ok, Reading.pure_eq_ok] at h
    obtain ⟨n, _, _, d, _, ⟨h, _⟩, rfl, _⟩ := h
    rintro _ ⟨⟩
    exact (typeReference_base hs h).sound

theorem readElementType_sound (hs : table.ScopeSound s) {p : PendingElement} {e : ReadElement}
    (h : readElementType s p t = .ok (e, t')) : ∀ d, e.type = some d → table.TypeSound d :=
  readOwnType_sound hs (readElementType_ok h).2

theorem readElements_sound (hs : table.ScopeSound s) {depth : Nat} {pending : List PendingElement}
    {read : List ReadElement} (h : readElements s depth pending t = .ok (read, t')) :
    ∀ e ∈ read, ∀ d, e.type = some d → table.TypeSound d := by
  intro e he
  obtain ⟨p, t, t', h⟩ := mem_readElements h he
  exact readElementType_sound hs h

/-! ### All definitions -/

variable {r : Registry}

theorem meaning_sound (h : Settles r s table) {n : Nat} {key : DefinitionKey} {c : Component}
    (hn : meaning r s n key = .ok (some c)) : table.ComponentSound key c := by
  induction n generalizing key c with
  | zero => cases hn
  | succ n ih =>
      rw [meaning] at hn
      cases hi : r.item? key with
      | none =>
          rw [hi] at hn
          cases hn
      | some i =>
          rw [hi] at hn
          obtain ⟨⟨c', t'⟩, hc, hn⟩ := Build.bind_eq_ok.1 hn
          cases hn
          refine readDefinition_sound (fun key' c' h' => ⟨?_, ih h'⟩) hc
          exact (h key').unique ⟨n, h'⟩

theorem Settles.sound (h : Settles r s table) {key : DefinitionKey} {c : Component} (hc : table key = some c) :
    table.ComponentSound key c := by
  obtain ⟨n, hn⟩ := h key
  exact meaning_sound h (hn.trans (congrArg Except.ok hc))

theorem Settles.scopeSound (h : Settles r s table) : table.ScopeSound (s.knowing table) := by
  intro key c hc
  have hc : table key = some c := Except.ok.inj hc
  exact ⟨hc, h.sound hc⟩

theorem Settles.resolveType? (h : Settles r s table) {name : Name} {type : TypeDefinition}
    (hr : Schema.resolveType? table.type? name = some type) : type.name? = some name ∧ table.TypeSound type := by
  by_cases huri : name.uri = Namespace.schema
  · exact resolveType?_builtin huri hr
  · rw [Schema.resolveType?, if_neg huri, Table.type?] at hr
    split at hr
    · next t ht =>
        cases hr
        exact (h.sound ht).2
    · exact nomatch hr

end XmlSchema.Schema
