import XmlSchema.Proofs.Schema.Definitions
import XmlSchema.Proofs.Schema.Dependencies
import XmlSchema.Proofs.Schema.Elements

/-!
A schema that has been read is closed: all elements that its types refer to are declared in it, and so are all that may
stand for others.
-/

namespace XmlSchema

/-- Nothing in a schema refers to an element that is not declared. -/
structure Schema.Closed (s : Schema) : Prop where
  substitutes : s.SubstitutesDeclared
  elements : ∀ d, s.Declares d → d.type.RefersIn s.Knows
  types : ∀ name type, (name, type) ∈ s.types → type.RefersIn s.Knows

namespace Schema

variable {known : Name → ElementKey → Prop} {r : Registry} {s : Scope} {t t' : Traces}

/-! ### All that is registered -/

/-- All that is registered gets read, and refers to nothing but the global elements and the local ones read too. -/
theorem readRegistry_complete {order : List DefinitionKey} {line line' : Nat} {read : List (DefinitionKey × Component)}
    {elements : List ReadElement} (horder : r.order line = .ok order) (ht : t.elements = [])
    (h : readRegistry r s order line' t = .ok ((read, elements), t')) :
    (∀ p ∈ r.elements, ∃ e ∈ elements, e.pending = p) ∧
    ∀ known : Name → ElementKey → Prop, (∀ name ∈ s.elements, known name .named) →
      (∀ e ∈ elements, e.pending.key ≠ .named → ∀ name, known name e.pending.key) →
      (∀ key c, read.lookup key = some c → c.RefersIn known) ∧
        ∀ e ∈ elements, ∀ type, e.type = some type → type.RefersIn known := by
  obtain ⟨t₁, t₂, hread, he₂, helements⟩ := readRegistry_ok h
  obtain ⟨left, he, hlocal, hpaths⟩ := readDefinitions_leaves hread
  rw [he₂, he, ht, List.append_nil] at helements
  have hcomplete := readElements_complete (fun p hp => Nat.lt_succ_of_le
    ((Item.le_heightsFrom 0 _).2 p.item (List.mem_map_of_mem hp))) rfl helements
  refine ⟨fun p hp => hcomplete.all p (List.mem_append_left _ (List.mem_reverse.2 hp)), ?_⟩
  intro known hnames hknown
  have hr : r.StandIn s known := by
    refine ⟨fun key i hi path hpath name => ?_, hnames⟩
    obtain ⟨d, hd, rfl, _⟩ := Registry.exists_definition_of_item? hi
    obtain ⟨p, hp, hkey⟩ := hpaths d.key (Registry.order_ok horder d hd) i hi path hpath
    obtain ⟨e, he, rfl⟩ := hcomplete.all p (List.mem_append_right _ (List.mem_reverse.2 hp))
    have := hknown e he (by simp [hkey]) name
    rwa [hkey] at this
  have hdefinitions := readDefinitions_refersIn hr (by simp) hread
  exact ⟨hdefinitions, hcomplete.refersIn known (scopeOf_refersIn hr hdefinitions []) hknown⟩

theorem mem_namedTypes {read : List (DefinitionKey × Component)} {name : Name} {type : TypeDefinition} :
    (name, type) ∈ namedTypes r read ↔
      ∃ d ∈ r.definitions, read.lookup d.key = some (.type type) ∧ d.key.name = name := by
  rw [namedTypes, List.mem_filterMap]
  refine exists_congr fun d => and_congr_right fun _ => ?_
  split
  · next type' hl => simp [hl, and_comm]
  · next hl => simpa using fun h => absurd h (hl type)

/-! ### Substitution -/

theorem addSubstitute_subset {names : List Name} {member : Name} (hmember : member ∈ names)
    {table : List (Name × List Name)} (h : ∀ p ∈ table, p.2 ⊆ names) (head : Name) :
    ∀ p ∈ addSubstitute member table head, p.2 ⊆ names := by
  induction table with
  | nil =>
      rw [addSubstitute]
      simpa using hmember
  | cons p table ih =>
      obtain ⟨other, members⟩ := p
      obtain ⟨hmembers, htable⟩ := List.forall_mem_cons.1 h
      rw [addSubstitute]
      split
      · refine List.forall_mem_cons.2 ⟨List.append_subset.2 ⟨hmembers, ?_⟩, htable⟩
        simpa using hmember
      · exact List.forall_mem_cons.2 ⟨hmembers, ih htable⟩

theorem substitution_ok {elements : List PendingElement} {sub : Substitution} (h : substitution elements = .ok sub) :
    ∀ p ∈ sub.members, p.2 ⊆ elements.map (·.declaration.name) := by
  rw [substitution] at h
  simp only [Build.bind_eq_ok] at h
  obtain ⟨_, _, h⟩ := h
  refine Build.foldlM_induct (P := fun sub => ∀ p ∈ sub.members, p.2 ⊆ elements.map (·.declaration.name)) (by simp) ?_ h
  intro sub hsub e he sub' h
  split at h
  · simp at h
  · next heads _ =>
      cases h
      have hname : e.declaration.name ∈ elements.map (·.declaration.name) := List.mem_map_of_mem he
      have hmembers : ∀ p ∈ heads.foldl (addSubstitute e.declaration.name) sub.members,
          p.2 ⊆ elements.map (·.declaration.name) :=
        List.foldlRecOn (motive := fun (table : List (Name × List Name)) =>
          ∀ p ∈ table, p.2 ⊆ elements.map (·.declaration.name)) heads _ hsub
          fun table htable head _ => addSubstitute_subset hname htable head
      exact hmembers

theorem inheritedType_induct {P : TypeDefinition → Prop} (hany : P (.complex .anyType))
    {types : List (Name × TypeDefinition)} {heads : List Name} {own : Option TypeDefinition}
    (htypes : ∀ p ∈ types, P p.2) (hown : ∀ type, own = some type → P type) : P (inheritedType types heads own) := by
  rw [inheritedType]
  cases own with
  | some type => exact hown type rfl
  | none =>
      cases hf : heads.findSome? fun head => types.lookup head with
      | none => exact hany
      | some type =>
          obtain ⟨head, _, hl⟩ := List.exists_of_findSome?_eq_some hf
          exact htypes _ (mem_of_lookup hl)

/-! ### Tables -/

theorem exists_lookup {α β : Type} [BEq α] [LawfulBEq α] {l : List (α × β)} {a : α} {b : β} (h : (a, b) ∈ l) :
    ∃ b', l.lookup a = some b' :=
  Option.isSome_iff_exists.1 (List.lookup_isSome_iff.2 ⟨_, h, beq_self_eq_true a⟩)

section

variable (sub : Substitution) {read : List ReadElement}

theorem exists_global {e : ReadElement} (he : e ∈ read) (hkey : e.pending.key = .named) :
    ∃ d, (elementTables sub read).1.lookup e.pending.declaration.name = some d := by
  refine exists_lookup (List.mem_map.2 ⟨e, List.mem_filter.2 ⟨he, by simpa using hkey⟩, rfl⟩)

theorem exists_local {e : ReadElement} (he : e ∈ read) (hkey : e.pending.key ≠ .named) :
    ∃ d, (elementTables sub read).2.lookup e.pending.key = some d :=
  exists_lookup (List.mem_map.2 ⟨e, List.mem_filter.2 ⟨he, by simpa using hkey⟩, rfl⟩)

/-- What holds of the types that elements have been read with, and of the type of anything, holds of the types that they
are declared with. -/
theorem elementTables_induct {P : TypeDefinition → Prop} (hany : P (.complex .anyType))
    (h : ∀ e ∈ read, ∀ type, e.type = some type → P type) :
    (∀ p ∈ (elementTables sub read).1, P p.2.type) ∧ ∀ p ∈ (elementTables sub read).2, P p.2.type := by
  have hown : ∀ p ∈ read.filterMap (fun e => if e.pending.key = .named then
      e.type.map (e.pending.declaration.name, ·) else none), P p.2 := by
    intro p hp
    obtain ⟨e, he, hp⟩ := List.mem_filterMap.1 hp
    split at hp
    · obtain ⟨type, htype, rfl⟩ := Option.map_eq_some_iff.1 hp
      exact h e he type htype
    · cases hp
  constructor
  · intro p hp
    obtain ⟨e, he, rfl⟩ := List.mem_map.1 hp
    exact inheritedType_induct hany (by simpa using hown) (h e (List.mem_of_mem_filter he))
  · intro p hp
    obtain ⟨e, he, rfl⟩ := List.mem_map.1 hp
    exact inheritedType_induct hany (by simpa using hown) (h e (List.mem_of_mem_filter he))

/-- What holds of the types that elements have been read with, and of the type of anything, holds of the types of all
that a schema declares. -/
theorem declares_induct {P : TypeDefinition → Prop} {schema : Schema} {elements : List PendingElement}
    (helements : schema.elements = elements.filterMap fun e =>
      ((elementTables sub read).1.lookup e.declaration.name).map (e.declaration.name, ·))
    (hlocals : schema.locals = (elementTables sub read).2) (hany : P (.complex .anyType))
    (h : ∀ e ∈ read, ∀ type, e.type = some type → P type) : ∀ d, schema.Declares d → P d.type := by
  obtain ⟨hglobal, hlocal⟩ := elementTables_induct sub hany h
  rintro d (⟨name, hd⟩ | ⟨key, hd⟩)
  · rw [helements] at hd
    obtain ⟨e, _, hd⟩ := List.mem_filterMap.1 hd
    obtain ⟨d, hlookup, hd⟩ := Option.map_eq_some_iff.1 hd
    cases hd
    exact hglobal _ (mem_of_lookup hlookup)
  · rw [hlocals] at hd
    exact hlocal _ hd

end

/-! ### Schemas -/

/-- Every schema that can be read is closed. -/
theorem ofElement_closed {root : Xml.Element} {schema : Schema} (h : ofElement root = .ok schema) : schema.Closed := by
  obtain ⟨_, _, r, order, read, elements, traces, sub, attributes, hr, horder, hread, hsub, _, hschema⟩ :=
    ofElement_eq_ok.1 h
  obtain ⟨hall, hcomplete⟩ := readRegistry_complete horder rfl hread
  have hnamed : ∀ name ∈ r.elements.map (·.declaration.name), schema.Knows name .named := by
    intro name hname
    obtain ⟨p, hp, rfl⟩ := List.mem_map.1 hname
    obtain ⟨e, he, rfl⟩ := hall p hp
    obtain ⟨d, hd⟩ := exists_global sub he ((Registry.ofRoot_distinct hr).named e.pending hp).1
    rw [hschema]
    exact exists_lookup (List.mem_filterMap.2 ⟨e.pending, hp, by rw [hd]; rfl⟩)
  have hlocal : ∀ e ∈ elements, e.pending.key ≠ .named → ∀ name, schema.Knows name e.pending.key := by
    intro e he hkey name
    obtain ⟨d, hd⟩ := exists_local sub he hkey
    rw [hschema]
    exact .of_locals hkey hd
  obtain ⟨hdefinitions, htypes⟩ := hcomplete schema.Knows hnamed hlocal
  have helements := declares_induct sub (P := TypeDefinition.RefersIn schema.Knows)
    (congrArg Schema.elements hschema) (congrArg Schema.locals hschema) ComplexType.refersIn_anyType htypes
  refine ⟨fun head name hname => ?_, helements, fun name type hmem => ?_⟩
  · rw [hschema] at hname
    cases hl : sub.members.lookup head with
    | none => simp [substitutes, hl] at hname
    | some members =>
        refine hnamed name (substitution_ok hsub _ (mem_of_lookup hl) ?_)
        simpa [substitutes, hl] using hname
  · rw [hschema] at hmem
    obtain ⟨d, _, hl, _⟩ := mem_namedTypes.1 hmem
    exact hdefinitions d.key _ hl

end Schema

end XmlSchema
