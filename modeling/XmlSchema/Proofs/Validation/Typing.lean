import XmlSchema.Proofs.Schema.Inheritance
import XmlSchema.Proofs.Validation.Coverage

/-!
Every element has a type. Whatever element of a schema can be reached is declared, and its declaration has been filled:
with a type of its own or with that of a head. So has the declaration of every element that is checked.
-/

namespace XmlSchema

/-- The content of a type refers to an element. -/
def TypeDefinition.Refers (type : TypeDefinition) (name : Name) (key : ElementKey) : Prop :=
  ∃ t p occurs, type = .complex t ∧ t.content.model? = some p ∧ .element name key occurs ∈ p.parts

namespace Schema

/-- The elements that can be reached in a schema: global ones, those that may stand for others, and those to which named
types refer, or the types of elements that can be reached. -/
inductive Reaches (s : Schema) : Name → ElementKey → Prop
  | global {name : Name} {d : ElementDeclaration} (h : (name, d) ∈ s.elements) : Reaches s name .named
  | substitute {head name : Name} (h : name ∈ s.substitutes head) : Reaches s name .named
  | named {typeName name : Name} {type : TypeDefinition} {key : ElementKey} (h : (typeName, type) ∈ s.types)
      (hr : type.Refers name key) : Reaches s name key
  | inside {name name' : Name} {key key' : ElementKey} {d : ElementDeclaration} (h : Reaches s name key)
      (hd : s.declaration? name key = some d) (hr : d.type.Refers name' key') : Reaches s name' key'

theorem Closed.knows_of_refers {s : Schema} {type : TypeDefinition} (h : type.RefersIn s.Knows) {name : Name}
    {key : ElementKey} (hr : type.Refers name key) : s.Knows name key := by
  obtain ⟨t, p, occurs, rfl, hp, hmem⟩ := hr
  exact h p hp name key occurs hmem

/-- What can be reached in a closed schema is declared. -/
theorem Closed.knows {s : Schema} (hs : s.Closed) {name : Name} {key : ElementKey} (h : s.Reaches name key) :
    s.Knows name key := by
  induction h with
  | global h => exact exists_lookup h
  | substitute h => exact hs.substitutes _ _ h
  | named h hr => exact knows_of_refers (hs.types _ _ h) hr
  | inside _ hd hr _ => exact knows_of_refers (hs.elements _ (.of_declaration? hd)) hr

end Schema

namespace Validation

open Schema

/-- How the elements of a schema have come by their types. All that wait have been filled one after the other, with
those that this leaves behind, and no place has come twice; each of them is the element at its place. What can be
reached is declared, and what is declared or checked is one of these elements, with a type of its own or of its head. -/
structure Filling (root : Xml.Element) (schema : Schema) (r : Registry) (read : List ReadElement) : Prop where
  registered : Registry.ofRoot root = .ok r
  drained : ∃ order definitions traces, r.order root.tag.line = .ok order ∧
    readRegistry r (rootScope root r) order root.tag.line {} = .ok ((definitions, read), traces) ∧
    Drains ((rootScope root r).knowing fun key => definitions.lookup key)
      (pendingElements r (rootScope root r) (fun key => definitions.lookup key) order) read
  once : (read.map (·.pending.place)).Nodup
  placed : ∀ e ∈ read, ∃ i, r.top? e.pending.owner = some i ∧ i.at? e.pending.item.path.reverse = some e.pending.item
  reached : ∀ name key, schema.Reaches name key → ∃ d, schema.declaration? name key = some d
  typed : ∀ name key d, schema.declaration? name key = some d → ∃ e ∈ read, e.pending.key = key ∧ e.Becomes read d
  checked : ∀ s : Settings, s.schema = schema → ∀ document v, .visit v ∈ steps s document →
    ∃ e ∈ read, e.Becomes read v.declaration

theorem declares_of_mem_steps {s : Settings} {document : Xml.Element} {v : Visit} (hv : .visit v ∈ steps s document) :
    s.schema.Declares v.declaration := by
  rw [steps] at hv
  cases hd : s.schema.element? document.name with
  | none => simp [hd] at hv
  | some d =>
      rw [hd] at hv
      exact Visit.forall_visit_mem_steps (v := ⟨document, d, rootPath document.name, 1⟩)
        (fun _ _ _ => declares_of_checks) (.of_element? hd) v hv

/-- The declarations of a schema are the elements that have been read. -/
theorem becomes_of_tables {r : Registry} {read : List ReadElement} {sub : Substitution} {schema : Schema}
    (h : r.ReadAs read) (hr : r.Distinct) (hsub : substitution r.elements = .ok sub)
    (helements : schema.elements = r.elements.filterMap fun e =>
      ((elementTables sub read).1.lookup e.declaration.name).map (e.declaration.name, ·))
    (hlocals : schema.locals = (elementTables sub read).2) :
    (∀ p ∈ schema.elements, ∃ e ∈ read, e.pending.key = .named ∧ e.Becomes read p.2) ∧
      ∀ p ∈ schema.locals, ∃ e ∈ read, e.pending.key = p.1 ∧ e.Becomes read p.2 := by
  obtain ⟨hglobal, hlocal⟩ := h.elementTables_becomes hr hsub
  refine ⟨fun p hp => ?_, hlocals ▸ hlocal⟩
  rw [helements] at hp
  obtain ⟨e, _, hp⟩ := List.mem_filterMap.1 hp
  obtain ⟨d, hd, rfl⟩ := Option.map_eq_some_iff.1 hp
  obtain ⟨e, he, hk, _, hbecomes⟩ := hglobal _ (mem_of_lookup hd)
  exact ⟨e, he, hk, hbecomes⟩

/-- Every element has a type, however deep it stands and however many of its heads tell none; and filling the elements
ends, with none filled twice. -/
theorem ofElement_filling {root : Xml.Element} {schema : Schema} (h : ofElement root = .ok schema) :
    ∃ r read, Filling root schema r read := by
  obtain ⟨_, _, r, order, definitions, read, traces, sub, attributes, hr, horder, hread, hsub, _, hschema⟩ :=
    ofElement_eq_ok.1 h
  have houtermost := Registry.ofRoot_outermost hr
  have hdistinct := houtermost.toDistinct
  obtain ⟨_, _, hdefinitions, _⟩ := readRegistry_ok hread
  have hsettles := readDefinitions_settles (Registry.order_ok horder) hdefinitions
  have hnodup : order.Nodup := (Registry.order_perm horder hdistinct).nodup_iff.2 hdistinct.definitions
  obtain ⟨_, _, hreadable, hall, _⟩ := (readRegistry_eq_ok hsettles (Registry.order_ok horder)).1 hread
  have hreadAs : r.ReadAs read := hall ▸ allElements_readAs houtermost hreadable
  have hclosed := ofElement_closed h
  have helements : schema.elements = r.elements.filterMap fun e =>
      ((elementTables sub read).1.lookup e.declaration.name).map (e.declaration.name, ·) := by rw [hschema]
  obtain ⟨hglobal, hlocal⟩ := becomes_of_tables hreadAs hdistinct hsub helements (by rw [hschema])
  refine ⟨r, read, hr, ⟨order, definitions, traces, horder, hread, ?_⟩, ?_, fun e he => ?_,
    fun name key => hclosed.knows, fun name key d hd => ?_, ?_⟩
  · rw [hall]
    exact drains_allElements hreadable
  · rw [hall, List.map_map]
    simp only [Function.comp_def, pending_outcome]
    exact allElements_places_nodup houtermost hnodup
  · exact (hreadAs.listed e he).at?_eq houtermost
  · cases key with
    | named => exact hglobal _ (mem_of_lookup hd)
    | inside owner path => exact hlocal _ (mem_of_lookup hd)
  · rintro s rfl document v hv
    rcases declares_of_mem_steps hv with ⟨name, hd⟩ | ⟨key, hd⟩
    · obtain ⟨e, he, _, hbecomes⟩ := hglobal _ hd
      exact ⟨e, he, hbecomes⟩
    · obtain ⟨e, he, _, hbecomes⟩ := hlocal _ hd
      exact ⟨e, he, hbecomes⟩

theorem ofElement_filling_letter : ∃ schema r read, ofElement letterSchema = .ok schema ∧
    (schema.element? ⟨[], "cover"⟩).bind (·.type.name?) = some ⟨[], "words"⟩ ∧
    Filling letterSchema schema r read := by
  have hcover : (ofElement letterSchema).toOption.map (fun s => (s.element? ⟨[], "cover"⟩).bind (·.type.name?)) =
      some (some ⟨[], "words"⟩) := by decide +kernel
  obtain ⟨schema, h, hcover⟩ := Build.exists_of_map_toOption hcover
  obtain ⟨r, read, hfilling⟩ := ofElement_filling h
  exact ⟨schema, r, read, h, hcover, hfilling⟩

end Validation

end XmlSchema
