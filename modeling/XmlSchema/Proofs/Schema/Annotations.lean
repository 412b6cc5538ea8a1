import XmlSchema.Proofs.Schema.DeclarationOrder

/-!
What annotations do to a schema. They declare nothing, and what is declared around them means what it means without
them. But what they quote counts among the references of the definition that they stand in: it has to be readable as a
reference, and it takes part in the search for circles.
-/

namespace XmlSchema

namespace Xml

def Tag.isAnnotation (t : Tag) : Bool := t.name = ⟨Namespace.schema, "annotation"⟩

mutual

/-- What is left of a node when the annotations in it are deleted, and it too if it is one. -/
def Node.bare : Node → List Node
  | .element tag content => if tag.isAnnotation then [] else [.element tag (Node.allBare content)]
  | node => [node]

def Node.allBare : List Node → List Node
  | [] => []
  | node :: later => node.bare ++ Node.allBare later

end

/-- The element without annotations in it. -/
def Element.bare (e : Element) : Element := ⟨e.tag, Node.allBare e.content⟩

theorem Tag.isAnnotation_iff {t : Tag} : t.isAnnotation = true ↔ t.name = ⟨Namespace.schema, "annotation"⟩ :=
  decide_eq_true_iff

theorem Tag.isProper_of_isAnnotation {t : Tag} (h : t.isAnnotation = true) : t.name.isProper = true := by
  rw [Tag.isAnnotation_iff.1 h]
  rfl

theorem Element.children_bare (e : Element) :
    e.bare.children = (e.children.filter fun c => !c.tag.isAnnotation).map bare := by
  obtain ⟨tag, content⟩ := e
  simp only [bare, children]
  induction content with
  | nil => rfl
  | cons node later ih =>
      rw [Node.allBare, List.filterMap_append, ih]
      cases node with
      | element tag content =>
          rw [Node.bare]
          cases h : tag.isAnnotation <;> simp [Node.toElement?, h, bare]
      | _ => simp [Node.bare, List.filterMap_cons, Node.toElement?]

end Xml

namespace Schema

open Xml (Node)

/-! ### What is declared -/

namespace Item

theorem gatherAll_append (place : Nat → List Nat) (g : Gathering) (nodes later : List Node) :
    gatherAll place g (nodes ++ later) = gatherAll place (gatherAll place g nodes) later := by
  induction nodes generalizing g with
  | nil => rfl
  | cons node nodes ih => simp only [List.cons_append, gatherAll, ih]

mutual

theorem gatherAll_bare (place : Nat → List Nat) (g : Gathering) (node : Node) :
    gatherAll place g node.bare = gather place g node := by
  cases node with
  | element tag content =>
      have hinner (path : List Nat) := gatherAll_allBare (· :: path) {} content
      cases h : tag.isAnnotation with
      | true =>
          have hproper := Xml.Tag.isProper_of_isAnnotation h
          rw [Xml.Tag.isAnnotation_iff.1 h] at hproper
          simp [Node.bare, gatherAll, gather, h, hproper, Xml.Tag.isAnnotation_iff.1 h]
      | false => simp [Node.bare, gatherAll, gather, h, hinner]
  | _ => simp [Node.bare, gatherAll]

theorem gatherAll_allBare (place : Nat → List Nat) (g : Gathering) (nodes : List Node) :
    gatherAll place g (Node.allBare nodes) = gatherAll place g nodes := by
  cases nodes with
  | nil => rfl
  | cons node later =>
      rw [Node.allBare, gatherAll_append, gatherAll_bare place g node, gatherAll_allBare place _ later, gatherAll]

end

theorem ofTag_allBare (tag : Xml.Tag) (content : List Node) : ofTag tag (Node.allBare content) = ofTag tag content := by
  rw [ofTag, ofTag, gatherAll_allBare]

end Item

def Definition.bare (d : Definition) : Definition := { d with content := Node.allBare d.content }

namespace Registry

/-- What is registered, without the annotations in the definitions. -/
def bare (r : Registry) : Registry := { r with definitions := r.definitions.map Definition.bare }

variable {r : Registry} {root : Xml.Element}

theorem item?_bare (r : Registry) (key : DefinitionKey) : r.bare.item? key = r.item? key := by
  simp only [item?, bare, List.find?_map, Option.map_map]
  rfl

theorem keys_bare (r : Registry) : r.bare.definitions.map (·.key) = r.definitions.map (·.key) := by
  rw [bare, List.map_map]
  rfl

theorem bare_append (d r : Registry) : (d ++ r).bare = d.bare ++ r.bare :=
  congrArg (Registry.mk · _ _ _) List.map_append

/-- The second step does without annotations what the first one does with them. -/
def Ignores (step step' : Registry → Build Registry) : Prop :=
  ∀ r r' : Registry, step' r.bare = .ok r' ↔ ∃ r₁, step r = .ok r₁ ∧ r' = r₁.bare

namespace Ignores

variable {step step' next next' : Registry → Build Registry}

theorem fails (h : ∀ r r', step r ≠ .ok r') (h' : ∀ r r', step' r ≠ .ok r') : Ignores step step' :=
  fun r r' => ⟨fun hr => absurd hr (h' _ r'), fun ⟨r₁, hr, _⟩ => absurd hr (h r r₁)⟩

theorem ite {c : Prop} [Decidable c] (h : Ignores step step') (h' : Ignores next next') :
    Ignores (fun r => if c then step r else next r) fun r => if c then step' r else next' r := by
  split
  · exact h
  · exact h'

theorem check (h : Ignores step step') {α : Type} (x : Build α) :
    Ignores (fun r => do let r ← step r; let _ ← x; return r) fun r => do let r ← step' r; let _ ← x; return r := by
  intro r r'
  simp only [Build.bind_eq_ok, Build.pure_eq_ok]
  constructor
  · rintro ⟨_, hr, a, ha, rfl⟩
    obtain ⟨r₁, hr₁, rfl⟩ := (h r _).1 hr
    exact ⟨r₁, ⟨r₁, hr₁, a, ha, rfl⟩, rfl⟩
  · rintro ⟨_, ⟨r₁, hr₁, a, ha, rfl⟩, rfl⟩
    exact ⟨_, (h r _).2 ⟨r₁, hr₁, rfl⟩, a, ha, rfl⟩

end Ignores

theorem ignores_define (key : DefinitionKey) (what name : Text) (i : Item) (content : List Node) :
    Ignores (fun r => r.define key what name i content) fun r => r.define key what name i (Node.allBare content) := by
  intro r r'
  have hfresh : (∀ d ∈ r.bare.definitions, d.key ≠ key) ↔ ∀ d ∈ r.definitions, d.key ≠ key :=
    List.forall_mem_map
  simp only [define_eq_ok, hfresh]
  constructor
  · rintro ⟨hnew, rfl⟩
    exact ⟨_, ⟨hnew, rfl⟩, (bare_append { definitions := [⟨key, i, content⟩] } r).symm⟩
  · rintro ⟨_, ⟨hnew, rfl⟩, rfl⟩
    exact ⟨hnew, bare_append { definitions := [⟨key, i, content⟩] } r⟩

theorem ignores_declareElement (name : Name) (rawName : Text) (i : Item) :
    Ignores (fun r => r.declareElement name rawName i) fun r => r.declareElement name rawName i := by
  intro r r'
  simp only [declareElement_eq_ok]
  constructor
  · rintro ⟨hnew, e, he, rfl⟩
    exact ⟨_, ⟨hnew, e, he, rfl⟩, (bare_append { elements := [e] } r).symm⟩
  · rintro ⟨_, ⟨hnew, e, he, rfl⟩, rfl⟩
    exact ⟨hnew, e, he, bare_append { elements := [e] } r⟩

theorem ignores_attribute (name : Name) (i : Item) (fault : SchemaFault) :
    Ignores (fun r => if (r.attributes.lookup name).isSome then i.fail fault
      else return { r with attributes := (name, i) :: r.attributes })
      fun r => if (r.attributes.lookup name).isSome then i.fail fault
        else return { r with attributes := (name, i) :: r.attributes } := by
  intro r r'
  simp only [Build.ite_eq_ok, Item.fail_eq_ok, and_false, false_or, Build.pure_eq_ok]
  constructor
  · rintro ⟨hnew, rfl⟩
    exact ⟨_, ⟨hnew, rfl⟩, rfl⟩
  · rintro ⟨_, ⟨hnew, rfl⟩, rfl⟩
    exact ⟨hnew, rfl⟩

theorem ignores_add (targetNamespace : Text) (i : Item) (content : List Node) :
    Ignores (fun r => r.add targetNamespace i content) fun r => r.add targetNamespace i (Node.allBare content) := by
  unfold add
  refine .ite (fun r r' => ?_) (.ite (fun r r' => ?_) ?_)
  · simp only [Build.pure_eq_ok, exists_eq_left']
    exact eq_comm
  · simp only [Build.pure_eq_ok, exists_eq_left']
    exact eq_comm
  cases i.getFull? "name" with
  | none => exact .fails (fun r r' hr => by simp at hr) fun r r' hr => by simp at hr
  | some rawName =>
      refine .ite (ignores_declareElement _ _ i) (.ite (ignores_attribute _ i _)
        (.ite ((ignores_define _ _ _ i content).check _) (.ite (ignores_define _ _ _ i content)
          (.ite (ignores_define _ _ _ i content) (.ite (ignores_define _ _ _ i content)
            (.fails (fun r r' hr => ?_) fun r r' hr => ?_))))))
      all_goals simp at hr

theorem foldlM_add_bare {targetNamespace : Text} {es : List Xml.Element} {r' : Registry} :
    (es.map Xml.Element.bare).foldlM
        (fun r e => Registry.add targetNamespace r (Item.ofTag e.tag e.content) e.content) r.bare = .ok r' ↔
      ∃ r₁, es.foldlM (fun r e => Registry.add targetNamespace r (Item.ofTag e.tag e.content) e.content) r = .ok r₁ ∧
        r' = r₁.bare := by
  induction es generalizing r with
  | nil =>
      simp only [List.map_nil, List.foldlM_nil, Build.pure_eq_ok, exists_eq_left']
      exact eq_comm
  | cons e es ih =>
      have hadd := ignores_add targetNamespace (Item.ofTag e.tag e.content) e.content
      simp only [List.map_cons, List.foldlM_cons, Build.bind_eq_ok, Xml.Element.bare, Item.ofTag_allBare]
      constructor
      · rintro ⟨r₁, h₁, h⟩
        obtain ⟨r₂, h₂, rfl⟩ := (hadd r r₁).1 h₁
        obtain ⟨r₃, h₃, rfl⟩ := ih.1 h
        exact ⟨r₃, ⟨r₂, h₂, h₃⟩, rfl⟩
      · rintro ⟨r₃, ⟨r₂, h₂, h₃⟩, rfl⟩
        exact ⟨r₂.bare, (hadd r _).2 ⟨r₂, h₂, rfl⟩, ih.2 ⟨r₃, h₃, rfl⟩⟩

theorem filter_explains_bare (es : List Xml.Element) :
    ((es.filter fun c => !c.tag.isAnnotation).map Xml.Element.bare).filter (!explains ·) =
      (es.filter (!explains ·)).map Xml.Element.bare := by
  rw [List.filter_map, List.filter_filter]
  congr 1
  refine List.filter_congr fun e _ => ?_
  cases h : e.tag.isAnnotation with
  | true =>
      have hname : e.name = _ := Xml.Tag.isAnnotation_iff.1 h
      simp [explains, hname, Xml.Element.bare]
  | false => rw [Bool.not_false, Bool.and_true]; rfl

theorem admits_of_isAnnotation {e : Xml.Element} (h : e.tag.isAnnotation = true) : admits e = true := by
  have hproper : e.name.isProper = true := Xml.Tag.isProper_of_isAnnotation h
  have huri : e.name.uri = Namespace.schema := congrArg Name.uri (Xml.Tag.isAnnotation_iff.1 h)
  simp [admits, hproper, huri]

/-- Without annotations the same is registered. -/
theorem ofRoot_bare {r' : Registry} : ofRoot root.bare = .ok r' ↔ ∃ r, ofRoot root = .ok r ∧ r' = r.bare := by
  have hreverse (r : Registry) : r.bare.inOrder = r.inOrder.bare := by
    rw [inOrder, inOrder, bare, bare, List.map_reverse]
  have htag : root.bare.tag = root.tag := rfl
  simp only [ofRoot_eq_ok, Xml.Element.children_bare, filter_explains_bare, htag]
  constructor
  · rintro ⟨hadmits, r₁, hadd, rfl⟩
    obtain ⟨r₂, hadd', rfl⟩ := (foldlM_add_bare (r := {})).1 hadd
    refine ⟨r₂.inOrder, ⟨fun e he => ?_, r₂, hadd', rfl⟩, hreverse r₂⟩
    cases h : e.tag.isAnnotation with
    | true => exact admits_of_isAnnotation h
    | false => exact hadmits e.bare (List.mem_map_of_mem (List.mem_filter.2 ⟨he, by rw [h]; rfl⟩))
  · rintro ⟨_, ⟨hadmits, r₂, hadd, rfl⟩, rfl⟩
    refine ⟨List.forall_mem_map.2 fun e he => hadmits e (List.mem_of_mem_filter he), r₂.bare, ?_, (hreverse r₂).symm⟩
    exact (foldlM_add_bare (r := {})).2 ⟨r₂, hadd, rfl⟩

end Registry

/-! ### What is referred to -/

theorem tagsOfAll_append (seen : List Xml.Tag) (nodes later : List Node) :
    tagsOfAll seen (nodes ++ later) = tagsOfAll (tagsOfAll seen nodes) later := by
  induction nodes generalizing seen with
  | nil => rfl
  | cons node nodes ih => simp only [List.cons_append, tagsOfAll, ih]

mutual

theorem sublist_tagsFrom (seen : List Xml.Tag) (node : Node) : seen.Sublist (tagsFrom seen node) := by
  cases node with
  | element tag content =>
      rw [tagsFrom]
      split
      · exact .refl _
      · exact (sublist_tagsOfAll seen content).cons _
  | _ => exact .refl _

theorem sublist_tagsOfAll (seen : List Xml.Tag) (nodes : List Node) : seen.Sublist (tagsOfAll seen nodes) := by
  cases nodes with
  | nil => exact .refl _
  | cons node later => exact (sublist_tagsFrom seen node).trans (sublist_tagsOfAll _ later)

end

mutual

theorem tagsOfAll_bare {seen seen' : List Xml.Tag} (h : seen.Sublist seen') (node : Node) :
    (tagsOfAll seen node.bare).Sublist (tagsFrom seen' node) := by
  cases node with
  | element tag content =>
      rw [Node.bare]
      cases tag.isAnnotation with
      | true => exact h.trans (sublist_tagsFrom seen' (.element tag content))
      | false =>
          simp only [Bool.false_eq_true, if_false, tagsOfAll, tagsFrom]
          split
          · exact h
          · exact (tagsOfAll_allBare h content).cons_cons tag
  | _ => exact h

theorem tagsOfAll_allBare {seen seen' : List Xml.Tag} (h : seen.Sublist seen') (nodes : List Node) :
    (tagsOfAll seen (Node.allBare nodes)).Sublist (tagsOfAll seen' nodes) := by
  cases nodes with
  | nil => exact h
  | cons node later =>
      rw [Node.allBare, tagsOfAll_append]
      exact tagsOfAll_allBare (tagsOfAll_bare h node) later

end

theorem Build.mapM_sublist {α β : Type} {f : α → Build β} {l l' : List α} (h : l.Sublist l') {found' : List β}
    (hf : l'.mapM f = .ok found') : ∃ found, l.mapM f = .ok found ∧ found.Sublist found' := by
  induction h generalizing found' with
  | slnil => exact ⟨found', hf, .refl _⟩
  | cons a _ ih =>
      simp only [List.mapM_cons, Build.bind_eq_ok, Build.pure_eq_ok] at hf
      obtain ⟨b, _, rest, hrest, rfl⟩ := hf
      obtain ⟨found, hfound, hsub⟩ := ih hrest
      exact ⟨found, hfound, hsub.cons b⟩
  | cons_cons a _ ih =>
      simp only [List.mapM_cons, Build.bind_eq_ok, Build.pure_eq_ok] at hf ⊢
      obtain ⟨b, hb, rest, hrest, rfl⟩ := hf
      obtain ⟨found, hfound, hsub⟩ := ih hrest
      exact ⟨b :: found, ⟨b, hb, found, hfound, rfl⟩, hsub.cons_cons b⟩

/-- Without annotations a definition refers to no more, and all that it refers to can be told if it can with them. -/
theorem exists_references_bare {content : List Node} {refs : List DefinitionKey} (h : references content = .ok refs) :
    ∃ refs', references (Node.allBare content) = .ok refs' ∧ refs' ⊆ refs := by
  rw [references] at h
  obtain ⟨found, hfound, h⟩ := Build.bind_eq_ok.1 h
  cases h
  obtain ⟨found', hfound', hsub⟩ := Build.mapM_sublist (tagsOfAll_allBare (.refl []) content) hfound
  refine ⟨found'.flatten, Build.bind_eq_ok.2 ⟨found', hfound', rfl⟩, fun key hkey => ?_⟩
  obtain ⟨keys, hkeys, hkey⟩ := List.mem_flatten.1 hkey
  exact List.mem_flatten.2 ⟨keys, hsub.subset hkeys, hkey⟩

theorem Registry.IsOrderable.bare {r : Registry} (h : r.IsOrderable) : r.bare.IsOrderable where
  references := List.forall_mem_map.2 fun d hd => by
    obtain ⟨refs, hrefs⟩ := h.references d hd
    obtain ⟨refs', hrefs', _⟩ := exists_references_bare hrefs
    exact ⟨refs', hrefs'⟩
  acyclic key hkey := by
    have hrefers {a b : DefinitionKey} (hab : r.bare.RefersTo a b) : r.RefersTo a b := by
      obtain ⟨_, hmem, hkey, ⟨refs', hrefs', hb⟩, hknown⟩ := hab
      obtain ⟨d, hd, rfl⟩ := List.mem_map.1 hmem
      obtain ⟨refs, hrefs⟩ := h.references d hd
      obtain ⟨refs'', hrefs'', hsub⟩ := exists_references_bare hrefs
      cases hrefs'.symm.trans hrefs''
      exact ⟨d, hd, hkey, ⟨refs, hrefs, hsub hb⟩, r.keys_bare ▸ hknown⟩
    exact h.acyclic key (Relation.TransGen.mono (fun _ _ => hrefers) key key hkey)

/-! ### What is read -/

/-- Two registries with the same items under the same keys. What stands in the definitions beside the items may
differ. -/
structure Registry.SameItems (r r' : Registry) : Prop where
  keys : r'.definitions.map (·.key) = r.definitions.map (·.key)
  item? : ∀ key, r'.item? key = r.item? key
  elements : r'.elements = r.elements
  attributes : r'.attributes = r.attributes
  warnings : r'.warnings = r.warnings

namespace Registry

theorem SameItems.symm {r r' : Registry} (h : r.SameItems r') : r'.SameItems r :=
  ⟨h.keys.symm, fun key => (h.item? key).symm, h.elements.symm, h.attributes.symm, h.warnings.symm⟩

theorem sameItems_bare (r : Registry) : r.SameItems r.bare := ⟨r.keys_bare, r.item?_bare, rfl, rfl, rfl⟩

end Registry

section

variable {r r' : Registry} (h : r.SameItems r')

include h

theorem findDefinition_sameItems (s : Scope) (read : List (DefinitionKey × Component)) (depth : Nat) :
    findDefinition r' s read depth = findDefinition r s read depth := by
  induction depth with
  | zero => rfl
  | succ depth ih =>
      funext opened key
      simp only [findDefinition, h.item?, ih]

theorem scopeOf_sameItems (s : Scope) (read : List (DefinitionKey × Component)) (opened : List DefinitionKey) :
    scopeOf r' s read opened = scopeOf r s read opened := by
  have hlength : r'.definitions.length = r.definitions.length := by
    rw [← List.length_map (·.key), h.keys, List.length_map]
  rw [scopeOf, scopeOf, hlength, findDefinition_sameItems h]

theorem readDefinitions_sameItems (s : Scope) (read : List (DefinitionKey × Component)) (order : List DefinitionKey) :
    readDefinitions r' s read order = readDefinitions r s read order := by
  induction order generalizing read with
  | nil => rfl
  | cons key later ih => simp only [readDefinitions, h.item?, scopeOf_sameItems h, ih]

theorem readRegistry_sameItems (s : Scope) (order : List DefinitionKey) (line : Nat) :
    readRegistry r' s order line = readRegistry r s order line := by
  simp only [readRegistry, readDefinitions_sameItems h, scopeOf_sameItems h, h.attributes, h.elements]

omit h in
theorem namedTypes_eq (r : Registry) (read : List (DefinitionKey × Component)) :
    namedTypes r read = (r.definitions.map (·.key)).filterMap fun key =>
      match read.lookup key with
      | some (.type t) => some (key.name, t)
      | _ => none := by
  rw [namedTypes, List.filterMap_map]
  rfl

theorem namedTypes_sameItems (read : List (DefinitionKey × Component)) : namedTypes r' read = namedTypes r read := by
  rw [namedTypes_eq, namedTypes_eq, h.keys]

end

/-! ### Schemas -/

/-- Two schemas with the same tables. Only attributes that are referred to and elements inside definitions may be
listed in another order. -/
structure SameTables (schema schema' : Schema) : Prop where
  targetNamespace : schema'.targetNamespace = schema.targetNamespace
  elements : schema'.elements = schema.elements
  types : schema'.types = schema.types
  substitutions : schema'.substitutions = schema.substitutions
  warnings : schema'.warnings = schema.warnings
  attributes : ∀ name, schema'.attributes.lookup name = schema.attributes.lookup name
  locals : ∀ key, schema'.locals.lookup key = schema.locals.lookup key

theorem SameTables.symm {schema schema' : Schema} (h : schema.SameTables schema') : schema'.SameTables schema :=
  ⟨h.targetNamespace.symm, h.elements.symm, h.types.symm, h.substitutions.symm, h.warnings.symm,
    fun name => (h.attributes name).symm, fun key => (h.locals key).symm⟩

variable {root root' : Xml.Element} {schema : Schema}

/-- A schema of which the same items are registered comes to the same, if its definitions can be ordered. -/
theorem ofElement_sameItems {r r' : Registry} (htag : root'.tag = root.tag) (hr : Registry.ofRoot root = .ok r)
    (hr' : Registry.ofRoot root' = .ok r') (hsame : r.SameItems r') (ho : r'.IsOrderable)
    (h : ofElement root = .ok schema) : ∃ schema', ofElement root' = .ok schema' ∧ schema.SameTables schema' := by
  have hname : root'.name = root.name := congrArg Xml.Tag.name htag
  obtain ⟨hproper, hschema, r₁, order, read, elements, t, sub, attributes, hr₁, horder, hread, hsub, hattributes,
    rfl⟩ := ofElement_eq_ok.1 h
  cases hr.symm.trans hr₁
  have hdistinct := Registry.ofRoot_distinct hr
  obtain ⟨order', horder'⟩ : ∃ order', r'.order root.tag.line = .ok order' := Registry.exists_order_iff.2 ho
  have hscope : rootScope root' r' = rootScope root r := by
    rw [rootScope, rootScope, htag, hsame.attributes, hsame.elements]
  have hperm' := Registry.order_perm horder' (Registry.ofRoot_distinct hr')
  rw [hsame.keys] at hperm'
  -- the same registry is read in two orders
  obtain ⟨_, _, hdefinitions, _⟩ := readRegistry_ok hread
  have hsettles := readDefinitions_settles (Registry.order_ok horder) hdefinitions
  obtain ⟨read', elements', t', hread', htable, helements, hplaced, hnames⟩ :=
    readRegistry_alike hdistinct (.refl r) (.refl _) (.refl _) (Registry.order_perm horder hdistinct) hperm' hsettles
      hread
  have hlookup : ∀ key, read'.lookup key = read.lookup key := fun key => congrFun htable key
  have hsettles' := htable ▸ hsettles
  have hheads : ∀ name, sub.heads.lookup name = sub.heads.lookup name := fun _ => rfl
  obtain ⟨hglobals, hlocals⟩ := elementTables_sameBy helements hplaced hheads
  have hreferred : ∀ name, name ∈ t'.attributes.reverse.eraseDups ↔ name ∈ t.attributes.reverse.eraseDups := by
    simp [hnames]
  have hscopes : scopeOf r (rootScope root r) read' [] = scopeOf r (rootScope root r) read [] := by
    rw [scopeOf_eq_knowing hsettles, scopeOf_eq_knowing hsettles', htable]
  obtain ⟨attributes', hattributes', hsameAttributes⟩ := mapM_alike (fun _ => .refl _) hreferred hattributes
  rw [← hscopes, ← scopeOf_sameItems hsame] at hattributes'
  rw [← readRegistry_sameItems hsame] at hread'
  rw [← hscope, ← htag] at hread' hattributes'
  rw [← htag] at horder'
  rw [← hsame.elements] at hsub
  refine ⟨_, ofElement_eq_ok.2 ⟨hname ▸ hproper, hname ▸ hschema, r', order', read', elements', t', sub,
    attributes', hr', horder', hread', hsub, hattributes', rfl⟩, by rw [htag], ?_, ?_, rfl, hsame.warnings,
    hsameAttributes, fun key => (hlocals.lookup_eq key).symm⟩
  · simp only [hsame.elements, hglobals.lookup_eq]
  · rw [namedTypes_sameItems hsame]
    simp only [namedTypes, hlookup]

/-- What is read with annotations is read without them, and is the same. -/
theorem ofElement_bare_of_ok (h : ofElement root = .ok schema) :
    ∃ schema', ofElement root.bare = .ok schema' ∧ schema.SameTables schema' := by
  obtain ⟨_, _, r, order, _, _, _, _, _, hr, horder, _⟩ := ofElement_eq_ok.1 h
  have hr' : Registry.ofRoot root.bare = .ok r.bare := Registry.ofRoot_bare.2 ⟨r, hr, rfl⟩
  have ho := Registry.exists_order_iff.1 ⟨order, horder⟩
  have htag : root.bare.tag = root.tag := rfl
  exact ofElement_sameItems htag hr hr' r.sameItems_bare ho.bare h

/-- What is read without annotations is the same with them, if it is read at all. For this, all that is quoted in the
definitions must name definitions as references do, and may not lead from a definition back to itself. -/
theorem ofElement_bare (h : ofElement root.bare = .ok schema) : ∃ r, Registry.ofRoot root = .ok r ∧
    ((∃ schema', ofElement root = .ok schema') ↔ r.IsOrderable) ∧
    ∀ schema', ofElement root = .ok schema' → schema.SameTables schema' := by
  obtain ⟨_, _, r', _, _, _, _, _, _, hr', _⟩ := ofElement_eq_ok.1 h
  obtain ⟨r, hr, rfl⟩ := Registry.ofRoot_bare.1 hr'
  have htag : root.tag = root.bare.tag := rfl
  refine ⟨r, hr, ⟨?_, fun ho => ?_⟩, fun schema' h' => ?_⟩
  · rintro ⟨schema', h'⟩
    obtain ⟨_, _, r₁, order, _, _, _, _, _, hr₁, horder, _⟩ := ofElement_eq_ok.1 h'
    cases hr.symm.trans hr₁
    exact Registry.exists_order_iff.1 ⟨order, horder⟩
  · obtain ⟨schema', h', _⟩ := ofElement_sameItems htag hr' hr r.sameItems_bare.symm ho h
    exact ⟨schema', h'⟩
  · obtain ⟨schema'', h'', hsame⟩ := ofElement_bare_of_ok h'
    cases h.symm.trans h''
    exact hsame.symm

/-- A type of which the annotation quotes how another type might extend `quoted`. -/
def quotingSchema (quoted : Text) : Xml.Element :=
  let node (kind : Text) (attributes : List (Text × Text)) (content : List Xml.Node) : Xml.Node :=
    .element (schemaTag kind attributes) content
  ⟨schemaTag "schema" [], [
    node "complexType" [("name", "note")] [node "annotation" [] [node "documentation" [] [
      node "extension" [("base", quoted)] []]]],
    node "complexType" [("name", "letter")] [],
    node "element" [("name", "note"), ("type", "note")] []]⟩

theorem ofElement_bare_quoting :
    (∃ schema schema', ofElement (quotingSchema "letter").bare = .ok schema ∧
      ofElement (quotingSchema "letter") = .ok schema' ∧ schema.SameTables schema') ∧
    (∃ schema r, ofElement (quotingSchema "note").bare = .ok schema ∧
      Registry.ofRoot (quotingSchema "note") = .ok r ∧ ¬ r.IsOrderable) := by
  have hbare (quoted : Text) : (quotingSchema quoted).bare = (quotingSchema "note").bare := rfl
  have hnames : (ofElement (quotingSchema "note").bare).toOption.map (·.elements.map Prod.fst) =
      some [⟨[], "note"⟩] := by decide +kernel
  have hletter : (ofElement (quotingSchema "letter")).toOption.map (·.elements.map Prod.fst) =
      some [⟨[], "note"⟩] := by decide +kernel
  have hnote : (ofElement (quotingSchema "note")).toOption.map (·.elements.map Prod.fst) = none := by decide +kernel
  obtain ⟨schema, h, _⟩ := Build.exists_of_map_toOption hnames
  obtain ⟨schema', h', _⟩ := Build.exists_of_map_toOption hletter
  obtain ⟨_, _, _, hsame⟩ := ofElement_bare ((hbare "letter").symm ▸ h)
  obtain ⟨r, hr, hiff, _⟩ := ofElement_bare h
  refine ⟨⟨schema, schema', (hbare "letter").symm ▸ h, h', hsame schema' h'⟩, schema, r, h, hr, fun ho => ?_⟩
  obtain ⟨schema'', h''⟩ := hiff.2 ho
  rw [h''] at hnote
  exact nomatch hnote

end Schema

end XmlSchema
