import XmlSchema.Proofs.Schema.Levels
import XmlSchema.Proofs.Schema.Substitution
import XmlSchema.Proofs.Schema.WellFounded

/-!
The order in which the definitions and declarations of a schema stand makes no difference. What is registered is the
same; every definition means the same, whatever has been read before it; and elements of different definitions have
nothing to do with each other.
-/

namespace XmlSchema.Schema

variable {r r' : Registry} {s s' : Scope} {table : DefinitionKey → Option Component}
  {order order' : List DefinitionKey} {line : Nat}

/-! ### All that is registered -/

/-- The elements that are read first: those that are declared, and those that stand in definitions. -/
def pendingElements (r : Registry) (s : Scope) (table : DefinitionKey → Option Component)
    (order : List DefinitionKey) : List PendingElement :=
  r.elements.reverse ++ order.flatMap fun key => (tracesOf r s table key).elements.reverse

/-- All elements that are read. -/
def allElements (r : Registry) (s : Scope) (table : DefinitionKey → Option Component) (order : List DefinitionKey) :
    List PendingElement :=
  levels (s.knowing table) (Item.heightsFrom 0 ((pendingElements r s table order).map (·.item)) + 1)
    (pendingElements r s table order)

/-- Reading all that is registered comes to reading each of it, once it is known what the definitions mean. -/
theorem readRegistry_eq_ok (h : Settles r s table) (horder : ∀ d ∈ r.definitions, d.key ∈ order)
    {read : List (DefinitionKey × Component)} {elements : List ReadElement} {t : Traces} :
    readRegistry r s order line {} = .ok ((read, elements), t) ↔
      (∃ t₁, readDefinitions r s [] order {} = .ok (read, t₁)) ∧
      (∀ a ∈ r.attributes, ∃ d, globalAttribute (s.knowing table) line a.1 = .ok d) ∧
      (∀ p ∈ allElements r s table order, Readable (s.knowing table) p) ∧
      elements = (allElements r s table order).map (fun p => (outcome (s.knowing table) p).1) ∧
      t = ⟨[], (Traces.gather (fun p => (outcome (s.knowing table) p).2) (allElements r s table order)).attributes ++
        (Traces.gather (fun a => ⟨[], [a.1]⟩) r.attributes ++
          Traces.gather (tracesOf r s table) order).attributes⟩ := by
  obtain ⟨read', hread', htable⟩ := h.readDefinitions_all horder
  rw [Traces.foldl_eq_gather, Traces.append_empty] at hread'
  have hattribute (a : Name × Item) (t : Traces) (u : PUnit) (t' : Traces) :
      (do let _ ← globalAttribute (s.knowing table) line a.1
          modify fun t => { t with attributes := a.1 :: t.attributes } : Reading PUnit) t = .ok (u, t') ↔
        (∃ d, globalAttribute (s.knowing table) line a.1 = .ok d) ∧ u = ⟨⟩ ∧
          t' = (⟨[], [a.1]⟩ : Traces) ++ t := by
    simp only [Reading.bind_eq_ok, Reading.lift_eq_ok, Reading.modify_eq_ok]
    constructor
    · rintro ⟨d, _, ⟨hd, rfl⟩, rfl⟩
      exact ⟨⟨d, hd⟩, trivial, rfl⟩
    · rintro ⟨⟨d, hd⟩, _, rfl⟩
      exact ⟨d, t, ⟨hd, rfl⟩, rfl⟩
  have hsettles := readDefinitions_settles horder hread'
  have hscope : scopeOf r s read' [] = s.knowing table := htable ▸ scopeOf_eq_knowing hsettles
  have hpending : r.elements.reverse ++ (Traces.gather (fun a => ⟨[], [a.1]⟩) r.attributes ++
      Traces.gather (tracesOf r s table) order).elements.reverse = pendingElements r s table order := by
    rw [Traces.elements_append, List.reverse_append, Traces.reverse_elements_gather, Traces.reverse_elements_gather,
      pendingElements]
    simp
  simp only [readRegistry, Reading.bind_eq_ok, Reading.pure_eq_ok, Reading.get_eq_ok, Reading.set_eq_ok, hread',
    Except.ok.injEq, Prod.mk.injEq]
  constructor
  · rintro ⟨_, _, ⟨rfl, rfl⟩, _, _, hattributes, _, _, ⟨rfl, rfl⟩, _, _, rfl, _, _, helements, ⟨rfl, rfl⟩, rfl⟩
    rw [hscope] at hattributes helements
    obtain ⟨hdeclared, _, rfl⟩ := (Reading.mapM_eq_ok hattribute).1 hattributes
    rw [hpending] at helements
    obtain ⟨hreadable, rfl, rfl⟩ := (readElements_eq_ok rfl).1 helements
    exact ⟨⟨_, rfl, rfl⟩, hdeclared, hreadable, rfl, rfl⟩
  · rintro ⟨⟨_, rfl, rfl⟩, hattributes, hreadable, rfl, rfl⟩
    have hdeclared := (Reading.mapM_eq_ok hattribute (t := Traces.gather (tracesOf r s table) order)).2
      ⟨hattributes, rfl, rfl⟩
    refine ⟨_, _, ⟨rfl, rfl⟩, _, _, hscope ▸ hdeclared, _, _, ⟨rfl, rfl⟩, ⟨⟩, _, rfl, _, _, ?_, ⟨rfl, rfl⟩, rfl⟩
    rw [hscope, hpending]
    exact (readElements_eq_ok rfl).2 ⟨hreadable, rfl, rfl⟩

/-! ### In another order -/

theorem Scope.Le.knowing (hs : s.Le s') (table : DefinitionKey → Option Component) :
    (s.knowing table).Le (s'.knowing table) :=
  hs.finding fun _ => .refl _

theorem tracesOf_congr (hs : s.Le s') (hs' : s'.Le s) (hi : ∀ key, r'.item? key = r.item? key)
    (table : DefinitionKey → Option Component) (key : DefinitionKey) :
    tracesOf r' s' table key = tracesOf r s table key := by
  rw [tracesOf, tracesOf, hi]
  cases r.item? key with
  | none => rfl
  | some i =>
      have hread (x : Component × Traces) : readDefinition (s'.knowing table) key i {} = .ok x ↔
          readDefinition (s.knowing table) key i {} = .ok x :=
        (readDefinition_le (hs'.knowing table) key i).eq_ok_iff (readDefinition_le (hs.knowing table) key i)
      dsimp only
      cases h : readDefinition (s.knowing table) key i {} with
      | ok x => rw [(hread x).2 h]
      | error e =>
          cases h' : readDefinition (s'.knowing table) key i {} with
          | ok x => cases h.symm.trans ((hread x).1 h')
          | error e' => rfl

theorem tracesOf_leaves (r : Registry) (s : Scope) (table : DefinitionKey → Option Component) (key : DefinitionKey) :
    (tracesOf r s table key).elements = [] ∨ ∃ i, r.item? key = some i ∧ key.kind ≠ .element ∧
      Leaves key i (definitionPaths key i) {} (tracesOf r s table key) := by
  rw [tracesOf]
  cases hi : r.item? key with
  | none => exact .inl rfl
  | some i =>
      dsimp only
      cases h : readDefinition (s.knowing table) key i {} with
      | error e => exact .inl rfl
      | ok x => exact .inr ⟨i, rfl, readDefinition_kind h, readDefinition_leaves h⟩

theorem standsIn_of_mem_tracesOf {key : DefinitionKey} {q : PendingElement}
    (hq : q ∈ (tracesOf r s table key).elements) :
    ∃ i, r.item? key = some i ∧ key.kind ≠ .element ∧ q.StandsIn key i := by
  rcases tracesOf_leaves r s table key with h | ⟨i, hi, hkind, left, he, hleft, _⟩
  · exact absurd hq (h ▸ List.not_mem_nil)
  · exact ⟨i, hi, hkind, hleft q (by simpa [he] using hq)⟩

theorem PendingElement.StandsIn.isPlaced {p : PendingElement} {owner : DefinitionKey} {i : Item}
    (h : p.StandsIn owner i) : p.IsPlaced := by
  rw [IsPlaced, h.owned, h.key]
  rfl

theorem allElements_placed (hr : r.Distinct) : ∀ p ∈ allElements r s table order, p.IsPlaced := by
  refine levels_forall (fun p _ q hq => ?_) (List.forall_mem_append.2 ⟨fun p hp => ?_, fun p hp => ?_⟩)
  · obtain ⟨_, _, hq⟩ := standsIn_of_mem_outcome hq
    exact hq.isPlaced
  · obtain ⟨hk, ho⟩ := hr.named p (List.mem_reverse.1 hp)
    rw [PendingElement.IsPlaced, ho, hk]
    rfl
  · obtain ⟨key, _, hp⟩ := List.mem_flatMap.1 hp
    obtain ⟨_, _, _, hp⟩ := standsIn_of_mem_tracesOf (List.mem_reverse.1 hp)
    exact hp.isPlaced

section

variable (hr : r.Distinct) (halike : r.Alike r') (hs : s.Le s') (hs' : s'.Le s)
  (horder : order.Perm (r.definitions.map (·.key))) (horder' : order'.Perm (r'.definitions.map (·.key)))

include hr halike hs hs' horder horder'

theorem pendingElements_sameBy (table : DefinitionKey → Option Component) :
    SameBy (·.owner) (pendingElements r s table order) (pendingElements r' s' table order') := by
  rw [pendingElements, pendingElements]
  simp only [tracesOf_congr hs hs' (Registry.item?_alike halike hr)]
  have hkeys : SameBy id order order' := by
    refine .of_perm (horder.trans ((halike.definitions.map _).trans horder'.symm)) ?_
    rw [List.map_id]
    exact horder.nodup_iff.2 hr.definitions
  refine SameBy.append ?_ (hkeys.flatMap id fun key _ q hq => ?_)
  · refine .of_perm (((List.reverse_perm _).trans halike.elements).trans (List.reverse_perm _).symm) ?_
    have howners : r.elements.map (·.owner) =
        (r.elements.map (·.declaration.name)).map (DefinitionKey.mk .element) := by
      rw [List.map_map]
      exact List.map_congr_left fun e he => (hr.named e he).2
    rw [List.map_reverse, howners]
    exact List.nodup_reverse.2 (hr.elements.map fun _ _ h => congrArg DefinitionKey.name h)
  · obtain ⟨_, _, _, hq⟩ := standsIn_of_mem_tracesOf (List.mem_reverse.1 hq)
    exact hq.owned.symm

theorem allElements_sameBy (table : DefinitionKey → Option Component) :
    SameBy (·.owner) (allElements r s table order) (allElements r' s' table order') := by
  have hpending := pendingElements_sameBy hr halike hs hs' horder horder' table
  have hheight : Item.heightsFrom 0 ((pendingElements r s table order).map (·.item)) =
      Item.heightsFrom 0 ((pendingElements r' s' table order').map (·.item)) :=
    Nat.le_antisymm (heightsFrom_subset (List.map_subset _ hpending.subset))
      (heightsFrom_subset (List.map_subset _ hpending.symm.subset))
  rw [allElements, allElements, levels_congr (hs.knowing table) (hs'.knowing table), hheight]
  exact levels_sameBy hpending

theorem readRegistry_alike (ht : Settles r s table) {read : List (DefinitionKey × Component)}
    {elements : List ReadElement} {t : Traces} (h : readRegistry r s order line {} = .ok ((read, elements), t)) :
    ∃ read' elements' t', readRegistry r' s' order' line {} = .ok ((read', elements'), t') ∧
      (fun key => read'.lookup key) = table ∧ SameBy (·.pending.owner) elements elements' ∧
      (∀ e ∈ elements, e.pending.IsPlaced) ∧ ∀ name, name ∈ t'.attributes ↔ name ∈ t.attributes := by
  have hitem := Registry.item?_alike halike hr
  have ht' := ht.congr hs hitem
  have hall := allElements_sameBy hr halike hs hs' horder horder' table
  have houtcome := outcome_congr (hs.knowing table) (hs'.knowing table)
  obtain ⟨_, hattributes, hreadable, rfl, rfl⟩ := (readRegistry_eq_ok ht fun d hd =>
    horder.mem_iff.2 (List.mem_map_of_mem hd)).1 h
  have hdefined : ∀ d ∈ r'.definitions, d.key ∈ order' := fun d hd => horder'.mem_iff.2 (List.mem_map_of_mem hd)
  obtain ⟨read', hread', htable⟩ := ht'.readDefinitions_all hdefined
  refine ⟨read', _, _, (readRegistry_eq_ok ht' hdefined).2 ⟨⟨_, hread'⟩, fun a ha => ?_, fun p hp => ?_, rfl, rfl⟩,
    htable, ?_, fun e he => ?_, fun name => ?_⟩
  · obtain ⟨d, hd⟩ := hattributes a (halike.attributes.mem_iff.2 ha)
    exact ⟨d, globalAttribute_le (hs.knowing table) line a.1 d hd⟩
  · exact (houtcome p).2.2 (hreadable p ((hall.mem_iff p).2 hp))
  · simp only [(houtcome _).1]
    exact hall.map id fun p _ => by rw [pending_outcome]; rfl
  · obtain ⟨p, hp, rfl⟩ := List.mem_map.1 he
    rw [pending_outcome]
    exact allElements_placed hr p hp
  · simp only [List.mem_append, Traces.attributes_append, Traces.mem_attributes_gather, (houtcome _).1, hall.mem_iff,
      halike.attributes.mem_iff, tracesOf_congr hs hs' hitem, horder.mem_iff, horder'.mem_iff,
      (halike.definitions.map _).mem_iff]

end

/-! ### Tables -/

theorem inheritedType_congr {types types' : List (Name × TypeDefinition)}
    (h : ∀ name, types'.lookup name = types.lookup name) (heads : List Name) (own : Option TypeDefinition) :
    inheritedType types' heads own = inheritedType types heads own := by
  simp only [inheritedType, h]

def ownTypes (read : List ReadElement) : List (Name × TypeDefinition) :=
  read.filterMap fun e => if e.pending.key = .named then e.type.map (e.pending.declaration.name, ·) else none

section

variable {read read' : List ReadElement} (h : SameBy (·.pending.owner) read read')
  (hplaced : ∀ e ∈ read, e.pending.IsPlaced)

include h hplaced

theorem ownTypes_sameBy : SameBy Prod.fst (ownTypes read) (ownTypes read') := by
  refine h.filterMap (ownerOf · .named) fun e he p hp => ?_
  split at hp
  · next hk =>
      obtain ⟨type, _, rfl⟩ := Option.map_eq_some_iff.1 hp
      rw [hplaced e he, hk]
  · cases hp

theorem elementTables_sameBy {sub sub' : Substitution}
    (hheads : ∀ name, sub'.heads.lookup name = sub.heads.lookup name) :
    SameBy Prod.fst (elementTables sub read).1 (elementTables sub' read').1 ∧
      SameBy Prod.fst (elementTables sub read).2 (elementTables sub' read').2 := by
  have hown := (ownTypes_sameBy h hplaced).symm.lookup_eq
  rw [ownTypes, ownTypes] at hown
  simp only [elementTables, decide_eq_true_eq, hheads, inheritedType_congr hown]
  constructor
  · refine (h.filter _).map (ownerOf · .named) fun e he => ?_
    have hk := (List.mem_filter.1 he).2
    rw [hplaced e (List.mem_of_mem_filter he), of_decide_eq_true hk]
  · refine (h.filter _).map (ownerOf ⟨[], []⟩) fun e he => ?_
    have hk := (List.mem_filter.1 he).2
    rw [hplaced e (List.mem_of_mem_filter he)]
    cases hkey : e.pending.key with
    | named => simp [hkey] at hk
    | inside owner path => rfl

end

theorem Build.exists_mapM_iff {α β : Type} {f : α → Build β} {l : List α} :
    (∃ bs, l.mapM f = .ok bs) ↔ ∀ a ∈ l, ∃ b, f a = .ok b := by
  induction l with
  | nil => simp
  | cons a l ih =>
      simp only [List.mapM_cons, Build.bind_eq_ok, Build.pure_eq_ok, List.forall_mem_cons, ← ih]
      constructor
      · rintro ⟨_, b, hb, bs, hbs, _⟩
        exact ⟨⟨b, hb⟩, bs, hbs⟩
      · rintro ⟨⟨b, hb⟩, bs, hbs⟩
        exact ⟨_, b, hb, bs, hbs, rfl⟩

theorem lookup_mapM {β : Type} {find : Name → Build β} {names : List Name} {found : List (Name × β)}
    (h : (names.mapM fun name => do return (name, ← find name)) = .ok found) (name : Name) (b : β) :
    found.lookup name = some b ↔ name ∈ names ∧ find name = .ok b := by
  induction names generalizing found with
  | nil =>
      cases h
      simp
  | cons other names ih =>
      simp only [List.mapM_cons, Build.bind_eq_ok, Build.pure_eq_ok] at h
      obtain ⟨_, ⟨c, hc, rfl⟩, found, hfound, rfl⟩ := h
      rw [List.lookup_cons, List.mem_cons]
      by_cases hname : name = other
      · subst hname
        simp [hc]
      · simpa [beq_false_of_ne hname, hname] using ih hfound

/-- The names may come in another order, and more than once, if the same is found for them. -/
theorem mapM_alike {β : Type} {find find' : Name → Build β} (hfind : ∀ name, Build.Le (find name) (find' name))
    {names names' : List Name} (hnames : ∀ name, name ∈ names' ↔ name ∈ names) {found : List (Name × β)}
    (h : (names.mapM fun name => do return (name, ← find name)) = .ok found) :
    ∃ found', (names'.mapM fun name => do return (name, ← find' name)) = .ok found' ∧
      ∀ name, found'.lookup name = found.lookup name := by
  have hall : ∀ name ∈ names, ∃ b, find name = .ok b := by
    intro name hname
    obtain ⟨p, hp⟩ := Build.exists_mapM_iff.1 ⟨found, h⟩ name hname
    obtain ⟨b, hb, _⟩ := Build.bind_eq_ok.1 hp
    exact ⟨b, hb⟩
  obtain ⟨found', h'⟩ := Build.exists_mapM_iff (f := fun name => do return (name, ← find' name)).2 fun name hname => by
    obtain ⟨b, hb⟩ := hall name ((hnames name).1 hname)
    exact ⟨(name, b), Build.bind_eq_ok.2 ⟨b, hfind name b hb, rfl⟩⟩
  refine ⟨found', h', fun name => Option.ext fun b => ?_⟩
  rw [lookup_mapM h', lookup_mapM h, hnames]
  refine and_congr_right fun hname => ?_
  obtain ⟨c, hc⟩ := hall name hname
  rw [hc, hfind name c hc]

/-! ### Schemas -/

/-- Two schemas hold the same components, though perhaps in another order. -/
structure SameComponents (schema schema' : Schema) : Prop where
  targetNamespace : schema'.targetNamespace = schema.targetNamespace
  elements : ∀ name, schema'.element? name = schema.element? name
  types : ∀ name, schema'.types.lookup name = schema.types.lookup name
  attributes : ∀ name, schema'.attributes.lookup name = schema.attributes.lookup name
  substitutes : ∀ name, (schema'.substitutes name).Perm (schema.substitutes name)
  locals : ∀ key, schema'.locals.lookup key = schema.locals.lookup key
  warnings : schema'.warnings.Perm schema.warnings

variable {root root' : Xml.Element} {schema : Schema}

theorem rootScope_le (htag : root'.tag = root.tag) (h : r.Alike r') (hr : r.Distinct) :
    (rootScope root r).Le (rootScope root' r') where
  targetNamespace := by rw [rootScope, rootScope, htag]
  elementsQualified := by simp only [rootScope, htag]
  attributesQualified := by simp only [rootScope, htag]
  definition? := fun _ => .refl _
  attributes := Registry.lookup_attributes_alike h hr
  elements := fun _ => (h.elements.map _).mem_iff.symm

/-- Every order of what stands at the top of a schema is as good as any other one. -/
theorem ofElement_perm (htag : root'.tag = root.tag) (hperm : root.children.Perm root'.children)
    (h : ofElement root = .ok schema) : ∃ schema', ofElement root' = .ok schema' ∧ schema.SameComponents schema' := by
  have hname : root'.name = root.name := congrArg Xml.Tag.name htag
  obtain ⟨hproper, hschema, r, order, read, elements, t, sub, attributes, hr, horder, hread, hsub, hattributes, rfl⟩ :=
    ofElement_eq_ok.1 h
  obtain ⟨r', hr', halike⟩ := Registry.ofRoot_perm htag hperm hr
  have hdistinct := Registry.ofRoot_distinct hr
  have hdistinct' := hdistinct.congr halike
  have hs := rootScope_le htag halike hdistinct
  have hs' := rootScope_le htag.symm halike.symm hdistinct'
  obtain ⟨order', horder'⟩ : ∃ order', r'.order root.tag.line = .ok order' := Registry.order_alike halike horder
  -- what the definitions mean does not depend on the order, so the table of the one serves for the other
  obtain ⟨_, _, hdefinitions, _⟩ := readRegistry_ok hread
  have hsettles := readDefinitions_settles (Registry.order_ok horder) hdefinitions
  obtain ⟨read', elements', t', hread', htable, helements, hplaced, hnames⟩ :=
    readRegistry_alike hdistinct halike hs hs' (Registry.order_perm horder hdistinct)
      (Registry.order_perm horder' hdistinct') hsettles hread
  have hsettles' := hsettles.congr hs (Registry.item?_alike halike hdistinct)
  rw [← htable] at hsettles'
  obtain ⟨sub', hsub', hheads, hmembers⟩ := substitution_perm halike.elements hdistinct.elements hsub
  obtain ⟨hglobals, hlocals⟩ := elementTables_sameBy helements hplaced hheads
  have hreferred : ∀ name, name ∈ t'.attributes.reverse.eraseDups ↔ name ∈ t.attributes.reverse.eraseDups := by
    simp [hnames]
  rw [scopeOf_eq_knowing hsettles, ← htable] at hattributes
  obtain ⟨attributes', hattributes', hlookup⟩ := mapM_alike (globalAttribute_le (hs.knowing _) root.tag.line) hreferred
    hattributes
  rw [← scopeOf_eq_knowing hsettles'] at hattributes'
  rw [← htag] at horder' hread' hattributes'
  have hbuilt := ofElement_eq_ok.2 ⟨hname ▸ hproper, hname ▸ hschema, r', order', read', elements', t', sub',
    attributes', hr', horder', hread', hsub', hattributes', rfl⟩
  refine ⟨_, hbuilt, by rw [htag], fun name => ?_, fun name => ?_, hlookup, hmembers,
    fun key => (hlocals.lookup_eq key).symm, halike.warnings.symm⟩
  · simp only [element?, ← hglobals.lookup_eq]
    refine ((SameBy.of_perm halike.elements hdistinct.elements).filterMap id fun e _ p hp => ?_).symm.lookup_eq name
    obtain ⟨d, _, rfl⟩ := Option.map_eq_some_iff.1 hp
    rfl
  · simp only [lookup_namedTypes hsettles, lookup_namedTypes hsettles', htable]

/-- Letters have pages, of which a cover is one without telling so. -/
def letterSchema : Xml.Element :=
  let node (kind : Text) (attributes : List (Text × Text)) (content : List Xml.Node) : Xml.Node :=
    .element (schemaTag kind attributes) content
  ⟨schemaTag "schema" [], [
    node "element" [("name", "letter"), ("type", "pages")] [],
    node "element" [("name", "cover"), ("substitutionGroup", "page")] [],
    node "element" [("name", "page"), ("type", "words")] [],
    node "complexType" [("name", "pages")] [node "sequence" [] [node "element" [("ref", "page")] []],
      node "attribute" [("ref", "stamp")] []],
    node "simpleType" [("name", "words")] [node "list" [("itemType", "xs:string")] []],
    node "attribute" [("name", "stamp"), ("type", "xs:int")] []]⟩

theorem ofElement_perm_letter : ∃ schema schema', ofElement letterSchema = .ok schema ∧
    ofElement ⟨letterSchema.tag, letterSchema.content.reverse⟩ = .ok schema' ∧
    schema.elements.map Prod.fst = [⟨[], "letter"⟩, ⟨[], "cover"⟩, ⟨[], "page"⟩] ∧
    schema'.elements.map Prod.fst = [⟨[], "page"⟩, ⟨[], "cover"⟩, ⟨[], "letter"⟩] ∧ schema.SameComponents schema' := by
  have hnames : (ofElement letterSchema).toOption.map (·.elements.map Prod.fst) =
      some [⟨[], "letter"⟩, ⟨[], "cover"⟩, ⟨[], "page"⟩] := by decide +kernel
  have hnames' : (ofElement ⟨letterSchema.tag, letterSchema.content.reverse⟩).toOption.map (·.elements.map Prod.fst) =
      some [⟨[], "page"⟩, ⟨[], "cover"⟩, ⟨[], "letter"⟩] := by decide +kernel
  obtain ⟨schema, h, hnames⟩ := Build.exists_of_map_toOption hnames
  obtain ⟨schema', h', hnames'⟩ := Build.exists_of_map_toOption hnames'
  have hperm (root : Xml.Element) : root.children.Perm (Xml.Element.mk root.tag root.content.reverse).children :=
    (List.reverse_perm root.content).symm.filterMap Xml.Node.toElement?
  have htag (root : Xml.Element) : (Xml.Element.mk root.tag root.content.reverse).tag = root.tag := rfl
  obtain ⟨schema'', h'', hsame⟩ := ofElement_perm (htag letterSchema) (hperm letterSchema) h
  cases h'.symm.trans h''
  exact ⟨schema, schema', h, h', hnames, hnames', hsame⟩

end XmlSchema.Schema
