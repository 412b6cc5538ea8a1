import Mathlib.Logic.Relation
import XmlSchema.Proofs.Outcome
import XmlSchema.Proofs.Schema.ValueConstraints

/-!
Substitution groups. Linking the elements to their heads fails exactly if some head is not declared or some chain of
heads comes back to itself; else what may stand for a head are the elements from which heads lead to it, each once.
-/

namespace XmlSchema.Schema

open Relation

/-- The element of a name tells another as its head. -/
def NamesHead (elements : List PendingElement) (member head : Name) : Prop :=
  ∃ p ∈ elements, p.declaration.name = member ∧ p.declaration.head = some head

/-! ### The heads of one element -/

section

variable {f : Name → Option Name} {count : Nat} {seen heads : List Name} {head : Option Name}

/-- The heads that are told are all those that can be reached, each once, and none of them has been seen before. -/
theorem headsFrom_exact (h : headsFrom f count seen head = some heads) :
    (∀ n, n ∈ heads ↔ ∃ first, head = some first ∧ ReflTransGen (fun a b => f a = some b) first n) ∧
      heads.Nodup ∧ ∀ n ∈ seen, n ∉ heads := by
  induction count generalizing seen head heads with
  | zero =>
      cases head with
      | none =>
          cases h
          simp
      | some first => cases h
  | succ count ih =>
      cases head with
      | none =>
          cases h
          simp
      | some first =>
          rw [headsFrom] at h
          split at h
          · cases h
          next hfirst =>
          obtain ⟨later, hlater, rfl⟩ := Option.map_eq_some_iff.1 h
          obtain ⟨hmem, hnodup, hseen⟩ := ih hlater
          obtain ⟨hself, hseen⟩ := List.forall_mem_cons.1 hseen
          refine ⟨fun n => ?_, List.nodup_cons.2 ⟨hself, hnodup⟩, fun n hn => ?_⟩
          · rw [List.mem_cons, hmem]
            constructor
            · rintro (rfl | ⟨second, hsecond, hn⟩)
              · exact ⟨n, rfl, .refl⟩
              · exact ⟨first, rfl, .head hsecond hn⟩
            · rintro ⟨_, ⟨⟩, hn⟩
              rcases hn.cases_head with rfl | ⟨second, hsecond, hn⟩
              · exact .inl rfl
              · exact .inr ⟨second, hsecond, hn⟩
          · rw [List.mem_cons, not_or]
            refine ⟨?_, hseen n hn⟩
            rintro rfl
            exact hfirst (List.contains_iff_mem.2 hn)

/-- If heads cannot be told, some head that can be reached comes back to itself: as many are followed as there are. -/
theorem exists_cycle_of_headsFrom {names : List Name} (hf : ∀ a b, f a = some b → a ∈ names) (hnodup : seen.Nodup)
    (hsub : seen ⊆ names) (hcount : names.length < count + seen.length)
    (hseen : ∀ n ∈ seen, ∀ first, head = some first → TransGen (fun a b => f a = some b) n first)
    (h : headsFrom f count seen head = none) :
    ∃ first c, head = some first ∧ ReflTransGen (fun a b => f a = some b) first c ∧
      TransGen (fun a b => f a = some b) c c := by
  -- every name that has been seen leads to the head that is looked at, and each is one of the names
  induction count generalizing seen head with
  | zero =>
      have := (hnodup.subperm hsub).length_le
      omega
  | succ count ih =>
      cases head with
      | none => cases h
      | some first =>
          rw [headsFrom] at h
          split at h
          · next hfirst => exact ⟨first, first, rfl, .refl, hseen first (List.contains_iff_mem.1 hfirst) first rfl⟩
          next hfirst =>
          have hnew : first ∉ seen := fun hmem => hfirst (List.contains_iff_mem.2 hmem)
          rw [Option.map_eq_none_iff] at h
          cases hnext : f first with
          | none =>
              rw [hnext] at h
              cases count <;> cases h
          | some second =>
              rw [hnext] at h
              obtain ⟨_, c, ⟨⟩, hc, hcycle⟩ := ih (List.nodup_cons.2 ⟨hnew, hnodup⟩)
                (List.cons_subset.2 ⟨hf first second hnext, hsub⟩) (by rw [List.length_cons]; omega)
                (List.forall_mem_cons.2 ⟨fun n hn => .single (hnext.trans hn),
                  fun n hn m hm => (hseen n hn first rfl).tail (hnext.trans hm)⟩) h
              exact ⟨first, c, rfl, .head hnext hc, hcycle⟩

end

/-! ### All elements -/

variable {elements : List PendingElement}

theorem flatMap_heads {heads : PendingElement → List Name} {head : Name} {l : List PendingElement}
    (hl : ∀ p ∈ l, (heads p).Nodup) :
    (l.flatMap fun p => ((heads p).filter fun n => n = head).map fun _ => p.declaration.name) =
      (l.filter fun p => head ∈ heads p).map (·.declaration.name) := by
  induction l with
  | nil => rfl
  | cons p l ih =>
      obtain ⟨hp, hl⟩ := List.forall_mem_cons.1 hl
      rw [List.flatMap_cons, ih hl, List.filter_cons, List.filter_eq, List.map_replicate]
      by_cases hmem : head ∈ heads p
      · rw [List.count_eq_one_of_mem hp hmem, if_pos (decide_eq_true hmem)]
        rfl
      · rw [List.count_eq_zero_of_not_mem hmem, if_neg (by simpa using hmem)]
        rfl

section

variable (hnames : (elements.map (·.declaration.name)).Nodup)
include hnames

theorem headOf_eq_some_iff {member head : Name} :
    headOf elements member = some head ↔ NamesHead elements member head := by
  rw [headOf, Option.join_eq_some_iff]
  constructor
  · intro h
    obtain ⟨p, hp, heq⟩ := List.mem_map.1 (mem_of_lookup h)
    obtain ⟨hname, hhead⟩ := Prod.mk.inj heq
    exact ⟨p, hp, hname, hhead⟩
  · rintro ⟨p, hp, rfl, hhead⟩
    refine lookup_of_mem ?_ (List.mem_map.2 ⟨p, hp, by rw [hhead]⟩)
    rwa [List.map_map]

theorem headOf_eq_namesHead : (fun a b => headOf elements a = some b) = NamesHead elements :=
  funext fun _ => funext fun _ => propext (headOf_eq_some_iff hnames)

theorem namesHead_of_mem {p : PendingElement} (hp : p ∈ elements) {head : Name} :
    NamesHead elements p.declaration.name head ↔ p.declaration.head = some head := by
  constructor
  · rintro ⟨q, hq, hname, hhead⟩
    rwa [← List.inj_on_of_nodup_map hnames hq hp hname]
  · exact fun h => ⟨p, hp, rfl, h⟩

theorem mem_headsOf {p : PendingElement} (hp : p ∈ elements) {heads : List Name} (h : headsOf elements p = some heads) :
    (∀ n, n ∈ heads ↔ TransGen (NamesHead elements) p.declaration.name n) ∧ heads.Nodup ∧
      p.declaration.name ∉ heads := by
  obtain ⟨hmem, hnodup, hseen⟩ := headsFrom_exact h
  refine ⟨fun n => ?_, hnodup, hseen _ List.mem_cons_self⟩
  rw [hmem, headOf_eq_namesHead hnames, TransGen.head'_iff]
  exact exists_congr fun first => and_congr_left fun _ => (namesHead_of_mem hnames hp).symm

theorem exists_cycle_of_headsOf {p : PendingElement} (hp : p ∈ elements) (h : headsOf elements p = none) :
    ∃ c, TransGen (NamesHead elements) p.declaration.name c ∧ TransGen (NamesHead elements) c c := by
  have hf (a b : Name) (hab : headOf elements a = some b) : a ∈ elements.map (·.declaration.name) := by
    obtain ⟨q, hq, rfl, _⟩ := (headOf_eq_some_iff hnames).1 hab
    exact List.mem_map_of_mem hq
  have hfirst (first : Name) (hhead : p.declaration.head = some first) :
      headOf elements p.declaration.name = some first := (headOf_eq_some_iff hnames).2 ⟨p, hp, rfl, hhead⟩
  obtain ⟨first, c, hhead, hc, hcycle⟩ := exists_cycle_of_headsFrom hf (List.nodup_singleton _)
    (List.cons_subset.2 ⟨List.mem_map_of_mem hp, List.nil_subset _⟩) (by simp)
    (List.forall_mem_singleton.2 fun first hhead => .single (hfirst first hhead)) h
  rw [headOf_eq_namesHead hnames] at hc hcycle
  exact ⟨c, .head' ⟨p, hp, rfl, hhead⟩ hc, hcycle⟩

/-- Linking succeeds exactly if every head is declared and no head comes back to itself. -/
theorem exists_substitution_iff : (∃ sub, substitution elements = .ok sub) ↔
    (∀ member head, NamesHead elements member head → head ∈ elements.map (·.declaration.name)) ∧
      ∀ name, ¬ TransGen (NamesHead elements) name name := by
  constructor
  · rintro ⟨sub, h⟩
    obtain ⟨hdeclared, hends, _⟩ := substitution_eq_ok.1 h
    refine ⟨?_, fun name hcycle => ?_⟩
    · rintro member head ⟨p, hp, _, hhead⟩
      exact hdeclared p hp head hhead
    · obtain ⟨_, ⟨p, hp, rfl, _⟩, _⟩ := TransGen.head'_iff.1 hcycle
      obtain ⟨heads, hheads⟩ := Option.isSome_iff_exists.1 (hends p hp)
      obtain ⟨hmem, _, hself⟩ := mem_headsOf hnames hp hheads
      exact hself ((hmem _).2 hcycle)
  · rintro ⟨hdeclared, hacyclic⟩
    refine ⟨_, substitution_eq_ok.2 ⟨fun p hp head hhead => hdeclared _ head ⟨p, hp, rfl, hhead⟩, fun p hp => ?_, rfl⟩⟩
    by_contra hnone
    obtain ⟨c, _, hcycle⟩ := exists_cycle_of_headsOf hnames hp (Option.not_isSome_iff_eq_none.1 hnone)
    exact hacyclic c hcycle

/-- What may stand for a head are the elements from which heads lead to it, each once, in the order of declaration. -/
theorem members_exact {sub : Substitution} (h : substitution elements = .ok sub) (head : Name) :
    ((sub.members.lookup head).getD []).Sublist (elements.map (·.declaration.name)) ∧
      ∀ member, member ∈ (sub.members.lookup head).getD [] ↔ TransGen (NamesHead elements) member head := by
  obtain ⟨_, hends, rfl⟩ := substitution_eq_ok.1 h
  have hheads (p : PendingElement) (hp : p ∈ elements) : headsOf elements p = some ((headsOf elements p).getD []) := by
    obtain ⟨heads, hheads⟩ := Option.isSome_iff_exists.1 (hends p hp)
    rw [hheads, Option.getD_some]
  rw [lookup_foldl_members, flatMap_heads fun p hp => (mem_headsOf hnames hp (hheads p hp)).2.1]
  refine ⟨List.filter_sublist.map _, fun member => ?_⟩
  change member ∈ List.map _ _ ↔ _
  simp only [List.mem_map, List.mem_filter, decide_eq_true_eq]
  constructor
  · rintro ⟨p, ⟨hp, hhead⟩, rfl⟩
    exact ((mem_headsOf hnames hp (hheads p hp)).1 head).1 hhead
  · intro hlead
    obtain ⟨_, ⟨p, hp, rfl, _⟩, _⟩ := TransGen.head'_iff.1 hlead
    exact ⟨p, ⟨hp, ((mem_headsOf hnames hp (hheads p hp)).1 head).2 hlead⟩, rfl⟩

end

/-- What goes wrong is that a head is not declared or that heads come back, told at the element that it is found at. -/
inductive LinkFault (elements : List PendingElement) : SchemaError → Prop
  | unknown (p : PendingElement) (hp : p ∈ elements) (head : Name) (hhead : p.declaration.head = some head)
      (hunknown : head ∉ elements.map (·.declaration.name)) :
      LinkFault elements (.malformed p.item.line (.unknownHead head.localPart))
  | circular (p : PendingElement) (hp : p ∈ elements) (c : Name)
      (hc : TransGen (NamesHead elements) p.declaration.name c) (hcycle : TransGen (NamesHead elements) c c) :
      LinkFault elements (.malformed p.item.line (.circularSubstitution p.declaration.name.localPart))

theorem substitution_ends_faulty (hnames : (elements.map (·.declaration.name)).Nodup) :
    Ends (fun _ => True) (LinkFault elements) (substitution elements) := by
  rw [substitution]
  refine Ends.bind (P := fun _ => True) (.forIn fun p hp => ?_) fun _ _ => .foldlM trivial fun found _ p hp => ?_
  · split
    · next head hhead =>
        refine .guard (fun hunknown => .error (.unknown p hp head hhead ?_)) fun _ => .ok rfl
        simpa using hunknown
    · exact .ok rfl
  · dsimp only
    split
    · next hnone =>
        obtain ⟨c, hc, hcycle⟩ := exists_cycle_of_headsOf hnames hp hnone
        exact .error (.circular p hp c hc hcycle)
    · exact .ok trivial

/-! ### Types -/

section

variable {r : Registry} {read : List ReadElement}

/-- The type of an element that tells none is that of the nearest head that tells one. -/
theorem Typed.exists_nearest {e : ReadElement} {type : TypeDefinition} (h : Typed read e type) (hnone : e.type = none) :
    ∃ between head, List.IsChain (fun a b : ReadElement =>
        a.pending.declaration.head = some b.pending.declaration.name) (e :: between ++ [head]) ∧
      (∀ b ∈ between, b ∈ read ∧ b.pending.key = .named ∧ b.type = none) ∧ head ∈ read ∧ head.pending.key = .named ∧
      head.type = some type := by
  induction h with
  | own htype => cases hnone.symm.trans htype
  | @inherited e head type _ hhead hkey hmem h ih =>
      cases htype : head.type with
      | some own =>
          obtain rfl : own = type := by
            cases h with
            | own h => exact Option.some.inj (htype.symm.trans h)
            | inherited hnone => cases hnone.symm.trans htype
          exact ⟨[], head, .cons_cons hhead (.singleton head), by simp, hmem, hkey, htype⟩
      | none =>
          obtain ⟨between, last, hchain, hbetween, hlast⟩ := ih htype
          exact ⟨head :: between, last, .cons_cons hhead hchain,
            List.forall_mem_cons.2 ⟨⟨hmem, hkey, htype⟩, hbetween⟩, hlast⟩

theorem readElementType_untyped {s : Scope} {p : PendingElement} {e : ReadElement} {t t' : Traces}
    (h : readElementType s p t = .ok (e, t')) (hp : p.IsUntyped) : e.type = none := by
  obtain ⟨_, hread⟩ := readElementType_ok h
  have hinline : (p.item.items.filter fun t => t.is "complexType" || t.is "simpleType") = [] := by
    refine List.filter_eq_nil_iff.2 fun i hi => ?_
    simpa using hp.inline i hi
  rw [hinline] at hread
  unfold readOwnType at hread
  simp only [hp.named, hp.head, if_true, Reading.pure_eq_ok] at hread
  exact hread.1.symm

end

/-! ### Schemas -/

/-- How the elements of a schema are linked to their heads. Linking fails, and with it the reading of a schema of which
all else has been read, exactly if a head is not declared or heads come back; else the schema tells for every head
exactly the elements from which heads lead to it, each once, and an element without a type of its own is declared with
that of the nearest head that has one. -/
structure LinksElements (root : Xml.Element) (r : Registry) : Prop where
  links : (∃ sub, substitution r.elements = .ok sub) ↔
    (∀ member head, NamesHead r.elements member head → head ∈ r.elements.map (·.declaration.name)) ∧
      ∀ name, ¬ TransGen (NamesHead r.elements) name name
  fails : ∀ error, substitution r.elements = .error error → LinkFault r.elements error
  refuses : ∀ order read error, root.name = ⟨Namespace.schema, "schema"⟩ → r.order root.tag.line = .ok order →
    readRegistry r (rootScope root r) order root.tag.line {} = .ok read →
    substitution r.elements = .error error → ofElement root = .error error
  linked : ∀ schema, ofElement root = .ok schema → ∃ sub, substitution r.elements = .ok sub
  substitutes : ∀ schema, ofElement root = .ok schema → ∀ head, (schema.substitutes head).Nodup ∧
    (schema.substitutes head).Sublist (r.elements.map (·.declaration.name)) ∧
    ∀ member, member ∈ schema.substitutes head ↔ TransGen (NamesHead r.elements) member head
  types : ∀ schema, ofElement root = .ok schema → ∃ read : List ReadElement, ∀ p ∈ r.elements, ∃ e ∈ read, ∃ d,
    e.pending = p ∧ schema.element? p.declaration.name = some d ∧ (e.type = none ↔ p.IsUntyped) ∧
    (∀ type, e.type = some type → d.type = type) ∧ (e.type = none → ∃ between head,
      List.IsChain (fun a b : ReadElement => a.pending.declaration.head = some b.pending.declaration.name)
        (e :: between ++ [head]) ∧
      (∀ b ∈ between, b ∈ read ∧ b.pending ∈ r.elements ∧ b.type = none) ∧
      head ∈ read ∧ head.pending ∈ r.elements ∧ head.type = some d.type)

variable {root : Xml.Element} {r : Registry} {schema : Schema}

theorem ofElement_of_substitution_error (hname : root.name = ⟨Namespace.schema, "schema"⟩)
    (hr : Registry.ofRoot root = .ok r) {order : List DefinitionKey} (horder : r.order root.tag.line = .ok order)
    {read : (List (DefinitionKey × Component) × List ReadElement) × Traces}
    (hread : readRegistry r (rootScope root r) order root.tag.line {} = .ok read) {error : SchemaError}
    (herror : substitution r.elements = .error error) : ofElement root = .error error := by
  have hproper : (⟨Namespace.schema, "schema"⟩ : Name).isProper = true := by decide
  have hread : (readRegistry r (rootScope root r) order root.tag.line).run {} = .ok read := hread
  rw [rootScope] at hread
  simp [ofElement, hname, hproper, hr, horder, hread, herror, bind, Except.bind]

theorem ofElement_linked (hr : Registry.ofRoot root = .ok r) (h : ofElement root = .ok schema) :
    ∃ sub, substitution r.elements = .ok sub ∧ schema.substitutions = sub.members := by
  obtain ⟨_, _, r', _, _, _, _, sub, _, hr', _, _, hsub, _, hschema⟩ := ofElement_eq_ok.1 h
  cases hr.symm.trans hr'
  exact ⟨sub, hsub, congrArg Schema.substitutions hschema⟩

theorem ofElement_types (hr : Registry.ofRoot root = .ok r) (h : ofElement root = .ok schema) :
    ∃ read, r.ReadAs read ∧ (∀ e ∈ read, e.type = none ↔ e.pending.IsUntyped) ∧
      ∀ e ∈ read, e.pending.key = .named →
        ∃ d, schema.element? e.pending.declaration.name = some d ∧ Typed read e d.type := by
  obtain ⟨_, _, r', order, definitions, read, traces, sub, _, hr', horder, hread, hsub, _, hschema⟩ :=
    ofElement_eq_ok.1 h
  cases hr.symm.trans hr'
  have houtermost := Registry.ofRoot_outermost hr
  have hdistinct := houtermost.toDistinct
  obtain ⟨_, _, hdefinitions, _, hreads⟩ := readRegistry_ok hread
  have hsettles := readDefinitions_settles (Registry.order_ok horder) hdefinitions
  obtain ⟨_, _, hreadable, hall, _⟩ := (readRegistry_eq_ok hsettles (Registry.order_ok horder)).1 hread
  have hreadAs : r.ReadAs read := hall ▸ allElements_readAs houtermost hreadable
  have helements : schema.elements = r.elements.filterMap fun e =>
      ((elementTables sub read).1.lookup e.declaration.name).map (e.declaration.name, ·) := by rw [hschema]
  refine ⟨read, hreadAs, fun e he => ?_, fun e he hk => ?_⟩
  · obtain ⟨p, t, t', hread⟩ := mem_readElements hreads he
    refine ⟨(readElementType_setsValues hread).untyped, fun huntyped => ?_⟩
    obtain ⟨rfl, _⟩ := readElementType_ok hread
    exact readElementType_untyped hread huntyped
  · obtain ⟨d, hd⟩ := exists_global sub he hk
    have hmem : (e.pending.declaration.name, d) ∈ schema.elements := by
      rw [helements]
      exact List.mem_filterMap.2 ⟨e.pending, (hreadAs.listed e he).mem_of_named hk, by rw [hd]; rfl⟩
    obtain ⟨d', hd'⟩ := exists_lookup hmem
    refine ⟨d', hd', ?_⟩
    have hmem' := mem_of_lookup hd'
    rw [helements] at hmem'
    obtain ⟨_, _, hdeclared⟩ := List.mem_filterMap.1 hmem'
    obtain ⟨_, hlookup, heq⟩ := Option.map_eq_some_iff.1 hdeclared
    obtain ⟨hname, rfl⟩ := Prod.mk.inj heq
    obtain ⟨e', he', hk', hname', _, htyped⟩ :=
      (hreadAs.elementTables_becomes hdistinct hsub).1 _ (mem_of_lookup hlookup)
    rwa [hreadAs.eq_of_name_eq hdistinct he hk he' hk' (hname.symm.trans hname'.symm)]

theorem ofRoot_linksElements (hr : Registry.ofRoot root = .ok r) : LinksElements root r := by
  have hdistinct := Registry.ofRoot_distinct hr
  have hnames := hdistinct.elements
  refine ⟨exists_substitution_iff hnames, fun error herror => ?_, fun order read error hname horder hread =>
    ofElement_of_substitution_error hname hr horder hread, fun schema h => ?_, fun schema h head => ?_,
    fun schema h => ?_⟩
  · have hends := substitution_ends_faulty hnames
    rw [herror] at hends
    cases hends with
    | error h => exact h
  · obtain ⟨sub, hsub, _⟩ := ofElement_linked hr h
    exact ⟨sub, hsub⟩
  · obtain ⟨sub, hsub, hmembers⟩ := ofElement_linked hr h
    obtain ⟨hsublist, hmem⟩ := members_exact hnames hsub head
    rw [substitutes, hmembers]
    exact ⟨hsublist.nodup hnames, hsublist, hmem⟩
  · obtain ⟨read, hreadAs, huntyped, htyped⟩ := ofElement_types hr h
    refine ⟨read, fun p hp => ?_⟩
    obtain ⟨e, he, rfl⟩ := hreadAs.all p hp
    obtain ⟨d, hd, htype⟩ := htyped e he (hdistinct.named _ hp).1
    refine ⟨e, he, d, rfl, hd, huntyped e he, fun type hown => ?_, fun hnone => ?_⟩
    · cases htype with
      | own h => exact Option.some.inj (h.symm.trans hown)
      | inherited hnone => cases hnone.symm.trans hown
    · obtain ⟨between, head, hchain, hbetween, hhead, hkey, hown⟩ := htype.exists_nearest hnone
      refine ⟨between, head, hchain, fun b hb => ?_, hhead, (hreadAs.listed head hhead).mem_of_named hkey, hown⟩
      obtain ⟨hb, hk, hnone⟩ := hbetween b hb
      exact ⟨hb, (hreadAs.listed b hb).mem_of_named hk, hnone⟩

/-- Apples and pears are fruits, and a granny is an apple, which tells no type either. -/
def fruitSchema : Xml.Element :=
  let element (attributes : List (Text × Text)) : Xml.Node := .element (schemaTag "element" attributes) []
  ⟨schemaTag "schema" [], [
    element [("name", "granny"), ("substitutionGroup", "apple")],
    element [("name", "apple"), ("substitutionGroup", "fruit")],
    element [("name", "fruit"), ("type", "xs:token")],
    element [("name", "pear"), ("substitutionGroup", "fruit")]]⟩

theorem ofRoot_linksElements_fruit : ∃ r schema, Registry.ofRoot fruitSchema = .ok r ∧
    ofElement fruitSchema = .ok schema ∧ LinksElements fruitSchema r ∧
    schema.substitutes ⟨[], "fruit"⟩ = [⟨[], "granny"⟩, ⟨[], "apple"⟩, ⟨[], "pear"⟩] ∧
    (schema.element? ⟨[], "granny"⟩).bind (·.type.name?) = some ⟨Namespace.schema, "token"⟩ := by
  have hfruit : (ofElement fruitSchema).toOption.map (fun s =>
      (s.substitutes ⟨[], "fruit"⟩, (s.element? ⟨[], "granny"⟩).bind (·.type.name?))) =
      some ([⟨[], "granny"⟩, ⟨[], "apple"⟩, ⟨[], "pear"⟩], some ⟨Namespace.schema, "token"⟩) := by decide +kernel
  obtain ⟨schema, h, hfruit⟩ := Build.exists_of_map_toOption hfruit
  obtain ⟨hsubstitutes, htype⟩ := Prod.mk.inj hfruit
  obtain ⟨_, _, r, _, _, _, _, _, _, hr, _⟩ := ofElement_eq_ok.1 h
  exact ⟨r, schema, hr, h, ofRoot_linksElements hr, hsubstitutes, htype⟩

/-- The heads of the first element come back, though never to the element itself. -/
example : (ofElement ⟨schemaTag "schema" [], [
    .element (schemaTag "element" [("name", "granny"), ("substitutionGroup", "apple")]) [],
    .element (schemaTag "element" [("name", "apple"), ("substitutionGroup", "fruit")]) [],
    .element (schemaTag "element" [("name", "fruit"), ("substitutionGroup", "apple")]) []]⟩).toOption.isNone = true := by
  decide +kernel

end XmlSchema.Schema
