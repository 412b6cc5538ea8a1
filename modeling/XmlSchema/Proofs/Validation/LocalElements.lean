import XmlSchema.Proofs.Schema.LocalNames
import XmlSchema.Proofs.Schema.SubstitutionGroups
import XmlSchema.Proofs.Validation.Treatment

/-!
Substitution at element particles. Both the matcher and the lookup of declarations go by the name of a particle alone.
So also a local element can be substituted, by whatever has a global element of the same name as its head.
-/

namespace XmlSchema

open Relation Schema

/-- Several occurrences of an element particle take as many accepted names. -/
theorem Matcher.mem_after_nameStep {names : Array Name} {accepted : List Name} {pos k q : Nat} :
    q ∈ Sweep.after (nameStep names accepted) pos k ↔
      q = pos + k ∧ ∀ j < k, ∃ n, names[pos + j]? = some n ∧ n ∈ accepted := by
  induction k generalizing q with
  | zero => simp
  | succ k ih =>
      simp only [Sweep.mem_after_succ, ih, mem_nameStep, Nat.forall_lt_succ_right]
      constructor
      · rintro ⟨_, ⟨rfl, hbefore⟩, n, hn, hmem, rfl⟩
        exact ⟨rfl, hbefore, n, hn, hmem⟩
      · rintro ⟨rfl, hbefore, n, hn, hmem⟩
        exact ⟨_, ⟨rfl, hbefore⟩, n, hn, hmem, rfl⟩

namespace Validation

/-- The matcher takes no element of another name at an element particle. -/
def MatchesItself (s : Schema) (own : Name) (key : ElementKey) (occurs : Occurs) : Prop :=
  ∀ (names : Array Name) (pos q : Nat), pos ≤ names.size →
    q ∈ (Matcher.ofParticle s.substitutes names (.element own key occurs)).ends pos →
      ∀ j, pos ≤ j → j < q → names[j]? = some own

/-- No other name is declared because of an element particle, whatever leaves stand around it. -/
def DeclaresItself (s : Schema) (own : Name) (key : ElementKey) (occurs : Occurs) : Prop :=
  ∀ before behind name, name ≠ own →
    declarationAmong? s (before ++ .element own key occurs :: behind) name = declarationAmong? s (before ++ behind) name

/-- What an element particle takes and declares: the elements from which heads lead to its own name. -/
structure TakesSubstitutes (r : Registry) (s : Schema) (own : Name) (key : ElementKey) (occurs : Occurs) : Prop where
  declared : ∃ d, s.declaration? own key = some d ∧ d.name = own
  accepted : ∀ name, name ∈ Matcher.accepted s.substitutes own ↔ ReflTransGen (NamesHead r.elements) name own
  reads : ∀ (names : Array Name) (pos q : Nat), pos ≤ names.size →
    (q ∈ (Matcher.ofParticle s.substitutes names (.element own key occurs)).ends pos ↔ ∃ k, occurs.allows k ∧
      q = pos + k ∧ ∀ j < k, ∃ n, names[pos + j]? = some n ∧ ReflTransGen (NamesHead r.elements) n own)
  finds : ∀ before behind name, ReflTransGen (NamesHead r.elements) name own →
    (∀ leaf ∈ before, accepts s leaf name = false) →
    ∃ d, declarationAmong? s (before ++ .element own key occurs :: behind) name = some d ∧ d.name = name ∧
      (name = own → s.declaration? own key = some d) ∧ (name ≠ own → s.element? name = some d)
  overlooks : ∀ before behind name, ¬ ReflTransGen (NamesHead r.elements) name own →
    declarationAmong? s (before ++ .element own key occurs :: behind) name = declarationAmong? s (before ++ behind) name
  matchesItself : MatchesItself s own key occurs ↔ ∀ member, ¬ NamesHead r.elements member own
  declaresItself : DeclaresItself s own key occurs ↔ ∀ member, ¬ NamesHead r.elements member own
  namesake : ∀ member, NamesHead r.elements member own → ∃ d, s.element? own = some d

variable {root : Xml.Element} {r : Registry} {schema s : Schema} {own name : Name} {key : ElementKey} {occurs : Occurs}
  {before behind : List Particle} {leaf : Particle}

/-! ### Substitutes -/

theorem mem_substitutes (h : ofElement root = .ok schema) (hr : Registry.ofRoot root = .ok r) :
    name ∈ schema.substitutes own ↔ TransGen (NamesHead r.elements) name own := by
  obtain ⟨sub, hsub, hmembers⟩ := ofElement_linked hr h
  rw [substitutes, hmembers]
  exact (members_exact (Registry.ofRoot_distinct hr).elements hsub own).2 name

theorem mem_accepted (h : ofElement root = .ok schema) (hr : Registry.ofRoot root = .ok r) :
    name ∈ Matcher.accepted schema.substitutes own ↔ ReflTransGen (NamesHead r.elements) name own := by
  rw [Matcher.accepted, List.mem_cons, mem_substitutes h hr, reflTransGen_iff_eq_or_transGen, @eq_comm _ own]

theorem ne_of_namesHead (h : ofElement root = .ok schema) (hr : Registry.ofRoot root = .ok r)
    (hname : NamesHead r.elements name own) : name ≠ own := by
  obtain ⟨sub, hsub, _⟩ := ofElement_linked hr h
  rintro rfl
  exact ((exists_substitution_iff (Registry.ofRoot_distinct hr).elements).1 ⟨sub, hsub⟩).2 name (.single hname)

theorem exists_element_of_namesHead (h : ofElement root = .ok schema) (hr : Registry.ofRoot root = .ok r)
    (hname : NamesHead r.elements name own) : ∃ d, schema.element? own = some d := by
  have hdistinct := Registry.ofRoot_distinct hr
  obtain ⟨sub, hsub, _⟩ := ofElement_linked hr h
  obtain ⟨read, hreadAs, _, htypes⟩ := ofElement_types hr h
  have hdeclared := ((exists_substitution_iff hdistinct.elements).1 ⟨sub, hsub⟩).1 name own hname
  obtain ⟨p, hp, rfl⟩ := List.mem_map.1 hdeclared
  obtain ⟨e, he, rfl⟩ := hreadAs.all p hp
  obtain ⟨d, hd, _⟩ := htypes e he (hdistinct.named _ hp).1
  exact ⟨d, hd⟩

/-! ### The lookup of declarations -/

theorem accepts_element_iff (h : ofElement root = .ok schema) (hr : Registry.ofRoot root = .ok r) :
    accepts schema (.element own key occurs) name = true ↔ ReflTransGen (NamesHead r.elements) name own := by
  rw [← mem_accepted h hr, accepts_iff]
  simp [Particle.takes]

theorem declarationAmong?_skip (h : accepts s leaf name = false) :
    declarationAmong? s (before ++ leaf :: behind) name = declarationAmong? s (before ++ behind) name := by
  rw [declarationAmong?, declarationAmong?, List.find?_append, List.find?_append, List.find?_cons, h]

theorem declarationAmong?_take (h : accepts s (.element own key occurs) name = true)
    (hbefore : ∀ leaf ∈ before, accepts s leaf name = false) :
    declarationAmong? s (before ++ .element own key occurs :: behind) name =
      if own = name then s.declaration? own key else s.element? name := by
  have hfirst : (before ++ .element own key occurs :: behind).find? (fun leaf => accepts s leaf name) =
      some (.element own key occurs) := by
    rw [List.find?_append, List.find?_eq_none.2 (by simpa using hbefore), Option.none_or, List.find?_cons, h]
  rw [declarationAmong?, hfirst]

theorem ofElement_overlooks (h : ofElement root = .ok schema) (hr : Registry.ofRoot root = .ok r)
    (before behind : List Particle) (name : Name) (hlead : ¬ ReflTransGen (NamesHead r.elements) name own) :
    declarationAmong? schema (before ++ .element own key occurs :: behind) name =
      declarationAmong? schema (before ++ behind) name :=
  declarationAmong?_skip (Bool.eq_false_iff.2 (mt (accepts_element_iff h hr).1 hlead))

theorem ofElement_finds (h : ofElement root = .ok schema) (hr : Registry.ofRoot root = .ok r)
    {d : ElementDeclaration} (hd : schema.declaration? own key = some d) (hname : d.name = own)
    (occurs : Occurs) (before behind : List Particle) (name : Name)
    (hlead : ReflTransGen (NamesHead r.elements) name own)
    (hbefore : ∀ leaf ∈ before, accepts schema leaf name = false) :
    ∃ d, declarationAmong? schema (before ++ .element own key occurs :: behind) name = some d ∧ d.name = name ∧
      (name = own → schema.declaration? own key = some d) ∧ (name ≠ own → schema.element? name = some d) := by
  rw [declarationAmong?_take ((accepts_element_iff h hr).2 hlead) hbefore]
  by_cases hne : name = own
  · subst hne
    exact ⟨d, (if_pos rfl).trans hd, hname, fun _ => hd, fun hne => absurd rfl hne⟩
  · have hmember := (reflTransGen_iff_eq_or_transGen.1 hlead).resolve_left (Ne.symm hne)
    obtain ⟨e, he⟩ := (ofElement_closed h).substitutes own name ((mem_substitutes h hr).2 hmember)
    exact ⟨e, (if_neg (Ne.symm hne)).trans he, ofElement_elementNames h he, fun heq => absurd heq hne, fun _ => he⟩

/-! ### Schemas -/

/-- An element particle that is read may occur. -/
def MayOccur : Particle → Prop
  | .element _ _ occurs => occurs.max ≠ some 0
  | _ => True

theorem grants_mayOccur (r : Registry) (s : Scope) : r.Grants s MayOccur where
  named := fun _ _ h => h
  inside := fun _ _ _ _ _ _ h => h
  wildcard := fun _ _ => trivial
  own := fun _ _ _ _ => trivial
  reference := fun _ _ _ _ _ _ _ _ _ _ => trivial

theorem ofElement_reads (h : ofElement root = .ok schema) (hr : Registry.ofRoot root = .ok r)
    (hranges : occurs.IsRange) (names : Array Name) (pos q : Nat) (hpos : pos ≤ names.size) :
    q ∈ (Matcher.ofParticle schema.substitutes names (.element own key occurs)).ends pos ↔ ∃ k, occurs.allows k ∧
      q = pos + k ∧ ∀ j < k, ∃ n, names[pos + j]? = some n ∧ ReflTransGen (NamesHead r.elements) n own := by
  refine (Matcher.mem_ends_iff_after (p := .element own key occurs) hranges hpos).trans ?_
  simp only [Matcher.step, Matcher.mem_after_nameStep, mem_accepted h hr]
  rfl

theorem ofElement_matchesItself (h : ofElement root = .ok schema) (hr : Registry.ofRoot root = .ok r)
    (hranges : occurs.IsRange) (hmax : occurs.max ≠ some 0) :
    MatchesItself schema own key occurs ↔ ∀ member, ¬ NamesHead r.elements member own := by
  constructor
  · intro hown member hmember
    -- as many of the substitute as have to occur, but one at least
    let k := max 1 occurs.min
    have hk : occurs.allows k := by
      refine ⟨Nat.le_max_right _ _, fun m hm => Nat.max_le.2 ⟨?_, hranges m hm⟩⟩
      exact Nat.one_le_iff_ne_zero.2 fun hzero => hmax (hzero ▸ hm)
    have hfirst (j : Nat) (hj : j < k) : (Array.replicate k member)[j]? = some member := by simp [hj]
    have hreads : k ∈ (Matcher.ofParticle schema.substitutes (Array.replicate k member)
        (.element own key occurs)).ends 0 :=
      (ofElement_reads h hr hranges _ 0 k (Nat.zero_le _)).2
        ⟨k, hk, (Nat.zero_add k).symm, fun j hj => ⟨member, by rw [Nat.zero_add, hfirst j hj], .single hmember⟩⟩
    have hzero : 0 < k := Nat.le_max_left 1 occurs.min
    have hname := hown _ 0 k (Nat.zero_le _) hreads 0 (Nat.le_refl 0) hzero
    exact ne_of_namesHead h hr hmember (Option.some.inj ((hfirst 0 hzero).symm.trans hname))
  · intro hnone names pos q hpos hq j hle hlt
    obtain ⟨k, _, rfl, hread⟩ := (ofElement_reads h hr hranges names pos q hpos).1 hq
    obtain ⟨n, hn, hlead⟩ := hread (j - pos) (by omega)
    rw [Nat.add_sub_cancel' hle] at hn
    rcases hlead.cases_tail with rfl | ⟨member, _, hmember⟩
    · exact hn
    · exact absurd hmember (hnone member)

theorem ofElement_declaresItself (h : ofElement root = .ok schema) (hr : Registry.ofRoot root = .ok r)
    (hd : ∃ d, schema.declaration? own key = some d ∧ d.name = own) :
    DeclaresItself schema own key occurs ↔ ∀ member, ¬ NamesHead r.elements member own := by
  obtain ⟨d, hd, hname⟩ := hd
  constructor
  · intro hown member hmember
    obtain ⟨e, he, _⟩ := ofElement_finds h hr hd hname occurs [] [] member (.single hmember) (by simp)
    rw [hown [] [] member (ne_of_namesHead h hr hmember)] at he
    cases he
  · intro hnone before behind name hne
    refine ofElement_overlooks h hr before behind name fun hlead => ?_
    rcases hlead.cases_tail with rfl | ⟨member, _, hmember⟩
    · exact hne rfl
    · exact hnone member hmember

/-- An element particle takes and declares whatever can be substituted for its name, be it local or not. It keeps to
its own name exactly if no element has a global element of that name as its head. -/
theorem ofElement_takesSubstitutes (h : ofElement root = .ok schema) (hr : Registry.ofRoot root = .ok r)
    (hp : schema.HasParticle (.element own key occurs)) : TakesSubstitutes r schema own key occurs := by
  have hmax : occurs.max ≠ some 0 := ofElement_particles h hr (grants_mayOccur r _) _ hp
  have hdeclared := ofElement_declaresNames h hp
  have hranges : occurs.IsRange := by
    obtain ⟨table, htells⟩ := ofElement_tells h
    obtain ⟨x, model, hx, hmodel, hpart⟩ := hp
    exact ((htells.sound hx).model model hmodel).ranges _ hpart
  exact {
    declared := hdeclared
    accepted := fun name => mem_accepted h hr
    reads := ofElement_reads h hr hranges
    finds := by
      obtain ⟨d, hd, hname⟩ := hdeclared
      exact ofElement_finds h hr hd hname occurs
    overlooks := ofElement_overlooks h hr
    matchesItself := ofElement_matchesItself h hr hranges hmax
    declaresItself := ofElement_declaresItself h hr hdeclared
    namesake := fun member => exists_element_of_namesHead h hr }

/-- A heading may stand for a title, and a person holds a title of another kind. -/
def titleSchema : Xml.Element :=
  let node (kind : Text) (attributes : List (Text × Text)) (content : List Xml.Node) : Xml.Node :=
    .element (schemaTag kind attributes) content
  ⟨schemaTag "schema" [], [
    node "element" [("name", "title"), ("type", "xs:string")] [],
    node "element" [("name", "heading"), ("substitutionGroup", "title")] [],
    node "element" [("name", "person")] [node "complexType" [] [node "sequence" [] [
      node "element" [("name", "title"), ("type", "xs:NCName")] []]]]]⟩

/-- The only element particle in the content of a type, if it has one and nothing else. -/
def onlyElement? : TypeDefinition → Option (Name × ElementKey × Occurs)
  | .simple _ => none
  | .complex x => match x.content.model? with
    | some (.group _ [.element name key occurs] _ _) => some (name, key, occurs)
    | _ => none

theorem hasParticle_of_onlyElement? {d : ElementDeclaration} (hd : s.element? name = some d)
    (h : onlyElement? d.type = some (own, key, occurs)) : s.HasParticle (.element own key occurs) := by
  have hdeclares := Declares.of_element? hd
  cases htype : d.type with
  | simple => simp [htype, onlyElement?] at h
  | complex x =>
      rw [htype, onlyElement?] at h
      split at h
      · next hmodel =>
          cases h
          refine ⟨x, _, htype ▸ .element d hdeclares, hmodel, Particle.mem_parts_group.2 (.inr ?_)⟩
          exact ⟨.element own key occurs, List.mem_singleton_self _, Particle.mem_parts_self _⟩
      · cases h

theorem ofElement_takesSubstitutes_title :
    let key : ElementKey := .inside ⟨.element, ⟨[], "person"⟩⟩ [0, 0, 0]
    ∃ schema r, ofElement titleSchema = .ok schema ∧ Registry.ofRoot titleSchema = .ok r ∧
      schema.HasParticle (.element ⟨[], "title"⟩ key {}) ∧ TakesSubstitutes r schema ⟨[], "title"⟩ key {} ∧
      ¬ DeclaresItself schema ⟨[], "title"⟩ key {} := by
  intro key
  have hread : (ofElement titleSchema).toOption.map (fun s =>
      ((s.element? ⟨[], "person"⟩).bind fun d => onlyElement? d.type, s.substitutes ⟨[], "title"⟩)) =
      some (some (⟨[], "title"⟩, key, {}), [⟨[], "heading"⟩]) := by decide +kernel
  obtain ⟨schema, h, hread⟩ := Build.exists_of_map_toOption hread
  obtain ⟨hparticle, hsubstitutes⟩ := Prod.mk.inj hread
  obtain ⟨d, hd, hparticle⟩ := Option.bind_eq_some_iff.1 hparticle
  have hp := hasParticle_of_onlyElement? hd hparticle
  obtain ⟨r, hr⟩ := exists_registry h
  have htakes := ofElement_takesSubstitutes h hr hp
  refine ⟨schema, r, h, hr, hp, htakes, fun hown => ?_⟩
  have hheading : TransGen (NamesHead r.elements) ⟨[], "heading"⟩ ⟨[], "title"⟩ :=
    (mem_substitutes h hr).1 (hsubstitutes ▸ List.mem_singleton_self _)
  obtain ⟨member, _, hmember⟩ := TransGen.tail'_iff.1 hheading
  exact htakes.declaresItself.1 hown member hmember

end Validation

end XmlSchema
