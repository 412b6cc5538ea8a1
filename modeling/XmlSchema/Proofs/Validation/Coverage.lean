import Mathlib
import XmlSchema.Proofs.Schema.WellFounded
import XmlSchema.Proofs.Validation.Clean
import XmlSchema.Proofs.Validation.Treatment

/-!
No element is passed over in silence. In a document about which nothing is found, the content models account for every
child of an element that is checked: it is checked in turn, or a wildcard that is not strict admits it.
-/

namespace XmlSchema.Validation

/-! ### Content models refer to what is declared -/

section

variable {s : Schema} {d : ElementDeclaration} {tag : Xml.Tag}

theorem typeNamed?_of_namedType {declaresAny : Bool} {name : Name} {type : TypeDefinition}
    (h : namedType? s declaresAny name = some type) : s.typeNamed? name = some type := by
  rw [namedType?] at h
  rw [Schema.typeNamed?, Schema.resolveType?]
  split at h
  · next huri =>
      rw [if_pos huri]
      split at h
      · next hany =>
          rw [if_pos hany]
          exact (Option.ite_none_right_eq_some.1 h).2
      · next hany => rwa [if_neg hany]
  · next huri => rwa [if_neg huri]

theorem instanceType_refersIn (tag : Xml.Tag) (hs : s.Closed) {declared : TypeDefinition}
    (hd : declared.RefersIn s.Knows) (element : Text) : (instanceType s tag element declared).1.RefersIn s.Knows := by
  rw [instanceType]
  split
  · exact hd
  · simp only
    split
    · exact hd
    · split
      · exact hd
      · next found hf =>
          split
          · exact hs.refersIn_typeNamed (typeNamed?_of_namedType hf)
          · exact hd

theorem resolves_of_contentModel (hs : s.Closed) (hd : s.Declares d) {model : Option Particle}
    (h : contentModel? s d tag = some model) : s.Resolves model := by
  have htype := instanceType_refersIn tag hs (hs.elements d hd) d.name.localPart
  rw [contentModel?] at h
  split at h
  · cases h
  · split at h
    · cases h
    · next t ht =>
        rw [ht] at htype
        rw [openModel?] at h
        split at h
        · cases h
        · cases h
          exact htype

end

/-! ### The children of elements that are checked -/

/-- What stands in an element that is checked is accounted for in a run. Without a content model there are no children.
With one, the children fit it, and each is checked against the declaration that the model gives it, or else a wildcard
of the model that is not strict admits it. -/
structure Visit.IsCovered (s : Settings) (run : List Step) (v : Visit) : Prop where
  childless : contentModel? s.schema v.declaration v.element.tag = none → v.element.children = []
  fits : ∀ model, contentModel? s.schema v.declaration v.element.tag = some model →
    (Content.recover s.schema.substitutes model (v.element.children.map (·.name))).mismatches = []
  children : ∀ model, contentModel? s.schema v.declaration v.element.tag = some model →
    ∀ (i : Nat) (e : Xml.Element), v.element.children[i]? = some e →
      (∃ d path, treatment s.schema (leaves model) e.name = .check d ∧ v.childPaths[i]? = some path ∧
        .visit ⟨e, d, path, v.depth + 1⟩ ∈ run) ∨
      ∃ p w occurs, model = some p ∧ .wildcard w occurs ∈ p.parts ∧ w.strictness ≠ .strict ∧
        w.allows e.name.uri = true

section

variable {s : Settings} {v root : Visit}

theorem declares_of_checks {u : Visit} (h : v.Checks s u) : s.schema.Declares u.declaration := by
  obtain ⟨model, i, _, _, _, ht, _⟩ := h
  exact declares_of_treatment ht

theorem exists_leaf_of_fits {model : Option Particle} {names : List Name}
    (h : (Content.recover s.schema.substitutes model names).mismatches = []) {name : Name} (hn : name ∈ names) :
    ∃ leaf ∈ leaves model, leaf.takes s.schema.substitutes name := by
  obtain ⟨leaf, hleaf, ht⟩ := Content.exists_takes_of_fits h hn
  exact ⟨leaf, mem_leaves_of_takes hleaf ht, ht⟩

theorem isCovered_of_isValid (hs : s.schema.Closed) (hv : .visit v ∈ root.steps s)
    (hd : s.schema.Declares v.declaration) (hvalid : v.IsValid s) (hu : ∀ e path, .undeclared e path ∉ root.steps s) :
    v.IsCovered s (root.steps s) := by
  refine ⟨hvalid.childless, hvalid.fits, fun model hm i e he => ?_⟩
  have hmodel : v.model? s = some model := by rw [Visit.model?, if_neg (Int.not_lt.2 hvalid.depth), hm]
  obtain ⟨path, hpath⟩ : ∃ path, v.childPaths[i]? = some path := by
    obtain ⟨hi, _⟩ := List.getElem?_eq_some_iff.1 he
    exact ⟨_, List.getElem?_eq_getElem (by rwa [Visit.childPaths, length_childPaths, List.length_map])⟩
  have hsteps : stepsOfChild s (leaves model) (v.depth + 1) e path ⊆ root.steps s := by
    intro step hstep
    apply Visit.steps_subset hv
    exact Visit.mem_steps_iff.2 (.inr ⟨model, hmodel, mem_stepsAmong.2 ⟨i, e, path, he, hpath, hstep⟩⟩)
  rw [stepsOfChild] at hsteps
  cases ht : treatment s.schema (leaves model) e.name with
  | check d =>
      rw [ht] at hsteps
      have hchild : .visit ⟨e, d, path, v.depth + 1⟩ ∈ Visit.steps s ⟨e, d, path, v.depth + 1⟩ :=
        Visit.mem_steps_iff.2 (.inl rfl)
      exact .inl ⟨d, path, rfl, hpath, hsteps hchild⟩
  | undeclared =>
      rw [ht] at hsteps
      exact absurd (hsteps (List.mem_singleton_self _)) (hu e path)
  | ignore =>
      have hname : e.name ∈ v.element.children.map (·.name) := List.mem_map_of_mem (List.mem_of_getElem? he)
      obtain ⟨leaf, hleaf, htakes⟩ := exists_leaf_of_fits (hvalid.fits model hm) hname
      have hr := resolves_of_contentModel hs hd hm
      obtain ⟨w, occurs, hw, hstrict, hallows⟩ := exists_wildcard_of_ignore hr hs.substitutes hleaf htakes ht
      obtain ⟨p, hp, hparts, _⟩ := mem_leaves.1 hw
      exact .inr ⟨p, w, occurs, hp, hparts, hstrict, hallows⟩

end

/-- No element is passed over in silence. If a run over a document ends and has found nothing, all its steps have been
performed, the root has been checked, and what stands in an element that has been checked is accounted for. -/
theorem no_element_passed_over (schemaRoot root : Xml.Element) (s : Settings) (r : Report)
    (hs : Schema.ofElement schemaRoot = .ok s.schema) (hend : s.stops (checkDocument s root r) = false)
    (hfindings : (checkDocument s root r).inOrder = []) :
    checkDocument s root r = (steps s root).foldl (Step.perform s) (r.inspect [root.name]) ∧
    (∃ d, s.schema.element? root.name = some d ∧ .visit ⟨root, d, rootPath root.name, 1⟩ ∈ steps s root) ∧
    ∀ v, .visit v ∈ steps s root → v.IsCovered s (steps s root) := by
  have hclean : s.IsClean (checkDocument s root r) := ⟨hend, List.reverse_eq_nil_iff.1 hfindings⟩
  cases hd : s.schema.element? root.name with
  | none =>
      simp only [checkDocument, hd] at hclean
      split at hclean
      · next h => exact absurd h hclean.not_stops
      · simp at hclean
  | some d =>
      have hsteps : steps s root = Visit.steps s ⟨root, d, rootPath root.name, 1⟩ := by rw [steps, hd]; rfl
      rw [checkDocument_eq_foldl s root r (by rw [hd]; rfl), hsteps] at hend hclean ⊢
      obtain ⟨_, hvalid, hu⟩ := isClean_foldl_take hclean
      refine ⟨foldl_take_eq_foldl_perform hend, ⟨d, rfl, Visit.mem_steps_iff.2 (.inl rfl)⟩, fun v hv => ?_⟩
      have hdeclared : s.schema.Declares v.declaration :=
        Visit.forall_visit_mem_steps (fun _ _ _ => declares_of_checks) (.of_element? hd) v hv
      exact isCovered_of_isValid (Schema.ofElement_closed hs) hv hdeclared (hvalid v hv) hu

def schemaNode (kind : Text) (attributes : List (Text × Text)) (content : List Xml.Node) : Xml.Node :=
  .element ⟨⟨Namespace.schema, kind⟩, 1, attributes.map fun (key, value) => (⟨[], key⟩, value), []⟩ content

/-- A note has an addressee, and then one element that may be anything. -/
def noteSchema : Xml.Element :=
  ⟨⟨⟨Namespace.schema, "schema"⟩, 1, [], []⟩, [schemaNode "element" [("name", "note")] [schemaNode "complexType" []
    [schemaNode "sequence" [] [schemaNode "element" [("name", "to")] [schemaNode "complexType" [] []],
      schemaNode "any" [("processContents", "lax")] []]]]]⟩

def note : Xml.Element :=
  ⟨⟨⟨[], "note"⟩, 1, [], []⟩, [.element ⟨⟨[], "to"⟩, 1, [], []⟩ [], .element ⟨⟨"u", "sent"⟩, 1, [], []⟩ []]⟩

def noteRules : Schema :=
  let addressee : ElementKey := .inside ⟨.element, ⟨[], "note"⟩⟩ [0, 0, 0]
  let type (content : ContentType) : TypeDefinition :=
    .complex ⟨none, [ComplexType.anyTypeName], content, [], none, false⟩
  let model : Particle := .group .sequence [.element ⟨[], "to"⟩ addressee {}, .wildcard ⟨.any, .lax⟩ {}] {} none
  { targetNamespace := [], types := [], attributes := [], substitutions := [], warnings := []
    elements := [(⟨[], "note"⟩, { name := ⟨[], "note"⟩, type := type (.elementOnly model) })]
    locals := [(addressee, { name := ⟨[], "to"⟩, type := type .empty })] }

theorem no_element_passed_over_note :
    let s : Settings := ⟨noteRules, 256, none⟩
    Schema.ofElement noteSchema = .ok noteRules ∧ s.stops (checkDocument s note {}) = false ∧
    (checkDocument s note {}).inOrder = [] ∧ ∀ v, .visit v ∈ steps s note → v.IsCovered s (steps s note) := by
  intro s
  have hs : Schema.ofElement noteSchema = .ok s.schema := by rfl
  have hreport : checkDocument s note {} = { checkpoints := 10 } := by cbv
  have hend : s.stops (checkDocument s note {}) = false := by rw [hreport]; rfl
  have hfindings : (checkDocument s note {}).inOrder = [] := by rw [hreport]; rfl
  exact ⟨hs, hend, hfindings, (no_element_passed_over noteSchema note s {} hs hend hfindings).2.2⟩

end XmlSchema.Validation
