import XmlSchema.Proofs.Validation.Visits

/-!
What an element is like about which nothing is found: its children fit the content model, if it has one, and there are
none if it has not.
-/

namespace XmlSchema.Validation

/-- Nothing has been found, and nothing has stopped the run. -/
def Settings.IsClean (s : Settings) (r : Report) : Prop := s.stops r = false ∧ r.findings = []

namespace Settings.IsClean

variable {s : Settings} {r : Report}

@[simp] theorem breakIf_iff {happens : Bool} {cause : Breakdown} :
    s.IsClean (r.breakIf happens cause) ↔ s.IsClean r ∧ happens = false := by
  cases happens with
  | false => simp [Report.breakIf]
  | true =>
      have h : s.stops (r.breakIf true cause) = true := by
        simp only [Report.breakIf, if_true, stops, Bool.or_eq_true]
        left
        cases r.breakdown? <;> rfl
      simp [IsClean, h]

@[simp] theorem addFindings_iff {findings : List Finding} :
    s.IsClean (r.addFindings findings) ↔ s.IsClean r ∧ findings = [] := by
  rw [Report.addFindings, breakIf_iff]
  cases findings with
  | nil => simp [IsClean, stops]
  | cons f findings => simp [IsClean]

@[simp] theorem add_iff {line : Nat} {path : Text} {violations : List Violation} :
    s.IsClean (r.add line path violations) ↔ s.IsClean r ∧ violations = [] := by
  rw [Report.add, addFindings_iff, List.map_eq_nil_iff]

@[simp] theorem ite_add_iff {c : Prop} [Decidable c] {line : Nat} {path : Text} {violations : List Violation} :
    s.IsClean (if c then r.add line path violations else r) ↔ s.IsClean r ∧ (c → violations = []) := by
  split <;> simp [*]

@[simp] theorem addAttributes_iff {line : Nat} {path : Text} {violations : List AttributeViolation} :
    s.IsClean (r.addAttributes line path violations) ↔ s.IsClean r ∧ violations = [] := by
  rw [Report.addAttributes, addFindings_iff, List.map_eq_nil_iff]

@[simp] theorem inspect_iff {names : List Name} :
    s.IsClean (r.inspect names) ↔ s.IsClean r ∧ names.all Name.isProper = true := by
  rw [Report.inspect, breakIf_iff, Bool.not_eq_false']

theorem of_pass {n : Nat} (h : s.IsClean (r.pass n)) : s.IsClean r := by
  obtain ⟨hs, hf⟩ := h
  refine ⟨?_, hf⟩
  cases ha : s.allowance with
  | none => simpa [stops, Report.pass, ha] using hs
  | some a =>
      rw [stops, ha, Option.any_some, Bool.or_eq_false_iff, decide_eq_false_iff_not] at hs ⊢
      exact ⟨hs.1, fun hlt => hs.2 (Nat.lt_add_right n hlt)⟩

theorem not_stops (h : s.IsClean r) : ¬ s.stops r = true := by simp [h.1]

/-- What is found remains found. -/
theorem of_foldl {α : Type} {f : Report → α → Report} (hf : ∀ r a, s.IsClean (f r a) → s.IsClean r) {l : List α}
    (h : s.IsClean (l.foldl f r)) : s.IsClean r ∧ ∀ a ∈ l, ∃ r, s.IsClean (f r a) := by
  induction l generalizing r with
  | nil => exact ⟨h, by simp⟩
  | cons a l ih =>
      obtain ⟨ha, hl⟩ := ih h
      exact ⟨hf r a ha, List.forall_mem_cons.2 ⟨⟨r, ha⟩, hl⟩⟩

end Settings.IsClean

section

variable {s : Settings} {d : ElementDeclaration} {path : Text} {depth : Nat} {e : Xml.Element} {r : Report}

theorem isClean_checkContent {element : Text} {model : Option Particle} {tag : Xml.Tag} {children : List Xml.Element}
    {paths : List Text} (h : s.IsClean (checkContent s element model tag path depth children paths r)) :
    s.IsClean r ∧ (Content.recover s.schema.substitutes model (children.map (·.name))).mismatches = [] := by
  rw [checkContent] at h
  simp only at h
  split at h
  · next hs => exact absurd hs h.not_stops
  · split at h
    · simp at h
    · obtain ⟨hr, hm⟩ := h.of_foldl (by
        intro r m h
        split at h <;> exact (Settings.IsClean.add_iff.1 h).1)
      refine ⟨hr.of_pass, List.eq_nil_iff_forall_not_mem.2 fun m hmem => ?_⟩
      obtain ⟨r', h'⟩ := hm m hmem
      split at h' <;> simp at h'

theorem isClean_checkSimpleContent {t : SimpleType} (h : s.IsClean (checkSimpleContent d t e path r)) :
    s.IsClean r ∧ e.children = [] := by
  rw [checkSimpleContent] at h
  split at h
  · simp at h
  · next he => exact ⟨(Settings.IsClean.add_iff.1 h).1, he⟩

theorem isClean_checkNil {type : TypeDefinition} (h : s.IsClean (checkNil s d type e path r)) :
    s.IsClean r ∧ e.children = [] := by
  have hnil : s.IsClean (if !e.children.isEmpty || !(Text.trim e.text).isEmpty then
      r.add e.tag.line path [.nilNotEmpty d.name.localPart] else r) := by
    unfold checkNil at h
    cases type with
    | simple t => exact (Settings.IsClean.ite_add_iff.1 h).1
    | complex t =>
        obtain ⟨h, _⟩ := Settings.IsClean.addAttributes_iff.1 h
        obtain ⟨h, _⟩ := Settings.IsClean.inspect_iff.1 h
        exact (Settings.IsClean.ite_add_iff.1 h).1
  obtain ⟨hr, hempty⟩ := Settings.IsClean.ite_add_iff.1 hnil
  refine ⟨hr, ?_⟩
  cases hc : e.children with
  | nil => rfl
  | cons child later => exact absurd (hempty (by simp [hc])) (List.cons_ne_nil _ _)

theorem isClean_checkKind (h : s.IsClean (checkKind s d e path r)) : s.IsClean r := by
  simp only [checkKind] at h
  generalize instanceType s.schema e.tag d.name.localPart d.type = found at h
  obtain ⟨type, violations⟩ := found
  obtain ⟨h, _⟩ := Settings.IsClean.add_iff.1 h
  have hadd : s.IsClean ((if d.isAbstract then r.add e.tag.line path [.abstractElement d.name.localPart] else r).add
      e.tag.line path violations) := by
    cases type with
    | simple t => exact h
    | complex t => exact (Settings.IsClean.ite_add_iff.1 h).1
  exact (Settings.IsClean.ite_add_iff.1 (Settings.IsClean.add_iff.1 hadd).1).1

theorem isClean_checkSimple {t : SimpleType} (h : s.IsClean (checkSimple d t e path r)) :
    s.IsClean r ∧ e.children = [] := by
  obtain ⟨h, hc⟩ := isClean_checkSimpleContent h
  exact ⟨(Settings.IsClean.inspect_iff.1 (Settings.IsClean.addAttributes_iff.1 h).1).1, hc⟩

theorem isClean_checkComplex {t : ComplexType} (h : s.IsClean (checkComplex s d t e path depth r)) :
    s.IsClean r ∧ (openModel? t = none → e.children = []) ∧ ∀ model, openModel? t = some model →
      (Content.recover s.schema.substitutes model (e.children.map (·.name))).mismatches = [] := by
  have hattributes {r : Report} (h : s.IsClean ((r.inspect (attributeNames e.tag)).addAttributes e.tag.line path
      (checkAttributes s.schema t d.name.localPart e.tag))) : s.IsClean r :=
    (Settings.IsClean.inspect_iff.1 (Settings.IsClean.addAttributes_iff.1 h).1).1
  rw [checkComplex] at h
  simp only at h
  rw [openModel?]
  split at h
  · next simple _ =>
      obtain ⟨h, hc⟩ := isClean_checkSimpleContent h
      exact ⟨hattributes h, fun _ => hc, fun model hm => nomatch hm⟩
  · next other _ =>
      split at h
      · next hstops => exact absurd hstops h.not_stops
      · obtain ⟨h, hfits⟩ := isClean_checkContent h
        obtain ⟨h, _⟩ := Settings.IsClean.inspect_iff.1 h
        obtain ⟨h, _⟩ := Settings.IsClean.add_iff.1 h
        refine ⟨hattributes h, ?_, ?_⟩
        · intro hm
          exact nomatch hm
        · rintro model ⟨⟩
          exact hfits

/-- What is known of an element about which nothing is found. -/
structure Visit.IsValid (s : Settings) (v : Visit) : Prop where
  depth : v.depth ≤ s.maxDepth
  childless : contentModel? s.schema v.declaration v.element.tag = none → v.element.children = []
  fits : ∀ model, contentModel? s.schema v.declaration v.element.tag = some model →
    (Content.recover s.schema.substitutes model (v.element.children.map (·.name))).mismatches = []

theorem isClean_checkItself {v : Visit} (h : s.IsClean (checkItself s v.declaration v.path v.depth v.element r)) :
    s.IsClean r ∧ v.IsValid s := by
  obtain ⟨e, d, path, depth⟩ := v
  rw [checkItself] at h
  simp only at h
  split at h
  · next hs => exact absurd hs h.not_stops
  split at h
  · simp at h
  · next hdepth =>
      have hdepth : (depth : Int) ≤ s.maxDepth := Int.not_lt.1 hdepth
      split at h
      · next hn =>
          obtain ⟨h, hc⟩ := isClean_checkNil h
          refine ⟨(isClean_checkKind h).of_pass, hdepth, fun _ => hc, fun model hm => ?_⟩
          rw [contentModel?, if_pos hn] at hm
          exact nomatch hm
      · next hn =>
          split at h
          · next t ht =>
              obtain ⟨h, hc⟩ := isClean_checkSimple h
              refine ⟨(isClean_checkKind h).of_pass, hdepth, fun _ => hc, fun model hm => ?_⟩
              rw [contentModel?, if_neg hn, ht] at hm
              exact nomatch hm
          · next t ht =>
              obtain ⟨h, hc, hfits⟩ := isClean_checkComplex h
              have hmodel : contentModel? s.schema d e.tag = openModel? t := by rw [contentModel?, if_neg hn, ht]
              exact ⟨(isClean_checkKind h).of_pass, hdepth, fun hm => hc (hmodel ▸ hm), fun model hm =>
                hfits model (hmodel ▸ hm)⟩

/-- Nothing is found in a run only if nothing is found in any of its steps; in particular no element lacks a
declaration. -/
theorem isClean_foldl_take {l : List Step} (h : s.IsClean (l.foldl (Step.take s) r)) :
    s.IsClean r ∧ (∀ v, .visit v ∈ l → v.IsValid s) ∧ ∀ e path, .undeclared e path ∉ l := by
  have htake {r : Report} {step : Step} (h : s.IsClean (step.take s r)) : s.IsClean (step.perform s r) := by
    rw [Step.take] at h
    split at h
    · next hs => exact absurd hs h.not_stops
    · exact h
  obtain ⟨hr, hl⟩ := h.of_foldl (by
    intro r step h
    cases step with
    | visit v => exact (isClean_checkItself (htake h)).1
    | undeclared e path => exact (Settings.IsClean.add_iff.1 (htake h)).1)
  refine ⟨hr, fun v hv => ?_, fun e path hmem => ?_⟩
  · obtain ⟨r', h'⟩ := hl _ hv
    exact (isClean_checkItself (htake h')).2
  · obtain ⟨r', h'⟩ := hl _ hmem
    exact absurd (Settings.IsClean.add_iff.1 (htake h')).2 (List.cons_ne_nil _ _)

end

end XmlSchema.Validation
