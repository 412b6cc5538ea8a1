import XmlSchema.Proofs.Validation.Locality

/-!
Text where none may stand. It is reported unless it consists of blanks, and blanks are more than the white space of
markup: so text that is made of other blanks, such as those that do not break, is passed over.
-/

namespace XmlSchema

/-! ### Blanks -/

theorem CodePoint.isBlank_of_isSpace {c : CodePoint} (h : c.isSpace = true) : c.isBlank = true := by
  have hval : c.val = 0x20 ∨ c.val = 0x9 ∨ c.val = 0xA ∨ c.val = 0xD := by simpa [isSpace, or_assoc] using h
  rcases hval with hc | hc | hc | hc <;> simp [isBlank, blanks, hc]

theorem Text.strip_eq_nil_iff {p : CodePoint → Bool} {t : Text} : strip p t = [] ↔ ∀ c ∈ t, p c = true := by
  rw [strip, List.reverse_eq_nil_iff, List.dropWhile_eq_nil_iff]
  simp only [List.mem_reverse]
  rw [← List.dropWhile_eq_nil_iff, List.dropWhile_idempotent, List.dropWhile_eq_nil_iff]

theorem Text.trim_eq_nil_iff {t : Text} : trim t = [] ↔ ∀ c ∈ t, c.isBlank = true := strip_eq_nil_iff

namespace Xml.Element

/-- Some text that stands in the element itself is more than white space. -/
def HasStrayText (e : Element) : Prop := ∃ node ∈ e.content, ∃ c ∈ node.ownText, c.isSpace = false

def IsBlank (e : Element) : Prop := ∀ node ∈ e.content, ∀ c ∈ node.ownText, c.isBlank = true

theorem isBlank_iff {e : Element} : e.IsBlank ↔ Text.trim e.text = [] := by
  rw [Text.trim_eq_nil_iff, text]
  simp only [List.mem_flatMap, forall_exists_index, and_imp]
  exact ⟨fun h c node hnode hc => h node hnode c hc, fun h node hnode c hc => h c node hnode hc⟩

theorem hasStrayText_of_not_isBlank {e : Element} (h : ¬ e.IsBlank) : e.HasStrayText := by
  simp only [IsBlank, not_forall] at h
  obtain ⟨node, hnode, c, hc, hblank⟩ := h
  exact ⟨node, hnode, c, hc, Bool.eq_false_iff.2 fun hspace => hblank (CodePoint.isBlank_of_isSpace hspace)⟩

end Xml.Element

/-! ### Findings about stray text -/

def Violation.isStrayText : Violation → Bool
  | textInEmpty _ _ | textAmongElements _ _ => true
  | _ => false

namespace Validation

/-- Content in which no text may stand, with what is said of an element that has some. -/
inductive ForbidsText : ContentType → (Text → Text → Violation) → Prop
  | empty : ForbidsText .empty .textInEmpty
  | elementOnly (model : Particle) : ForbidsText (.elementOnly model) .textAmongElements

/-- What has been found that is about stray text. -/
def Report.strayText (r : Report) : List Finding := r.inOrder.filter (·.violation.isStrayText)

variable {s : Settings} {d : ElementDeclaration} {e : Xml.Element} {path : Text} {depth line : Nat} {r : Report}

namespace Report

@[simp] theorem strayText_breakIf (happens : Bool) (cause : Breakdown) :
    (r.breakIf happens cause).strayText = r.strayText := by
  cases happens <;> rfl

@[simp] theorem strayText_inspect (names : List Name) : (r.inspect names).strayText = r.strayText :=
  strayText_breakIf _ _

@[simp] theorem strayText_pass (n : Nat) : (r.pass n).strayText = r.strayText := rfl

theorem strayText_addFindings (findings : List Finding) :
    (r.addFindings findings).strayText = r.strayText ++ findings.filter (·.violation.isStrayText) := by
  rw [addFindings, strayText_breakIf, strayText, inOrder, List.reverseAux_eq, List.reverse_append, List.reverse_reverse,
    List.filter_append]
  rfl

theorem strayText_add (violations : List Violation) : (r.add line path violations).strayText =
    r.strayText ++ (violations.filter Violation.isStrayText).map fun v => ⟨v, line, path⟩ := by
  rw [add, strayText_addFindings, List.filter_map]
  rfl

theorem strayText_add_of_not {violations : List Violation} (h : ∀ v ∈ violations, v.isStrayText = false) :
    (r.add line path violations).strayText = r.strayText := by
  rw [strayText_add, List.filter_eq_nil_iff.2 fun v hv => by simp [h v hv], List.map_nil, List.append_nil]

theorem strayText_addAttributes_of_not {violations : List AttributeViolation}
    (h : ∀ v ∈ violations, v.2.isStrayText = false) :
    (r.addAttributes line path violations).strayText = r.strayText := by
  rw [addAttributes, strayText_addFindings, List.filter_eq_nil_iff.2, List.append_nil]
  intro f hf
  obtain ⟨v, hv, rfl⟩ := List.mem_map.1 hf
  simp [h v hv]

theorem strayText_foldl {α : Type} {f : Report → α → Report} (hf : ∀ r a, (f r a).strayText = r.strayText)
    (l : List α) : (l.foldl f r).strayText = r.strayText := by
  induction l generalizing r with
  | nil => rfl
  | cons a l ih => rw [List.foldl_cons, ih, hf]

end Report

/-! ### Only one check is about stray text -/

theorem not_isStrayText_instanceType (tag : Xml.Tag) (element : Text) (declared : TypeDefinition) :
    ∀ v ∈ (instanceType s.schema tag element declared).2, v.isStrayText = false := by
  rw [instanceType]
  split
  · simp
  · simp only
    split
    · simp [Violation.isStrayText]
    · split
      · simp [Violation.isStrayText]
      · split <;> simp [Violation.isStrayText]

theorem not_isStrayText_nilled (tag : Xml.Tag) : ∀ v ∈ (nilled tag d).2, v.isStrayText = false := by
  rw [nilled]
  split
  · simp
  · simp only
    split
    · simp [Violation.isStrayText]
    · split <;> simp [Violation.isStrayText]

theorem not_isStrayText_checkAttributeValue (name value : Text) (type : SimpleType) (fixed : Option Text) :
    ∀ v ∈ checkAttributeValue name value type fixed, v.isStrayText = false := by
  intro v hv
  cases fixed with
  | none =>
      simp only [checkAttributeValue, List.append_nil, List.mem_map] at hv
      obtain ⟨problem, _, rfl⟩ := hv
      rfl
  | some fixed =>
      simp only [checkAttributeValue, List.mem_append, List.mem_map] at hv
      rcases hv with ⟨problem, _, rfl⟩ | hv
      · rfl
      · split at hv
        · cases hv
        all_goals
          obtain rfl := List.mem_singleton.1 hv
          rfl

theorem not_isStrayText_checkAttribute (t : ComplexType) (element : Text) (name : Name) (value : Text) :
    ∀ v ∈ checkAttribute s.schema t element name value, v.isStrayText = false := by
  rw [checkAttribute]
  split
  · simp
  · split
    · split
      · simp [Violation.isStrayText]
      · exact not_isStrayText_checkAttributeValue _ _ _ _
    · rw [checkOtherAttribute]
      split
      · simp [Violation.isStrayText]
      · split
        · simp
        · split
          · exact not_isStrayText_checkAttributeValue _ _ _ _
          · simp [Violation.isStrayText]

theorem not_isStrayText_checkAttributes (t : ComplexType) (element : Text) (tag : Xml.Tag) :
    ∀ v ∈ checkAttributes s.schema t element tag, v.2.isStrayText = false := by
  intro v hv
  rw [checkAttributes, List.mem_append, List.mem_flatMap, List.mem_map] at hv
  rcases hv with ⟨⟨name, value⟩, _, hv⟩ | ⟨u, _, rfl⟩
  · simp only [List.mem_map] at hv
    obtain ⟨violation, hv, rfl⟩ := hv
    exact not_isStrayText_checkAttribute (s := s) t element name value violation hv
  · rfl

@[simp] theorem strayText_checkKind : (checkKind s d e path r).strayText = r.strayText := by
  have habstract (r : Report) {c : Prop} [Decidable c] {v : Violation} (hv : v.isStrayText = false) :
      (if c then r.add e.tag.line path [v] else r).strayText = r.strayText := by
    split
    · exact Report.strayText_add_of_not (by simpa using hv)
    · rfl
  have htype := not_isStrayText_instanceType (s := s) e.tag d.name.localPart d.type
  simp only [checkKind]
  generalize instanceType s.schema e.tag d.name.localPart d.type = found at htype ⊢
  obtain ⟨type, violations⟩ := found
  rw [Report.strayText_add_of_not (not_isStrayText_nilled e.tag)]
  cases type with
  | simple t =>
      simp only
      rw [Report.strayText_add_of_not htype, habstract r (by rfl)]
  | complex t =>
      simp only
      rw [habstract _ (by rfl), Report.strayText_add_of_not htype, habstract r (by rfl)]

theorem strayText_checkContent (element : Text) (model : Option Particle) (tag : Xml.Tag)
    (children : List Xml.Element) (paths : List Text) :
    (checkContent s element model tag path depth children paths r).strayText = r.strayText := by
  rw [checkContent]
  simp only
  split
  · rfl
  · split
    · simp
    · rw [Report.strayText_foldl, Report.strayText_pass]
      intro r m
      split <;> exact Report.strayText_add_of_not (by simp [Violation.isStrayText])

/-- What is found about text that stands in an element where none may. -/
def strayFindings (kind : Text → Text → Violation) (d : ElementDeclaration) (e : Xml.Element) (path : Text) :
    List Finding :=
  if Text.trim e.text = [] then [] else [⟨kind d.name.localPart (Text.trim e.text), e.tag.line, path⟩]

theorem ForbidsText.isStrayText {content : ContentType} {kind : Text → Text → Violation} (h : ForbidsText content kind)
    (element text : Text) : (kind element text).isStrayText = true := by
  cases h <;> rfl

theorem ForbidsText.checkStrayText_eq {content : ContentType} {kind : Text → Text → Violation}
    (h : ForbidsText content kind) (hasChildren : Bool) (text : Text) : checkStrayText d content hasChildren text =
      if Text.trim text = [] then [] else [kind d.name.localPart (Text.trim text)] := by
  cases h <;> simp [checkStrayText]

theorem strayText_checkComplex {t : ComplexType} {kind : Text → Text → Violation} (h : ForbidsText t.content kind) :
    (checkComplex s d t e path depth r).strayText = r.strayText ++ strayFindings kind d e path := by
  have hattributes : ((r.inspect (attributeNames e.tag)).addAttributes e.tag.line path
      (checkAttributes s.schema t d.name.localPart e.tag)).strayText = r.strayText := by
    rw [Report.strayText_addAttributes_of_not (not_isStrayText_checkAttributes _ _ _), Report.strayText_inspect]
  have hstray (hasChildren : Bool) : ((((r.inspect (attributeNames e.tag)).addAttributes e.tag.line path
      (checkAttributes s.schema t d.name.localPart e.tag)).add e.tag.line path
        (checkStrayText d t.content hasChildren e.text)).inspect (e.children.map (·.name))).strayText =
      r.strayText ++ strayFindings kind d e path := by
    rw [Report.strayText_inspect, Report.strayText_add, hattributes, h.checkStrayText_eq, strayFindings]
    split <;> simp [h.isStrayText]
  rw [checkComplex]
  simp only
  split
  · next simple hsimple =>
      rw [hsimple] at h
      cases h
  · split
    · exact hstray _
    · rw [strayText_checkContent, hstray]

theorem strayText_checkItself {t : ComplexType} {kind : Text → Text → Violation} (hs : s.stops (r.pass 1) = false)
    (hdepth : depth ≤ s.maxDepth) (hnil : (nilled e.tag d).1 = false)
    (ht : (instanceType s.schema e.tag d.name.localPart d.type).1 = .complex t) (hkind : ForbidsText t.content kind) :
    (checkItself s d path depth e r).strayText = r.strayText ++ strayFindings kind d e path := by
  rw [checkItself]
  simp only [hs, Int.not_lt.2 hdepth, hnil, ht, if_false, Bool.false_eq_true]
  rw [strayText_checkComplex hkind, strayText_checkKind, Report.strayText_pass]

/-! ### In a run -/

theorem not_stops_of_checkItself (h : s.stops (checkItself s d path depth e r) = false) :
    s.stops (r.pass 1) = false := by
  cases hs : s.stops (r.pass 1) with
  | false => rfl
  | true =>
      simp only [checkItself, hs, if_true] at h
      cases h

/-- Stray text is reported unless it consists of blanks. The findings of a run that is not stopped are those of its
steps. At an element whose content forbids text, one of them at most is about stray text: it stands at the element, with
the text without the blanks around it. It is there if some of the text is not white space, and some of it not blank. -/
theorem stray_text_found_unless_blank {s : Settings} {root : Xml.Element} {r : Report} {v : Visit} {t : ComplexType}
    {kind : Text → Text → Violation} (hend : s.stops (checkDocument s root r) = false) (hv : .visit v ∈ steps s root)
    (hdepth : v.depth ≤ s.maxDepth) (hnil : (nilled v.element.tag v.declaration).1 = false)
    (ht : (instanceType s.schema v.element.tag v.declaration.name.localPart v.declaration.type).1 = .complex t)
    (hkind : ForbidsText t.content kind) :
    (checkDocument s root r).inOrder = r.inOrder ++ (steps s root).flatMap (fun step => findingsOf s [step]) ∧
    (findingsOf s [.visit v]).filter (·.violation.isStrayText) =
      strayFindings kind v.declaration v.element v.path ∧
    ((∃ f ∈ findingsOf s [.visit v], f.violation.isStrayText = true) ↔
      v.element.HasStrayText ∧ ¬ v.element.IsBlank) := by
  have hroot : (s.schema.element? root.name).isSome = true := by
    cases hd : s.schema.element? root.name with
    | none => simp [steps, hd] at hv
    | some d => rfl
  rw [checkDocument_eq_foldl s root r hroot] at hend ⊢
  have hstart : (r.inspect [root.name]).inOrder = r.inOrder := by
    rw [Report.inspect, Report.breakIf]
    split <;> rfl
  have htake : Step.take s {} (.visit v) = checkItself s v.declaration v.path v.depth v.element {} := by
    rw [Step.take, not_stops_empty, if_neg Bool.false_ne_true]
    rfl
  have hfound : (findingsOf s [.visit v]).filter (·.violation.isStrayText) =
      strayFindings kind v.declaration v.element v.path := by
    have hstep := not_stops_of_mem hend hv
    rw [htake] at hstep
    have hstray : (checkItself s v.declaration v.path v.depth v.element {}).strayText =
        strayFindings kind v.declaration v.element v.path :=
      strayText_checkItself (not_stops_of_checkItself hstep) hdepth hnil ht hkind
    rwa [← htake] at hstray
  refine ⟨hstart ▸ inOrder_eq_flatMap hend, hfound, ?_⟩
  calc (∃ f ∈ findingsOf s [.visit v], f.violation.isStrayText = true)
      ↔ strayFindings kind v.declaration v.element v.path ≠ [] := by
        rw [← hfound, ne_eq, List.filter_eq_nil_iff]
        simp only [not_forall, Bool.not_eq_true, Bool.not_eq_false, exists_prop]
    _ ↔ ¬ v.element.IsBlank := by
        rw [strayFindings, Xml.Element.isBlank_iff]
        split <;> simp [*]
    _ ↔ v.element.HasStrayText ∧ ¬ v.element.IsBlank :=
        ⟨fun h => ⟨Xml.Element.hasStrayText_of_not_isBlank h, h⟩, And.right⟩

theorem stray_text_found_unless_blank_note :
    let s : Settings := ⟨noteRules, 256, none⟩
    let nonbreaking : Text := [CodePoint.clamp 0xA0]
    let noteWith (text : Text) : Xml.Element := ⟨note.tag, .text text 1 :: note.content⟩
    ∃ d, noteRules.element? note.name = some d ∧
      (∃ f ∈ findingsOf s [.visit ⟨noteWith "x", d, "/note", 1⟩], f.violation.isStrayText = true) ∧
      (noteWith nonbreaking).HasStrayText ∧
      ¬ ∃ f ∈ findingsOf s [.visit ⟨noteWith nonbreaking, d, "/note", 1⟩], f.violation.isStrayText = true := by
  intro s nonbreaking noteWith
  have hletter : s.stops (checkDocument s (noteWith "x") {}) = false := by cbv
  have hnonbreaking : s.stops (checkDocument s (noteWith nonbreaking) {}) = false := by cbv
  obtain ⟨d, hd⟩ : ∃ d, noteRules.element? note.name = some d := ⟨_, rfl⟩
  obtain ⟨t, model, ht, hcontent⟩ : ∃ t model, d.type = .complex t ∧ t.content = .elementOnly model := by
    cases hd
    exact ⟨_, _, rfl, rfl⟩
  have hkind : ForbidsText t.content .textAmongElements := hcontent ▸ .elementOnly model
  have hdepth : (1 : Int) ≤ s.maxDepth := by decide
  have hfound (text : Text) (hend : s.stops (checkDocument s (noteWith text) {}) = false) :=
    (stray_text_found_unless_blank hend (root_mem_steps hd) hdepth rfl ht hkind).2.2
  have hx : ¬ (noteWith "x").IsBlank := by
    rw [Xml.Element.isBlank_iff]
    decide
  have hblank : (noteWith nonbreaking).IsBlank := Xml.Element.isBlank_iff.2 rfl
  have hstray : (noteWith nonbreaking).HasStrayText := ⟨_, List.mem_cons_self, _, List.mem_cons_self, rfl⟩
  exact ⟨d, hd, (hfound "x" hletter).2 ⟨Xml.Element.hasStrayText_of_not_isBlank hx, hx⟩, hstray,
    fun h => ((hfound nonbreaking hnonbreaking).1 h).2 hblank⟩

end Validation

end XmlSchema
