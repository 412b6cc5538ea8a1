import Mathlib.Data.List.Perm.Basic
import Mathlib.Logic.Relation
import XmlSchema.Proofs.Validation.Locality

/-!
How a document is written makes no difference to what is found in it. Comments and instructions are seen by no step of
a run, however they divide a text; and on the order of attributes depends only in which order the findings come.
-/

namespace XmlSchema

namespace Xml

/-- Whether a node is a comment or an instruction. -/
def Node.isAside : Node → Bool
  | .comment _ _ | .instruction _ _ _ => true
  | _ => false

/-- No attribute has two values. -/
def Tag.IsSingleValued (t : Tag) : Prop :=
  ∀ a ∈ t.attributes, ∀ b ∈ t.attributes, a.1 = b.1 → a.2 = b.2

namespace Element

/-- The second element is the first one with a comment or an instruction put between two nodes or into a text, or with
a text on another line, as what is put before it may move it. -/
inductive Interjects : Element → Element → Prop
  | between (tag : Tag) (before after : List Node) (aside : Node) (h : aside.isAside = true) :
      Interjects ⟨tag, before ++ after⟩ ⟨tag, before ++ aside :: after⟩
  | within (tag : Tag) (before after : List Node) (t u : Text) (line line' : Nat) (aside : Node)
      (h : aside.isAside = true) :
      Interjects ⟨tag, before ++ .text (t ++ u) line :: after⟩
        ⟨tag, before ++ .text t line :: aside :: .text u line' :: after⟩
  | moved (tag : Tag) (before after : List Node) (t : Text) (line line' : Nat) :
      Interjects ⟨tag, before ++ .text t line :: after⟩ ⟨tag, before ++ .text t line' :: after⟩

/-- The second element is the first one with its attributes in another order. -/
structure Reorders (e e' : Element) : Prop where
  single : e.tag.IsSingleValued
  attributes : e'.tag.attributes.Perm e.tag.attributes
  tag : e'.tag = { e.tag with attributes := e'.tag.attributes }
  content : e'.content = e.content

/-- An element is edited, or one that stands somewhere in it. -/
inductive Edited (edit : Element → Element → Prop) : Element → Element → Prop
  | here {e e' : Element} (h : edit e e') : Edited edit e e'
  | inside {c c' e e' : Element} (h : edit c c') (hr : c.Replaces c' e e') : Edited edit e e'

end Element

/-! ### What an edit leaves as it is -/

theorem Node.isAside_iff {node : Node} (h : node.isAside = true) : node.toElement? = none ∧ node.ownText = [] := by
  cases node with
  | comment | instruction => exact ⟨rfl, rfl⟩
  | text | element => cases h

theorem Node.toElement?_text (t : Text) (line : Nat) : (Node.text t line).toElement? = none := rfl

theorem Node.ownText_text (t : Text) (line : Nat) : (Node.text t line).ownText = t := rfl

namespace Element

theorem Interjects.tag_eq {e e' : Element} (h : Interjects e e') : e'.tag = e.tag := by
  cases h <;> rfl

theorem Interjects.children_eq {e e' : Element} (h : Interjects e e') : e'.children = e.children := by
  cases h with
  | between tag before after aside h =>
      simp only [children, List.filterMap_append, List.filterMap_cons_none (Node.isAside_iff h).1]
  | within tag before after t u line line' aside h =>
      simp only [children, List.filterMap_append, List.filterMap_cons_none (Node.isAside_iff h).1,
        List.filterMap_cons_none (Node.toElement?_text _ _)]
  | moved => simp only [children, List.filterMap_append, List.filterMap_cons_none (Node.toElement?_text _ _)]

theorem Interjects.text_eq {e e' : Element} (h : Interjects e e') : e'.text = e.text := by
  cases h with
  | between tag before after aside h =>
      simp only [text, List.flatMap_append, List.flatMap_cons, (Node.isAside_iff h).2, List.nil_append]
  | within tag before after t u line line' aside h =>
      simp only [text, List.flatMap_append, List.flatMap_cons, (Node.isAside_iff h).2, Node.ownText_text,
        List.nil_append, List.append_assoc]
  | moved => simp only [text, List.flatMap_append, List.flatMap_cons, Node.ownText_text]

theorem Interjects.alike {e e' : Element} (h : Interjects e e') : e.Alike e' :=
  ⟨h.tag_eq, h.text_eq, by rw [h.children_eq]⟩

theorem Interjects.outside_eq {e e' : Element} (h : Interjects e e') : e'.outside = e.outside := by
  rw [outside, outside, name, name, h.tag_eq]

theorem Reorders.outside_eq {e e' : Element} (h : Reorders e e') : e'.outside = e.outside := by
  rw [outside, outside, name, name, h.tag]

theorem Edited.outside_eq {edit : Element → Element → Prop} {e e' : Element} (h : e.Edited edit e')
    (hedit : ∀ {c c' : Element}, edit c c' → c'.outside = c.outside) : e'.outside = e.outside := by
  cases h with
  | here h => exact hedit h
  | inside h hr => rw [outside, outside, name, name, hr.tag_eq]

/-- Two elements with the same in them, of which the start tags are the same but for the order of the attributes. -/
structure SameButOrder (e e' : Element) : Prop where
  name : e'.tag.name = e.tag.name
  line : e'.tag.line = e.tag.line
  scope : e'.tag.scope = e.tag.scope
  attributes : e'.tag.attributes.Perm e.tag.attributes
  lookup : ∀ name, e'.tag.attributes.lookup name = e.tag.attributes.lookup name
  content : e'.content = e.content

theorem SameButOrder.refl (e : Element) : SameButOrder e e := ⟨rfl, rfl, rfl, .refl _, fun _ => rfl, rfl⟩

variable {e e' : Element}

theorem mem_of_lookup {α β : Type} [BEq α] [LawfulBEq α] {l : List (α × β)} {a : α} {b : β}
    (h : l.lookup a = some b) : (a, b) ∈ l := by
  obtain ⟨before, after, rfl, _⟩ := List.lookup_eq_some_iff.1 h
  simp

/-- Where no attribute has two values, the value of each is the same in any order. -/
theorem Reorders.sameButOrder (h : Reorders e e') : SameButOrder e e' where
  name := by rw [h.tag]
  line := by rw [h.tag]
  scope := by rw [h.tag]
  attributes := h.attributes
  content := h.content
  lookup name := by
    cases hvalue' : e'.tag.attributes.lookup name with
    | none =>
        symm
        rw [List.lookup_eq_none_iff] at hvalue' ⊢
        exact fun entry hmem => hvalue' entry (h.attributes.mem_iff.2 hmem)
    | some value' =>
        have hmem' := h.attributes.mem_iff.1 (mem_of_lookup hvalue')
        cases hvalue : e.tag.attributes.lookup name with
        | none => simpa using List.lookup_eq_none_iff.1 hvalue _ hmem'
        | some value => exact congrArg some (h.single _ hmem' _ (mem_of_lookup hvalue) rfl)

end Element

end Xml

namespace Validation

/-! ### Checks of attributes in another order -/

/-- Two reports tell the same, the findings in any order. -/
structure Report.Agrees (r r' : Report) : Prop where
  findings : r'.findings.Perm r.findings
  checkpoints : r'.checkpoints = r.checkpoints
  breakdown : r'.breakdown? = r.breakdown?

/-- Two checks that find the same behind the same, in any order. -/
def FindAlike (check check' : Report → Report) : Prop := ∀ r r' : Report, r.Agrees r' → (check r).Agrees (check' r')

section

variable {s : Settings}

theorem Report.Agrees.stops_eq {r r' : Report} (h : r.Agrees r') : s.stops r' = s.stops r := by
  rw [Settings.stops, Settings.stops, h.breakdown, h.checkpoints]

theorem Report.Agrees.refl (r : Report) : r.Agrees r := ⟨.refl _, rfl, rfl⟩

theorem Report.Agrees.trans {r r' r'' : Report} (h : r.Agrees r') (h' : r'.Agrees r'') : r.Agrees r'' :=
  ⟨h'.findings.trans h.findings, h'.checkpoints.trans h.checkpoints, h'.breakdown.trans h.breakdown⟩

namespace FindAlike

variable {check check' later later' : Report → Report}

theorem nothing : FindAlike (fun r => r) fun r => r := fun _ _ h => h

theorem comp (h : FindAlike later later') (h' : FindAlike check check') :
    FindAlike (fun r => later (check r)) fun r => later' (check' r) := fun r r' hr => h _ _ (h' r r' hr)

theorem breakIf (h : FindAlike check check') (happens : Bool) (cause : Breakdown) :
    FindAlike (fun r => (check r).breakIf happens cause) fun r => (check' r).breakIf happens cause := by
  intro r r' hr
  obtain ⟨hfindings, hcheckpoints, hbreakdown⟩ := h r r' hr
  cases happens with
  | false => exact ⟨hfindings, hcheckpoints, hbreakdown⟩
  | true => exact ⟨hfindings, hcheckpoints, by simp only [Report.breakIf, if_true, hbreakdown]⟩

theorem addFindings (h : FindAlike check check') {findings findings' : List Finding} (hp : findings'.Perm findings) :
    FindAlike (fun r => (check r).addFindings findings) fun r => (check' r).addFindings findings' := by
  intro r r' hr
  have hadd : FindAlike (fun r => { r with findings := findings.reverseAux r.findings })
      fun r => { r with findings := findings'.reverseAux r.findings } := by
    rintro r r' ⟨hfindings, hcheckpoints, hbreakdown⟩
    refine ⟨?_, hcheckpoints, hbreakdown⟩
    simp only [List.reverseAux_eq]
    exact (((List.reverse_perm _).trans hp).trans (List.reverse_perm _).symm).append hfindings
  simp only [Report.addFindings, hp.any_eq]
  exact ((hadd.comp h).breakIf _ _) r r' hr

theorem add (h : FindAlike check check') (line : Nat) (path : Text) (violations : List Violation) :
    FindAlike (fun r => (check r).add line path violations) fun r => (check' r).add line path violations :=
  h.addFindings (.refl _)

theorem addAttributes (h : FindAlike check check') (line : Nat) (path : Text)
    {violations violations' : List AttributeViolation} (hp : violations'.Perm violations) :
    FindAlike (fun r => (check r).addAttributes line path violations)
      fun r => (check' r).addAttributes line path violations' :=
  h.addFindings (hp.map _)

theorem inspect (h : FindAlike check check') {names names' : List Name} (hp : names'.Perm names) :
    FindAlike (fun r => (check r).inspect names) fun r => (check' r).inspect names' := by
  intro r r' hr
  simp only [Report.inspect, hp.all_eq]
  exact h.breakIf _ _ r r' hr

theorem pass (h : FindAlike check check') (n : Nat) :
    FindAlike (fun r => (check r).pass n) fun r => (check' r).pass n := by
  intro r r' hr
  obtain ⟨hfindings, hcheckpoints, hbreakdown⟩ := h r r' hr
  exact ⟨hfindings, congrArg (· + n) hcheckpoints, hbreakdown⟩

theorem ite {c : Prop} [Decidable c] (h : FindAlike check check') (h' : FindAlike later later') :
    FindAlike (fun r => if c then check r else later r) fun r => if c then check' r else later' r := by
  by_cases hc : c <;> simpa only [hc, if_true, if_false]

theorem unlessStopped (h : FindAlike check check') (h' : FindAlike later later') :
    FindAlike (fun r => if s.stops (check r) = true then check r else later (check r))
      fun r => if s.stops (check' r) = true then check' r else later' (check' r) := by
  intro r r' hr
  have hcheck := h r r' hr
  simp only [hcheck.stops_eq]
  split
  · exact hcheck
  · exact h' _ _ hcheck

theorem foldl {α : Type} {step step' : Report → α → Report}
    (hstep : ∀ a, FindAlike (fun r => step r a) fun r => step' r a) (l : List α) (h : FindAlike check check') :
    FindAlike (fun r => l.foldl step (check r)) fun r => l.foldl step' (check' r) := by
  induction l generalizing check check' with
  | nil => exact h
  | cons a l ih => exact ih ((hstep a).comp h)

end FindAlike

variable {d : ElementDeclaration} {path : Text} {depth : Nat} {e e' : Xml.Element}

theorem checkAttributes_perm (h : e.SameButOrder e') (t : ComplexType) (element : Text) :
    (checkAttributes s.schema t element e'.tag).Perm (checkAttributes s.schema t element e.tag) := by
  simp only [checkAttributes, h.attributes.any_eq]
  exact (h.attributes.flatMap_right _).append_right _

theorem refuseAttributes_perm (h : e.SameButOrder e') (element : Text) :
    (refuseAttributes element e'.tag).Perm (refuseAttributes element e.tag) :=
  (h.attributes.filter _).map _

theorem attributeNames_perm (h : e.SameButOrder e') : (attributeNames e'.tag).Perm (attributeNames e.tag) :=
  h.attributes.map _

theorem instanceType_sameButOrder (h : e.SameButOrder e') (element : Text) (declared : TypeDefinition) :
    instanceType s.schema e'.tag element declared = instanceType s.schema e.tag element declared := by
  have hnamespace (lead : Option Text) : typeNamespace? e'.tag lead = typeNamespace? e.tag lead := by
    cases lead <;> simp only [typeNamespace?, Xml.Tag.namespace?, h.scope]
  simp only [instanceType, h.lookup, hnamespace]

theorem nilled_sameButOrder (h : e.SameButOrder e') : nilled e'.tag d = nilled e.tag d := by
  simp only [nilled, h.lookup]

theorem contentModel_sameButOrder (h : e.SameButOrder e') :
    contentModel? s.schema d e'.tag = contentModel? s.schema d e.tag := by
  simp only [contentModel?, nilled_sameButOrder h, instanceType_sameButOrder h]

theorem checkKind_sameButOrder (h : e.SameButOrder e') (r : Report) :
    checkKind s d e' path r = checkKind s d e path r := by
  simp only [checkKind, instanceType_sameButOrder h, nilled_sameButOrder h, h.line]

theorem checkSimpleContent_sameButOrder (h : e.SameButOrder e') (t : SimpleType) (r : Report) :
    checkSimpleContent d t e' path r = checkSimpleContent d t e path r := by
  simp only [checkSimpleContent, Xml.Element.children, Xml.Element.text, h.content, h.line]

theorem findAlike_checkKind (d : ElementDeclaration) (e : Xml.Element) (path : Text) :
    FindAlike (checkKind s d e path) (checkKind s d e path) := by
  have h := (FindAlike.nothing.add e.tag.line path [.abstractElement d.name.localPart]).ite
    (c := d.isAbstract = true) .nothing
  change FindAlike (fun r => checkKind s d e path r) fun r => checkKind s d e path r
  simp only [checkKind]
  generalize instanceType s.schema e.tag d.name.localPart d.type = found
  obtain ⟨type, violations⟩ := found
  have h := h.add e.tag.line path violations
  cases type with
  | simple t => exact h.add _ _ _
  | complex t => exact (FindAlike.ite (h.add _ _ _) h).add _ _ _

theorem findAlike_checkSimpleContent (d : ElementDeclaration) (t : SimpleType) (e : Xml.Element) (path : Text) :
    FindAlike (checkSimpleContent d t e path) (checkSimpleContent d t e path) := by
  unfold checkSimpleContent
  split
  · exact (FindAlike.nothing.inspect (.refl _)).add _ _ _
  · exact FindAlike.nothing.add _ _ _

theorem findAlike_checkContent {tag tag' : Xml.Tag} (h : tag'.line = tag.line) (element : Text)
    (model : Option Particle) (path : Text) (depth : Nat) (children : List Xml.Element) (paths : List Text) :
    FindAlike (checkContent s element model tag path depth children paths)
      (checkContent s element model tag' path depth children paths) := by
  unfold checkContent
  rw [h]
  refine (FindAlike.nothing.pass _).unlessStopped
    ((FindAlike.nothing.breakIf _ _).ite (FindAlike.foldl (fun m => ?_) _ .nothing))
  split <;> exact FindAlike.nothing.add _ _ _

theorem findAlike_checkNil (h : e.SameButOrder e') (type : TypeDefinition) :
    FindAlike (checkNil s d type e path) (checkNil s d type e' path) := by
  have hfound := (FindAlike.nothing.add e.tag.line path [.nilNotEmpty d.name.localPart]).ite
    (c := (!e.children.isEmpty || !(Text.trim e.text).isEmpty) = true) .nothing
  have hfound := (hfound.add e.tag.line path [.nilWithFixed d.name.localPart]).ite (c := d.fixed.isSome = true) hfound
  have hchildren : e'.children = e.children := by rw [Xml.Element.children, h.content]; rfl
  have htext : e'.text = e.text := by rw [Xml.Element.text, h.content]; rfl
  unfold checkNil
  simp only [hchildren, htext, h.line]
  cases type with
  | simple t => exact hfound
  | complex t =>
      exact (hfound.inspect (attributeNames_perm h)).addAttributes _ _ (checkAttributes_perm h t _)

theorem findAlike_checkSimple (h : e.SameButOrder e') (t : SimpleType) :
    FindAlike (checkSimple d t e path) (checkSimple d t e' path) := by
  unfold checkSimple
  simp only [checkSimpleContent_sameButOrder h, h.line]
  exact (findAlike_checkSimpleContent d t e path).comp
    ((FindAlike.nothing.inspect (attributeNames_perm h)).addAttributes _ _ (refuseAttributes_perm h _))

theorem findAlike_checkComplex (h : e.SameButOrder e') (t : ComplexType) (depth : Nat) :
    FindAlike (checkComplex s d t e path depth) (checkComplex s d t e' path depth) := by
  have hfound := (FindAlike.nothing.inspect (attributeNames_perm h)).addAttributes e.tag.line path
    (checkAttributes_perm (s := s) h t d.name.localPart)
  have hchildren : e'.children = e.children := by rw [Xml.Element.children, h.content]; rfl
  have htext : e'.text = e.text := by rw [Xml.Element.text, h.content]; rfl
  unfold checkComplex
  simp only [checkSimpleContent_sameButOrder h, hchildren, htext, h.line]
  cases t.content with
  | simple simple => exact (findAlike_checkSimpleContent d simple e path).comp hfound
  | empty | elementOnly | mixed =>
      exact ((hfound.add _ _ _).inspect (.refl _)).unlessStopped (findAlike_checkContent h.line _ _ _ _ _ _)

variable (s d path depth) in
theorem findAlike_checkType (h : e.SameButOrder e') (type : TypeDefinition) : FindAlike
    (fun r => match type with
      | .simple t => checkSimple d t e path (checkKind s d e path r)
      | .complex t => checkComplex s d t e path depth (checkKind s d e path r))
    fun r => match type with
      | .simple t => checkSimple d t e' path (checkKind s d e path r)
      | .complex t => checkComplex s d t e' path depth (checkKind s d e path r) := by
  cases type with
  | simple t => exact (findAlike_checkSimple h t).comp (findAlike_checkKind d e path)
  | complex t => exact (findAlike_checkComplex h t depth).comp (findAlike_checkKind d e path)

/-- At an element whose attributes are in another order the same is found, in another order. -/
theorem findAlike_checkItself (h : e.SameButOrder e') :
    FindAlike (checkItself s d path depth e) (checkItself s d path depth e') := by
  have htype := findAlike_checkType s d path depth h (instanceType s.schema e.tag d.name.localPart d.type).1
  have hnil : FindAlike
      (fun r => checkNil s d (instanceType s.schema e.tag d.name.localPart d.type).1 e path (checkKind s d e path r))
      fun r => checkNil s d (instanceType s.schema e.tag d.name.localPart d.type).1 e' path
        (checkKind s d e path r) :=
    (findAlike_checkNil h _).comp (findAlike_checkKind d e path)
  have hfound := (FindAlike.nothing.pass 1).unlessStopped (s := s)
    ((FindAlike.nothing.add e.tag.line path [.tooDeep d.name.localPart s.maxDepth]).ite (c := s.maxDepth < depth)
      (hnil.ite (c := (nilled e.tag d).1 = true) htype))
  unfold checkItself
  simp only [instanceType_sameButOrder h, nilled_sameButOrder h, checkKind_sameButOrder h, h.line]
  exact hfound

theorem findAlike_take (step : Step) :
    FindAlike (fun r => Step.take s r step) fun r => Step.take s r step := by
  refine FindAlike.nothing.unlessStopped ?_
  cases step with
  | visit v => exact findAlike_checkItself (.refl v.element)
  | undeclared e path => exact FindAlike.nothing.add _ _ _

theorem findAlike_foldl_take (l : List Step) :
    FindAlike (fun r => l.foldl (Step.take s) r) fun r => l.foldl (Step.take s) r :=
  FindAlike.foldl findAlike_take l .nothing

/-! ### Edits of documents -/

theorem stepsBelow_congr (hchildren : e'.children = e.children)
    (hmodel : contentModel? s.schema d e'.tag = contentModel? s.schema d e.tag) :
    stepsBelow s ⟨e', d, path, depth⟩ = stepsBelow s ⟨e, d, path, depth⟩ := by
  simp only [stepsBelow, Visit.model?, Visit.childPaths, hchildren, hmodel]

theorem doTheSame_of_interjects (h : e.Interjects e') (d : ElementDeclaration) (path : Text) (depth : Nat) :
    DoTheSame s (stepsAt s d path depth e.toNode) (stepsAt s d path depth e'.toNode) := by
  rw [stepsAt_toNode, stepsAt_toNode, stepsBelow_congr h.children_eq (by rw [h.tag_eq])]
  have hvisit : DoTheSame s [.visit ⟨e, d, path, depth⟩] [.visit ⟨e', d, path, depth⟩] := by
    simp only [DoTheSame, List.map_cons, List.map_nil, Step.perform, List.cons.injEq, and_true]
    funext r
    exact checkItself_congr h.alike r
  exact hvisit.append rfl

theorem findAlike_of_sameButOrder (h : e.SameButOrder e') (d : ElementDeclaration) (path : Text) (depth : Nat) :
    FindAlike (fun r => (stepsAt s d path depth e.toNode).foldl (Step.take s) r)
      fun r => (stepsAt s d path depth e'.toNode).foldl (Step.take s) r := by
  have hchildren : e'.children = e.children := by rw [Xml.Element.children, h.content]; rfl
  rw [stepsAt_toNode, stepsAt_toNode, stepsBelow_congr hchildren (contentModel_sameButOrder h)]
  exact (findAlike_foldl_take _).comp (FindAlike.nothing.unlessStopped (findAlike_checkItself h))

theorem doTheSame_of_edited (h : e.Edited Xml.Element.Interjects e') (d : ElementDeclaration) (path : Text)
    (depth : Nat) : DoTheSame s (stepsAt s d path depth e.toNode) (stepsAt s d path depth e'.toNode) := by
  cases h with
  | here h => exact doTheSame_of_interjects h d path depth
  | inside h hr =>
      cases differ_stepsAt (s := s) h.outside_eq hr d path depth with
      | unseen hsame => exact hsame
      | seen before before' after d path depth hbefore hsteps hsteps' =>
          rw [hsteps, hsteps']
          exact hbefore.append ((doTheSame_of_interjects h d path depth).append rfl)

theorem findAlike_of_edited (h : e.Edited Xml.Element.Reorders e') (d : ElementDeclaration) (path : Text)
    (depth : Nat) :
    FindAlike (fun r => (stepsAt s d path depth e.toNode).foldl (Step.take s) r)
      fun r => (stepsAt s d path depth e'.toNode).foldl (Step.take s) r := by
  cases h with
  | here h => exact findAlike_of_sameButOrder h.sameButOrder d path depth
  | inside h hr =>
      cases differ_stepsAt (s := s) h.outside_eq hr d path depth with
      | unseen hsame =>
          simp only [hsame.foldl_take]
          exact findAlike_foldl_take _
      | seen before before' after d path depth hbefore hsteps hsteps' =>
          rw [hsteps, hsteps']
          simp only [List.foldl_append, hbefore.foldl_take]
          exact (findAlike_foldl_take after).comp
            ((findAlike_of_sameButOrder h.sameButOrder d path depth).comp (findAlike_foldl_take before))

theorem checkDocument_interjects {root root' : Xml.Element} (h : root.Edited Xml.Element.Interjects root')
    (r : Report) : checkDocument s root' r = checkDocument s root r := by
  obtain ⟨hname, hline⟩ := Prod.mk.inj (h.outside_eq fun h => h.outside_eq)
  cases hd : s.schema.element? root.name with
  | none => simp only [checkDocument, hname, hd, hline]
  | some d =>
      rw [checkDocument_eq_foldl s root r (by rw [hd]; rfl), checkDocument_eq_foldl s root' r (by rw [hname, hd]; rfl)]
      simp only [steps, hname, hd]
      exact (doTheSame_of_edited h d _ 1).foldl_take _

theorem findAlike_checkDocument {root root' : Xml.Element} (h : root.Edited Xml.Element.Reorders root') :
    FindAlike (checkDocument s root) (checkDocument s root') := by
  obtain ⟨hname, hline⟩ := Prod.mk.inj (h.outside_eq fun h => h.outside_eq)
  have hroot : FindAlike (fun r => r.inspect [root.name]) fun r => r.inspect [root.name] :=
    FindAlike.nothing.inspect (.refl _)
  intro r r' hr
  cases hd : s.schema.element? root.name with
  | none =>
      simp only [checkDocument, hname, hd, hline]
      exact hroot.unlessStopped (FindAlike.nothing.add _ _ _) r r' hr
  | some d =>
      rw [checkDocument_eq_foldl s root r (by rw [hd]; rfl), checkDocument_eq_foldl s root' r' (by rw [hname, hd]; rfl)]
      simp only [steps, hname, hd]
      exact (findAlike_of_edited h d _ 1).comp hroot r r' hr

end

/-- How a document is written makes no difference. Comments and instructions may be put between the nodes of any
elements and into any texts, or be taken away, and the same is found in the same order; the attributes of any elements
may be put in another order, and the same is found, in some order. Either way the run passes as many checkpoints and
ends for the same reason. -/
theorem presentation_irrelevant (s : Settings) (root : Xml.Element) (r : Report) :
    (∀ root', Relation.EqvGen (Xml.Element.Edited Xml.Element.Interjects) root root' →
      checkDocument s root' r = checkDocument s root r) ∧
    ∀ root', Relation.ReflTransGen (Xml.Element.Edited Xml.Element.Reorders) root root' →
      (checkDocument s root' r).inOrder.Perm (checkDocument s root r).inOrder ∧
      (checkDocument s root' r).checkpoints = (checkDocument s root r).checkpoints ∧
      (checkDocument s root' r).breakdown? = (checkDocument s root r).breakdown? := by
  constructor
  · intro root' h
    induction h with
    | rel root root' h => exact checkDocument_interjects h r
    | refl root => rfl
    | symm root root' h ih => exact ih.symm
    | trans root middle root' h h' ih ih' => exact ih'.trans ih
  · intro root' h
    have hagrees : (checkDocument s root r).Agrees (checkDocument s root' r) := by
      induction h with
      | refl => exact .refl _
      | tail h hlast ih => exact ih.trans (findAlike_checkDocument hlast r r (.refl r))
    obtain ⟨hfindings, hcheckpoints, hbreakdown⟩ := hagrees
    exact ⟨((List.reverse_perm _).trans hfindings).trans (List.reverse_perm _).symm, hcheckpoints, hbreakdown⟩

theorem presentation_irrelevant_note :
    let s : Settings := ⟨noteRules, 256, none⟩
    let noteWith (attributes : List (Name × Text)) (content : List Xml.Node) : Xml.Element :=
      ⟨⟨⟨[], "note"⟩, 1, attributes, []⟩, content⟩
    let sort : Name × Text := (⟨[], "sort"⟩, "memo")
    let urgent : Name × Text := (⟨[], "urgent"⟩, "no")
    let root := noteWith [sort, urgent] note.content
    let commented := noteWith [sort, urgent] (.comment "draft" 1 :: note.content)
    let reordered := noteWith [urgent, sort] note.content
    Relation.EqvGen (Xml.Element.Edited Xml.Element.Interjects) root commented ∧
    Relation.ReflTransGen (Xml.Element.Edited Xml.Element.Reorders) root reordered ∧
    checkDocument s commented {} = checkDocument s root {} ∧
    (checkDocument s reordered {}).inOrder.Perm (checkDocument s root {}).inOrder := by
  intro s noteWith sort urgent root commented reordered
  have hcomment : Relation.EqvGen (Xml.Element.Edited Xml.Element.Interjects) root commented :=
    .rel _ _ (.here (.between _ [] note.content (.comment "draft" 1) rfl))
  have hsingle : root.tag.IsSingleValued := by
    unfold Xml.Tag.IsSingleValued
    decide
  have hreorder : Relation.ReflTransGen (Xml.Element.Edited Xml.Element.Reorders) root reordered :=
    .single (.here ⟨hsingle, .swap _ _ _, rfl, rfl⟩)
  exact ⟨hcomment, hreorder, (presentation_irrelevant s root {}).1 commented hcomment,
    ((presentation_irrelevant s root {}).2 reordered hreorder).1⟩

end Validation

end XmlSchema
