import XmlSchema.Proofs.Validation.Coverage

/-!
What is found in an element depends on nothing else in the document, and what is found elsewhere does not depend on it.
A run that is not stopped finds the same from wherever it starts, so the findings about a document are those of its
steps, one after the other; and of an element that is replaced the steps at other elements see only name and line.
-/

namespace XmlSchema

namespace Xml.Element

/-- The second element is the first one with `c'` where `c` stands somewhere in it. -/
inductive Replaces (c c' : Element) : Element → Element → Prop
  | here (tag : Tag) (before after : List Node) :
      Replaces c c' ⟨tag, before ++ c.toNode :: after⟩ ⟨tag, before ++ c'.toNode :: after⟩
  | deeper {e e' : Element} (tag : Tag) (before after : List Node) (h : Replaces c c' e e') :
      Replaces c c' ⟨tag, before ++ e.toNode :: after⟩ ⟨tag, before ++ e'.toNode :: after⟩

theorem Replaces.tag_eq {c c' e e' : Element} (h : Replaces c c' e e') : e'.tag = e.tag := by
  cases h <;> rfl

/-- What is seen of an element from outside. -/
def outside (e : Element) : Name × Nat := (e.name, e.tag.line)

/-- Two elements cannot be told apart without looking into the elements that stand in them. -/
structure Alike (e e' : Element) : Prop where
  tag : e'.tag = e.tag
  text : e'.text = e.text
  children : e'.children.map outside = e.children.map outside

theorem toElement?_toNode (e : Element) : e.toNode.toElement? = some e := rfl

theorem children_append_cons (tag : Tag) (before after : List Node) (e : Element) :
    (⟨tag, before ++ e.toNode :: after⟩ : Element).children =
      before.filterMap Node.toElement? ++ e :: after.filterMap Node.toElement? := by
  rw [children, List.filterMap_append, List.filterMap_cons_some (toElement?_toNode e)]

theorem alike_append_cons (tag : Tag) (before after : List Node) {e e' : Element} (h : e'.outside = e.outside) :
    Alike ⟨tag, before ++ e.toNode :: after⟩ ⟨tag, before ++ e'.toNode :: after⟩ where
  tag := rfl
  text := by simp only [text, List.flatMap_append, List.flatMap_cons]; rfl
  children := by simp only [children_append_cons, List.map_append, List.map_cons, h]

namespace Alike

variable {e e' : Element}

theorem names (h : Alike e e') : e'.children.map (·.name) = e.children.map (·.name) := by
  have := congrArg (List.map Prod.fst) h.children
  rwa [List.map_map, List.map_map] at this

theorem isEmpty (h : Alike e e') : e'.children.isEmpty = e.children.isEmpty := by
  have := congrArg List.isEmpty h.children
  rwa [List.isEmpty_map, List.isEmpty_map] at this

theorem line (h : Alike e e') (i : Nat) :
    e'.children[i]?.map (·.tag.line) = e.children[i]?.map (·.tag.line) := by
  have := congrArg (fun l => (l[i]?).map Prod.snd) h.children
  simp only [List.getElem?_map, Option.map_map] at this
  exact this

end Alike

end Xml.Element

namespace Validation

/-! ### Reports behind others -/

/-- The report behind an earlier one. -/
def Report.behind (r earlier : Report) : Report :=
  { r with findings := r.findings ++ earlier.findings, checkpoints := r.checkpoints + earlier.checkpoints }

section

variable {s : Settings} {r earlier : Report}

theorem stops_mono {later : Report} (hb : r.breakdown? = later.breakdown?) (hle : r.checkpoints ≤ later.checkpoints)
    (h : s.stops r = true) : s.stops later = true := by
  rw [Settings.stops, Bool.or_eq_true] at h ⊢
  refine h.imp (fun h => hb ▸ h) fun h => ?_
  cases ha : s.allowance with
  | none => simp [ha] at h
  | some allowed =>
      simp only [ha, Option.any_some, decide_eq_true_eq] at h ⊢
      omega

theorem not_stops_of_behind (h : s.stops (r.behind earlier) = false) : s.stops r = false := by
  by_contra hn
  have hs : s.stops (r.behind earlier) = true :=
    stops_mono (by rfl) (Nat.le_add_right r.checkpoints _) (by simpa using hn)
  exact nomatch hs.symm.trans h

theorem behind_of_not_stops (h : s.stops r = false) : r = ({} : Report).behind r := by
  obtain ⟨findings, checkpoints, breakdown⟩ := r
  rw [Settings.stops, Bool.or_eq_false_iff] at h
  cases breakdown with
  | none => simp [Report.behind]
  | some cause => cases h.1

theorem breakIf_behind (happens : Bool) (cause : Breakdown) :
    (r.behind earlier).breakIf happens cause = (r.breakIf happens cause).behind earlier := by
  cases happens <;> rfl

theorem addFindings_behind (findings : List Finding) :
    (r.behind earlier).addFindings findings = (r.addFindings findings).behind earlier := by
  rw [Report.addFindings, Report.addFindings, ← breakIf_behind]
  simp [Report.behind, List.reverseAux_eq]

theorem stops_breakIf {happens : Bool} {cause : Breakdown} (h : s.stops r = true) :
    s.stops (r.breakIf happens cause) = true := by
  cases happens with
  | false => exact h
  | true =>
      simp only [Report.breakIf, if_true, Settings.stops, Bool.or_eq_true]
      left
      cases r.breakdown? <;> rfl

/-- A check only adds to what has been found, and adds the same behind any report. A run that is stopped remains
stopped. -/
structure Adds (s : Settings) (check : Report → Report) : Prop where
  stopped : ∀ r, s.stops r = true → s.stops (check r) = true
  behind : ∀ r earlier, s.stops (check (r.behind earlier)) = false →
    check (r.behind earlier) = (check r).behind earlier

namespace Adds

variable {check later : Report → Report}

theorem nothing : Adds s fun r => r := ⟨fun _ h => h, fun _ _ _ => rfl⟩

theorem comp (h' : Adds s later) (h : Adds s check) : Adds s fun r => later (check r) where
  stopped r hr := h'.stopped _ (h.stopped r hr)
  behind r earlier hr := by
    have hs : s.stops (check (r.behind earlier)) = false := by
      by_contra hn
      rw [h'.stopped _ (by simpa using hn)] at hr
      exact nomatch hr
    rw [h.behind r earlier hs] at hr ⊢
    exact h'.behind _ _ hr

theorem breakIf (h : Adds s check) (happens : Bool) (cause : Breakdown) :
    Adds s fun r => (check r).breakIf happens cause :=
  comp ⟨fun _ => stops_breakIf, fun _ _ _ => breakIf_behind _ _⟩ h

theorem addFindings (h : Adds s check) (findings : List Finding) : Adds s fun r => (check r).addFindings findings := by
  have hadd : Adds s fun r => r.addFindings findings :=
    ⟨fun _ hr => stops_breakIf hr, fun _ _ _ => addFindings_behind _⟩
  exact hadd.comp h

theorem add (h : Adds s check) (line : Nat) (path : Text) (violations : List Violation) :
    Adds s fun r => (check r).add line path violations := h.addFindings _

theorem addAttributes (h : Adds s check) (line : Nat) (path : Text) (violations : List AttributeViolation) :
    Adds s fun r => (check r).addAttributes line path violations := h.addFindings _

theorem inspect (h : Adds s check) (names : List Name) : Adds s fun r => (check r).inspect names := h.breakIf _ _

theorem pass (h : Adds s check) (n : Nat) : Adds s fun r => (check r).pass n := by
  have hpass : Adds s fun r => r.pass n :=
    ⟨fun r => stops_mono rfl (Nat.le_add_right r.checkpoints n), fun r earlier _ => by
      simp [Report.pass, Report.behind, Nat.add_right_comm]⟩
  exact hpass.comp h

theorem ite {c : Prop} [Decidable c] (h : Adds s check) (h' : Adds s later) :
    Adds s fun r => if c then check r else later r := by
  by_cases hc : c <;> simpa only [hc, if_true, if_false]

/-- A check that is not made once the run is stopped. -/
theorem unlessStopped (h : Adds s check) (h' : Adds s later) :
    Adds s fun r => if s.stops (check r) = true then check r else later (check r) where
  stopped r hr := by
    rw [if_pos (h.stopped r hr)]
    exact h.stopped r hr
  behind r earlier hr := by
    split at hr
    · next hs => exact nomatch hs.symm.trans hr
    · next hs =>
        have hs' := Bool.eq_false_iff.2 hs
        have hcheck := h.behind r earlier hs'
        rw [hcheck] at hs'
        rw [if_neg hs, if_neg (by simp [not_stops_of_behind hs'])]
        exact (h'.comp h).behind r earlier hr

theorem foldl {α : Type} {step : Report → α → Report} (hstep : ∀ a, Adds s fun r => step r a) (l : List α)
    (h : Adds s check) : Adds s fun r => l.foldl step (check r) := by
  induction l generalizing check with
  | nil => exact h
  | cons a l ih => exact ih ((hstep a).comp h)

end Adds

/-! ### Every step adds -/

variable {d : ElementDeclaration} {path : Text} {depth : Nat} {e e' : Xml.Element}

theorem adds_checkContent (element : Text) (model : Option Particle) (tag : Xml.Tag) (path : Text) (depth : Nat)
    (children : List Xml.Element) (paths : List Text) :
    Adds s (checkContent s element model tag path depth children paths) := by
  unfold checkContent
  refine (Adds.nothing.pass _).unlessStopped ((Adds.nothing.breakIf _ _).ite (Adds.foldl (fun m => ?_) _ .nothing))
  split <;> exact Adds.nothing.add _ _ _

theorem adds_checkSimpleContent (t : SimpleType) : Adds s (checkSimpleContent d t e path) := by
  unfold checkSimpleContent
  split
  · exact (Adds.nothing.inspect _).add _ _ _
  · exact Adds.nothing.add _ _ _

theorem adds_checkNil (type : TypeDefinition) : Adds s (checkNil s d type e path) := by
  have h := ((Adds.nothing (s := s)).add e.tag.line path [.nilNotEmpty d.name.localPart]).ite
    (c := (!e.children.isEmpty || !(Text.trim e.text).isEmpty) = true) .nothing
  have h := (h.add e.tag.line path [.nilWithFixed d.name.localPart]).ite (c := d.fixed.isSome = true) h
  cases type with
  | simple t => exact h
  | complex t => exact (h.inspect _).addAttributes _ _ _

theorem adds_checkKind : Adds s (checkKind s d e path) := by
  have h := ((Adds.nothing (s := s)).add e.tag.line path [.abstractElement d.name.localPart]).ite
    (c := d.isAbstract = true) .nothing
  change Adds s fun r => checkKind s d e path r
  simp only [checkKind]
  generalize instanceType s.schema e.tag d.name.localPart d.type = found
  obtain ⟨type, violations⟩ := found
  have h := h.add e.tag.line path violations
  cases type with
  | simple t => exact h.add _ _ _
  | complex t => exact (Adds.ite (h.add _ _ _) h).add _ _ _

theorem adds_checkSimple (t : SimpleType) : Adds s (checkSimple d t e path) :=
  (adds_checkSimpleContent t).comp ((Adds.nothing.inspect _).addAttributes _ _ _)

theorem adds_checkComplex (t : ComplexType) (depth : Nat) : Adds s (checkComplex s d t e path depth) := by
  have h := ((Adds.nothing (s := s)).inspect (attributeNames e.tag)).addAttributes e.tag.line path
    (checkAttributes s.schema t d.name.localPart e.tag)
  unfold checkComplex
  cases t.content with
  | simple simple => exact (adds_checkSimpleContent simple).comp h
  | empty | elementOnly | mixed =>
      exact ((h.add _ _ _).inspect _).unlessStopped (adds_checkContent _ _ _ _ _ _ _)

theorem adds_checkType (type : TypeDefinition) : Adds s fun r => match type with
    | .simple t => checkSimple d t e path (checkKind s d e path r)
    | .complex t => checkComplex s d t e path depth (checkKind s d e path r) := by
  cases type with
  | simple t => exact (adds_checkSimple t).comp adds_checkKind
  | complex t => exact (adds_checkComplex t depth).comp adds_checkKind

theorem adds_checkItself : Adds s (checkItself s d path depth e) := by
  have hnil : Adds s fun r =>
      checkNil s d (instanceType s.schema e.tag d.name.localPart d.type).1 e path (checkKind s d e path r) :=
    (adds_checkNil _).comp adds_checkKind
  exact (Adds.nothing.pass 1).unlessStopped ((Adds.nothing.add _ _ _).ite (hnil.ite (adds_checkType _)))

theorem adds_take (step : Step) : Adds s fun r => Step.take s r step := by
  refine (Adds.nothing (s := s)).unlessStopped ?_
  cases step with
  | visit v => exact adds_checkItself
  | undeclared e path => exact Adds.nothing.add _ _ _

/-- What a list of steps finds when they are taken from the beginning. -/
def findingsOf (s : Settings) (steps : List Step) : List Finding := (steps.foldl (Step.take s) {}).inOrder

theorem not_stops_of_foldl_take {l : List Step} (h : s.stops (l.foldl (Step.take s) r) = false) :
    s.stops r = false := by
  by_contra hn
  rw [(Adds.foldl adds_take l .nothing).stopped r (by simpa using hn)] at h
  exact nomatch h

/-- The findings of a run that is not stopped come one step after the other. -/
theorem inOrder_foldl_take {l : List Step} (h : s.stops (l.foldl (Step.take s) r) = false) :
    (l.foldl (Step.take s) r).inOrder = r.inOrder ++ findingsOf s l := by
  have hr := behind_of_not_stops (not_stops_of_foldl_take h)
  rw [hr] at h
  calc (l.foldl (Step.take s) r).inOrder
      = ((l.foldl (Step.take s) {}).behind r).inOrder := by
        rw [← (Adds.foldl adds_take l .nothing).behind _ _ h, ← hr]
    _ = r.inOrder ++ findingsOf s l := by rw [Report.inOrder, Report.behind, List.reverse_append]; rfl

/-- In a run that is not stopped no step would stop one of its own. -/
theorem not_stops_of_mem {l : List Step} {step : Step} (h : s.stops (l.foldl (Step.take s) r) = false)
    (hstep : step ∈ l) : s.stops (step.take s {}) = false := by
  obtain ⟨before, after, rfl⟩ := List.append_of_mem hstep
  rw [List.foldl_append, List.foldl_cons] at h
  have htaken := not_stops_of_foldl_take h
  have hbefore := not_stops_of_foldl_take (l := [step]) htaken
  generalize before.foldl (Step.take s) r = earlier at htaken hbefore
  rw [behind_of_not_stops hbefore] at htaken
  rw [(adds_take step).behind _ _ htaken] at htaken
  exact not_stops_of_behind htaken

/-- The findings of a run that is not stopped are those of its steps, each by itself. -/
theorem inOrder_eq_flatMap {l : List Step} (h : s.stops (l.foldl (Step.take s) r) = false) :
    (l.foldl (Step.take s) r).inOrder = r.inOrder ++ l.flatMap fun step => findingsOf s [step] := by
  induction l generalizing r with
  | nil => simp
  | cons step l ih =>
      rw [List.foldl_cons] at h ⊢
      have hstep : (step.take s r).inOrder = r.inOrder ++ findingsOf s [step] :=
        inOrder_foldl_take (l := [step]) (not_stops_of_foldl_take h)
      rw [ih h, hstep, List.flatMap_cons, List.append_assoc]

theorem findingsOf_stepsAt (node : Xml.Node) :
    findingsOf s (stepsAt s d path depth node) = (checkElement s d path depth {} node).inOrder := by
  rw [checkElement_eq_foldl node d path depth {} not_stops_empty]
  rfl

/-! ### What a step sees -/

theorem checkContent_congr {e e' : Xml.Element} (h : e.Alike e') (element : Text) (model : Option Particle)
    (tag : Xml.Tag) (path : Text) (depth : Nat) (paths : List Text) (r : Report) :
    checkContent s element model tag path depth e'.children paths r =
      checkContent s element model tag path depth e.children paths r := by
  simp only [checkContent, h.names]
  split
  · rfl
  · split
    · rfl
    congr 1
    funext r m
    cases hm : m.index? with
    | none => rfl
    | some i =>
        have hline := h.line i
        simp only [Option.bind_some, List.getElem?_toArray]
        cases he : e.children[i]? with
        | none =>
            obtain he' : e'.children[i]? = none := by simpa [he] using hline
            rw [he']
        | some child =>
            obtain ⟨child', he', hc⟩ : ∃ child', e'.children[i]? = some child' ∧ child'.tag.line = child.tag.line := by
              simpa [he, Option.map_eq_some_iff] using hline
            rw [he']
            cases paths[i]? with
            | none => rfl
            | some childPath => simp only [Option.bind_eq_bind, Option.bind_some, Option.pure_def, hc]

theorem checkSimpleContent_congr {e e' : Xml.Element} (h : e.Alike e') (t : SimpleType) (r : Report) :
    checkSimpleContent d t e' path r = checkSimpleContent d t e path r := by
  have hchildren := h.children
  rw [checkSimpleContent, checkSimpleContent]
  cases he : e.children with
  | nil =>
      obtain he' : e'.children = [] := by simpa [he] using hchildren
      simp only [he', h.tag, h.text]
  | cons child later =>
      cases he' : e'.children with
      | nil => simp [he, he'] at hchildren
      | cons child' later' =>
          simp only [he, he', List.map_cons, List.cons.injEq, Xml.Element.outside, Prod.mk.injEq] at hchildren
          simp only [hchildren.1.1, hchildren.1.2]

/-- What is found at an element does not depend on what is in the elements that stand in it. -/
theorem checkItself_congr {e e' : Xml.Element} (h : e.Alike e') (r : Report) :
    checkItself s d path depth e' r = checkItself s d path depth e r := by
  have hkind (r : Report) : checkKind s d e' path r = checkKind s d e path r := by simp only [checkKind, h.tag]
  simp only [checkItself, h.tag, hkind]
  split
  · rfl
  · split
    · rfl
    · split
      · simp only [checkNil, h.tag, h.text, h.isEmpty]
      · cases (instanceType s.schema e.tag d.name.localPart d.type).1 with
        | simple t => simp only [checkSimple, checkSimpleContent_congr h, h.tag]
        | complex t =>
            simp only [checkComplex, h.tag, h.text, h.isEmpty, h.names, checkContent_congr h,
              checkSimpleContent_congr h]

/-- Two lists of steps that do the same to every report. -/
def DoTheSame (s : Settings) (steps steps' : List Step) : Prop :=
  steps'.map (fun step r => Step.perform s r step) = steps.map (fun step r => Step.perform s r step)

theorem DoTheSame.append {steps steps' later later' : List Step} (h : DoTheSame s steps steps')
    (h' : DoTheSame s later later') : DoTheSame s (steps ++ later) (steps' ++ later') := by
  rw [DoTheSame, List.map_append, List.map_append, h, h']

theorem DoTheSame.foldl_take {steps steps' : List Step} (h : DoTheSame s steps steps') (r : Report) :
    steps'.foldl (Step.take s) r = steps.foldl (Step.take s) r := by
  have hfold (steps : List Step) (r : Report) : steps.foldl (Step.take s) r =
      (steps.map (fun step r => Step.perform s r step)).foldl (fun r f => if s.stops r then r else f r) r := by
    rw [List.foldl_map]
    rfl
  rw [hfold, hfold, h]

/-- The steps at an element and those at the element that replaces it, among other steps that do the same in both
runs. -/
inductive Differ (s : Settings) (c c' : Xml.Element) (steps steps' : List Step) : Prop
  | unseen (h : DoTheSame s steps steps')
  | seen (before before' after : List Step) (d : ElementDeclaration) (path : Text) (depth : Nat)
      (h : DoTheSame s before before') (hsteps : steps = before ++ (stepsAt s d path depth c.toNode ++ after))
      (hsteps' : steps' = before' ++ (stepsAt s d path depth c'.toNode ++ after))

theorem Differ.among {c c' : Xml.Element} {steps steps' before before' after : List Step}
    (h : Differ s c c' steps steps') (hb : DoTheSame s before before') :
    Differ s c c' (before ++ (steps ++ after)) (before' ++ (steps' ++ after)) := by
  cases h with
  | unseen h => exact .unseen (hb.append (h.append rfl))
  | seen first first' later d path depth h hsteps hsteps' =>
      refine .seen (before ++ first) (before' ++ first') (later ++ after) d path depth (hb.append h) ?_ ?_
      · simp only [hsteps, List.append_assoc]
      · simp only [hsteps', List.append_assoc]

theorem differ_stepsAmong {c c' e e' : Xml.Element} (hout : e'.outside = e.outside)
    (h : ∀ d path depth, Differ s c c' (stepsAt s d path depth e.toNode) (stepsAt s d path depth e'.toNode))
    (leaves : List Particle) (depth : Nat) (before after : List Xml.Node) (paths : List Text) {first first' : List Step}
    (hf : DoTheSame s first first') :
    Differ s c c' (first ++ stepsAmong s leaves depth paths (before ++ e.toNode :: after))
      (first' ++ stepsAmong s leaves depth paths (before ++ e'.toNode :: after)) := by
  obtain ⟨hname, hline⟩ := Prod.mk.inj hout
  induction before generalizing paths first first' with
  | nil =>
      cases paths with
      | nil => simpa only [List.nil_append, stepsAmong, Xml.Element.toElement?_toNode] using .unseen (hf.append rfl)
      | cons path paths =>
          simp only [List.nil_append, stepsAmong, Xml.Element.toElement?_toNode]
          refine Differ.among ?_ hf
          rw [hname]
          cases treatment s.schema leaves e.name with
          | check d => exact h d path depth
          | undeclared => exact .unseen (by simp [DoTheSame, Step.perform, hname, hline])
          | ignore => exact .unseen rfl
  | cons node before ih =>
      cases hn : node.toElement? with
      | none => simpa only [List.cons_append, stepsAmong, hn] using ih paths hf
      | some other =>
          cases paths with
          | nil => simpa only [List.cons_append, stepsAmong, hn] using ih [] hf
          | cons path paths =>
              simp only [List.cons_append, stepsAmong, hn, ← List.append_assoc]
              exact ih paths (hf.append rfl)

theorem differ_stepsAt {c c' e e' : Xml.Element} (hc : c'.outside = c.outside) (h : c.Replaces c' e e') :
    ∀ d path depth, Differ s c c' (stepsAt s d path depth e.toNode) (stepsAt s d path depth e'.toNode) := by
  have level (tag : Xml.Tag) (before after : List Xml.Node) {e e' : Xml.Element} (hout : e'.outside = e.outside)
      (h : ∀ d path depth, Differ s c c' (stepsAt s d path depth e.toNode) (stepsAt s d path depth e'.toNode))
      (d : ElementDeclaration) (path : Text) (depth : Nat) :
      Differ s c c' (stepsAt s d path depth (.element tag (before ++ e.toNode :: after)))
        (stepsAt s d path depth (.element tag (before ++ e'.toNode :: after))) := by
    have halike := Xml.Element.alike_append_cons tag before after hout
    have hfirst : DoTheSame s [.visit ⟨⟨tag, before ++ e.toNode :: after⟩, d, path, depth⟩]
        [.visit ⟨⟨tag, before ++ e'.toNode :: after⟩, d, path, depth⟩] := by
      simp only [DoTheSame, List.map_cons, List.map_nil, Step.perform, List.cons.injEq, and_true]
      funext r
      exact checkItself_congr halike r
    rw [stepsAt, stepsAt]
    simp only [Visit.model?, Visit.childPaths, halike.names]
    split
    · exact differ_stepsAmong hout h _ _ _ _ _ hfirst
    · exact .unseen hfirst
  induction h with
  | here tag before after =>
      exact level tag before after hc fun d path depth => .seen [] [] [] d path depth rfl (by simp) (by simp)
  | deeper tag before after h ih =>
      refine level tag before after ?_ ih
      rw [Xml.Element.outside, Xml.Element.outside, Xml.Element.name, Xml.Element.name, h.tag_eq]

end

/-- Validation is local. If an element somewhere in a document is replaced by another one of the same name, on the same
line, and neither run is stopped, the same is found before and behind; in between, either nothing is found about the two
elements, or what is found about each alone, checked against one declaration, at one path and depth. -/
theorem findings_local {s : Settings} {root root' c c' : Xml.Element} (r : Report) (h : c.Replaces c' root root')
    (hname : c'.name = c.name) (hline : c'.tag.line = c.tag.line) (hend : s.stops (checkDocument s root r) = false)
    (hend' : s.stops (checkDocument s root' r) = false) :
    ∃ before found found' after, (checkDocument s root r).inOrder = before ++ found ++ after ∧
      (checkDocument s root' r).inOrder = before ++ found' ++ after ∧
      (found = [] ∧ found' = [] ∨ ∃ d path depth,
        found = (checkElement s d path depth {} c.toNode).inOrder ∧
        found' = (checkElement s d path depth {} c'.toNode).inOrder) := by
  have hroot : root'.name = root.name := by rw [Xml.Element.name, h.tag_eq]; rfl
  cases hd : s.schema.element? root.name with
  | none =>
      refine ⟨(checkDocument s root r).inOrder, [], [], [], by simp, ?_, .inl ⟨rfl, rfl⟩⟩
      simp [checkDocument, hroot, hd, h.tag_eq]
  | some d =>
      have hfold := checkDocument_eq_foldl s root r (by rw [hd]; rfl)
      have hfold' := checkDocument_eq_foldl s root' r (by rw [hroot, hd]; rfl)
      have hsteps : steps s root = stepsAt s d (rootPath root.name) 1 root.toNode := by rw [steps, hd]
      have hsteps' : steps s root' = stepsAt s d (rootPath root.name) 1 root'.toNode := by rw [steps, hroot, hd]
      rw [hsteps] at hfold
      rw [hsteps', hroot] at hfold'
      rw [hfold] at hend ⊢
      rw [hfold'] at hend' ⊢
      cases differ_stepsAt (s := s) (Prod.ext hname hline) h d (rootPath root.name) 1 with
      | unseen hsame =>
          refine ⟨((stepsAt s d (rootPath root.name) 1 root.toNode).foldl (Step.take s)
              (r.inspect [root.name])).inOrder,
            [], [], [], by simp, ?_, .inl ⟨rfl, rfl⟩⟩
          rw [hsame.foldl_take, List.append_nil, List.append_nil]
      | seen before before' after d path depth hsame hsteps hsteps' =>
          rw [hsteps, List.foldl_append, List.foldl_append] at hend ⊢
          rw [hsteps', List.foldl_append, List.foldl_append, hsame.foldl_take] at hend' ⊢
          have hmiddle := not_stops_of_foldl_take hend
          have hmiddle' := not_stops_of_foldl_take hend'
          refine ⟨(before.foldl (Step.take s) (r.inspect [root.name])).inOrder, _, _, findingsOf s after, ?_, ?_,
            .inr ⟨d, path, depth, findingsOf_stepsAt _, findingsOf_stepsAt _⟩⟩
          · rw [inOrder_foldl_take hend, inOrder_foldl_take hmiddle]
          · rw [inOrder_foldl_take hend', inOrder_foldl_take hmiddle']

theorem findings_local_note :
    let s : Settings := ⟨noteRules, 256, none⟩
    let addressee (content : List Xml.Node) : Xml.Element := ⟨⟨⟨[], "to"⟩, 1, [], []⟩, content⟩
    let noteTo (e : Xml.Element) : Xml.Element := ⟨note.tag, [e.toNode, .element ⟨⟨"u", "sent"⟩, 1, [], []⟩ []]⟩
    let named := addressee [.text "Ann" 1]
    s.stops (checkDocument s (noteTo (addressee [])) {}) = false ∧ s.stops (checkDocument s (noteTo named) {}) = false ∧
    ∃ before found found' after, (checkDocument s (noteTo (addressee [])) {}).inOrder = before ++ found ++ after ∧
      (checkDocument s (noteTo named) {}).inOrder = before ++ found' ++ after ∧
      (found = [] ∧ found' = [] ∨ ∃ d path depth,
        found = (checkElement s d path depth {} (addressee []).toNode).inOrder ∧
        found' = (checkElement s d path depth {} named.toNode).inOrder) := by
  intro s addressee noteTo named
  have hend : s.stops (checkDocument s (noteTo (addressee [])) {}) = false := by cbv
  have hend' : s.stops (checkDocument s (noteTo named) {}) = false := by cbv
  exact ⟨hend, hend', findings_local {} (.here note.tag [] [.element ⟨⟨"u", "sent"⟩, 1, [], []⟩ []]) rfl rfl hend hend'⟩

end Validation

end XmlSchema
