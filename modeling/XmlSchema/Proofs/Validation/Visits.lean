import XmlSchema.Validation.Document

/-!
A run over a document as a list of steps, which the document and the schema determine: the elements that are checked,
each against its declaration, and those that lack one. The run takes one step after the other until it is stopped.
-/

namespace XmlSchema

namespace Xml.Node

/-- Induction over nodes: what holds of an element may be shown from what holds of the nodes in it. -/
@[elab_as_elim]
theorem induct {P : Node → Prop} (leaf : ∀ node, node.toElement? = none → P node)
    (element : ∀ tag content, (∀ node ∈ content, P node) → P (.element tag content)) (node : Node) : P node :=
  Node.rec (motive_1 := P) (motive_2 := fun nodes => ∀ node ∈ nodes, P node) (fun _ _ => leaf _ rfl)
    (fun _ _ => leaf _ rfl) (fun _ _ _ => leaf _ rfl) element (by simp)
    (fun _ _ h hs => List.forall_mem_cons.2 ⟨h, hs⟩) node

end Xml.Node

namespace Validation

/-- An element that is checked, with the declaration that it is checked against, its path and its depth. -/
structure Visit where
  element : Xml.Element
  declaration : ElementDeclaration
  path : Text
  depth : Nat

inductive Step where
  | visit (v : Visit)
  | undeclared (element : Xml.Element) (path : Text)

namespace Visit

/-- The content model of the element if its children are looked at, which they are down to the greatest depth. -/
def model? (s : Settings) (v : Visit) : Option (Option Particle) :=
  if s.maxDepth < v.depth then none else contentModel? s.schema v.declaration v.element.tag

def childPaths (v : Visit) : List Text := Validation.childPaths v.path (v.element.children.map (·.name))

end Visit

namespace Step

def perform (s : Settings) (r : Report) : Step → Report
  | visit v => checkItself s v.declaration v.path v.depth v.element r
  | undeclared e path => r.add e.tag.line path [.undeclaredElement e.name.localPart]

/-- Takes a step, unless the run is stopped. -/
def take (s : Settings) (r : Report) (step : Step) : Report := if s.stops r then r else step.perform s r

end Step

mutual

/-- The steps at an element that is checked and at those in it. -/
def stepsAt (s : Settings) (d : ElementDeclaration) (path : Text) (depth : Nat) : Xml.Node → List Step
  | .element tag content =>
    let v : Visit := ⟨⟨tag, content⟩, d, path, depth⟩
    .visit v :: match v.model? s with
      | some model => stepsAmong s (leaves model) (depth + 1) v.childPaths content
      | none => []
  | _ => []

/-- The steps at the elements among nodes, of which `paths` are the paths. -/
def stepsAmong (s : Settings) (leaves : List Particle) (depth : Nat) (paths : List Text) : List Xml.Node → List Step
  | [] => []
  | node :: later =>
    match node.toElement?, paths with
    | some e, path :: paths =>
      (match treatment s.schema leaves e.name with
        | .check d => stepsAt s d path depth node
        | .undeclared => [.undeclared e path]
        | .ignore => []) ++ stepsAmong s leaves depth paths later
    | _, paths => stepsAmong s leaves depth paths later

end

/-- The steps of a run over a document; none if its root is not declared. -/
def steps (s : Settings) (root : Xml.Element) : List Step :=
  match s.schema.element? root.name with
  | some d => stepsAt s d (rootPath root.name) 1 root.toNode
  | none => []

/-! ### The run takes the steps -/

section

variable {s : Settings} {r : Report}

theorem not_stops_empty : s.stops {} = false := by
  rw [Settings.stops]
  cases s.allowance <;> rfl

theorem foldl_of_stops {α : Type} {f : Report → α → Report} (h : s.stops r = true) (l : List α) :
    l.foldl (fun r a => if s.stops r then r else f r a) r = r := by
  induction l with
  | nil => rfl
  | cons a l ih => rw [List.foldl_cons, if_pos h, ih]

theorem foldl_take_of_stops (h : s.stops r = true) (l : List Step) : l.foldl (Step.take s) r = r := foldl_of_stops h l

/-- A run that is not stopped performs all of its steps. -/
theorem foldl_take_eq_foldl_perform {l : List Step} (h : s.stops (l.foldl (Step.take s) r) = false) :
    l.foldl (Step.take s) r = l.foldl (Step.perform s) r := by
  induction l generalizing r with
  | nil => rfl
  | cons step l ih =>
      rw [List.foldl_cons, Step.take] at h ⊢
      cases hs : s.stops r with
      | true =>
          rw [hs, if_pos rfl, foldl_take_of_stops hs] at h
          exact nomatch hs.symm.trans h
      | false =>
          rw [hs, if_neg Bool.false_ne_true] at h
          rw [if_neg Bool.false_ne_true]
          exact ih h

theorem checkChildren_eq_foldl {nodes : List Xml.Node}
    (ih : ∀ node ∈ nodes, ∀ d path depth r, s.stops r = false →
      checkElement s d path depth r node = (stepsAt s d path depth node).foldl (Step.take s) r)
    (leaves : List Particle) (depth : Nat) (paths : List Text) (r : Report) :
    checkChildren s leaves depth paths r nodes = (stepsAmong s leaves depth paths nodes).foldl (Step.take s) r := by
  induction nodes generalizing paths r with
  | nil => rw [checkChildren, stepsAmong, List.foldl_nil]
  | cons node later ihlater =>
      obtain ⟨ihnode, ih⟩ := List.forall_mem_cons.1 ih
      cases he : node.toElement? with
      | none => simp only [checkChildren, stepsAmong, he, ihlater ih]
      | some e =>
          cases paths with
          | nil => simp only [checkChildren, stepsAmong, he, ihlater ih]
          | cons path paths =>
              simp only [checkChildren, stepsAmong, he, List.foldl_append]
              cases hs : s.stops r with
              | true => rw [if_pos rfl, foldl_take_of_stops hs, foldl_take_of_stops hs]
              | false =>
                  rw [if_neg Bool.false_ne_true, ihlater ih]
                  congr 1
                  cases treatment s.schema leaves e.name with
                  | check d => exact ihnode d path depth r hs
                  | undeclared => simp [Step.take, Step.perform, hs]
                  | ignore => rfl

theorem checkElement_eq_foldl (node : Xml.Node) : ∀ d path depth r, s.stops r = false →
    checkElement s d path depth r node = (stepsAt s d path depth node).foldl (Step.take s) r := by
  induction node using Xml.Node.induct with
  | leaf node h =>
      intro d path depth r _
      cases node with
      | element => simp [Xml.Node.toElement?] at h
      | _ => rw [checkElement, stepsAt, List.foldl_nil] <;> simp
  | element tag content ih =>
      intro d path depth r hs
      rw [checkElement, stepsAt, List.foldl_cons, Step.take, hs, if_neg Bool.false_ne_true, Step.perform, Visit.model?]
      by_cases hd : s.maxDepth < depth
      · simp only [hd, if_true, List.foldl_nil]
      · simp only [hd, if_false]
        cases contentModel? s.schema d tag with
        | none => rfl
        | some model => exact checkChildren_eq_foldl ih _ _ _ _

end

/-- A run over a document whose root is declared takes its steps, one after the other. -/
theorem checkDocument_eq_foldl (s : Settings) (root : Xml.Element) (r : Report)
    (h : (s.schema.element? root.name).isSome = true) :
    checkDocument s root r = (steps s root).foldl (Step.take s) (r.inspect [root.name]) := by
  obtain ⟨d, hd⟩ := Option.isSome_iff_exists.1 h
  rw [checkDocument, steps, hd]
  simp only
  cases hs : s.stops (r.inspect [root.name]) with
  | true => rw [if_pos rfl, foldl_take_of_stops hs]
  | false => rw [if_neg Bool.false_ne_true, checkElement_eq_foldl _ _ _ _ _ hs]

/-! ### The elements that are checked -/

theorem length_foldl_snd {α β γ : Type} {f : β × List γ → α → β × List γ}
    (hf : ∀ acc a, (f acc a).2.length = acc.2.length + 1) (l : List α) (acc : β × List γ) :
    (l.foldl f acc).2.length = acc.2.length + l.length := by
  induction l generalizing acc with
  | nil => rfl
  | cons a l ih =>
      rw [List.foldl_cons, ih, hf, List.length_cons]
      omega

theorem length_childPaths (path : Text) (names : List Name) : (childPaths path names).length = names.length := by
  rw [childPaths, List.length_reverse, childPathsFrom, length_foldl_snd fun _ _ => rfl, List.length_nil, Nat.zero_add]

theorem eq_toNode_of_toElement {node : Xml.Node} {e : Xml.Element} (h : node.toElement? = some e) :
    node = e.toNode := by
  cases node with
  | element tag content =>
      cases h
      rfl
  | _ => cases h

theorem toNode_mem_of_mem_filterMap {nodes : List Xml.Node} {e : Xml.Element}
    (h : e ∈ nodes.filterMap Xml.Node.toElement?) : e.toNode ∈ nodes := by
  obtain ⟨node, hnode, he⟩ := List.mem_filterMap.1 h
  rwa [← eq_toNode_of_toElement he]

def stepsOfChild (s : Settings) (leaves : List Particle) (depth : Nat) (e : Xml.Element) (path : Text) : List Step :=
  match treatment s.schema leaves e.name with
  | .check d => stepsAt s d path depth e.toNode
  | .undeclared => [.undeclared e path]
  | .ignore => []

variable {s : Settings}

theorem stepsAmong_eq_flatMap (leaves : List Particle) (depth : Nat) (paths : List Text) (nodes : List Xml.Node) :
    stepsAmong s leaves depth paths nodes = ((nodes.filterMap Xml.Node.toElement?).zip paths).flatMap fun (e, path) =>
      stepsOfChild s leaves depth e path := by
  induction nodes generalizing paths with
  | nil => rw [stepsAmong, List.filterMap_nil, List.zip_nil_left, List.flatMap_nil]
  | cons node later ih =>
      cases he : node.toElement? with
      | none => simp only [stepsAmong, he, ih, List.filterMap_cons_none]
      | some e =>
          cases paths with
          | nil => simp [stepsAmong, he, ih]
          | cons path paths =>
              obtain rfl := eq_toNode_of_toElement he
              rw [List.filterMap_cons_some he, List.zip_cons_cons, List.flatMap_cons, ← ih]
              simp only [stepsAmong, he, stepsOfChild]

theorem mem_stepsAmong {leaves : List Particle} {depth : Nat} {paths : List Text} {nodes : List Xml.Node}
    {step : Step} :
    step ∈ stepsAmong s leaves depth paths nodes ↔ ∃ (i : Nat) (e : Xml.Element) (path : Text),
      (nodes.filterMap Xml.Node.toElement?)[i]? = some e ∧ paths[i]? = some path ∧
        step ∈ stepsOfChild s leaves depth e path := by
  rw [stepsAmong_eq_flatMap, List.mem_flatMap]
  constructor
  · rintro ⟨⟨e, path⟩, hmem, hstep⟩
    obtain ⟨i, hi⟩ := List.mem_iff_getElem?.1 hmem
    obtain ⟨he, hpath⟩ := List.getElem?_zip_eq_some.1 hi
    exact ⟨i, e, path, he, hpath, hstep⟩
  · rintro ⟨i, e, path, he, hpath, hstep⟩
    exact ⟨(e, path), List.mem_iff_getElem?.2 ⟨i, List.getElem?_zip_eq_some.2 ⟨he, hpath⟩⟩, hstep⟩

/-- The steps below an element that is checked. -/
def stepsBelow (s : Settings) (v : Visit) : List Step :=
  match v.model? s with
  | some model => (v.element.children.zip v.childPaths).flatMap fun (e, path) =>
    stepsOfChild s (leaves model) (v.depth + 1) e path
  | none => []

theorem stepsAt_toNode (e : Xml.Element) (d : ElementDeclaration) (path : Text) (depth : Nat) :
    stepsAt s d path depth e.toNode = .visit ⟨e, d, path, depth⟩ :: stepsBelow s ⟨e, d, path, depth⟩ := by
  rw [Xml.Element.toNode, stepsAt, stepsBelow]
  simp only [stepsAmong_eq_flatMap]
  rfl

namespace Visit

/-- The steps at the element and at those in it. -/
def steps (s : Settings) (v : Visit) : List Step := stepsAt s v.declaration v.path v.depth v.element.toNode

/-- With the children of `v`, `u` is checked, as the content model tells. -/
def Checks (s : Settings) (v u : Visit) : Prop :=
  ∃ (model : Option Particle) (i : Nat), v.model? s = some model ∧ v.element.children[i]? = some u.element ∧
    v.childPaths[i]? = some u.path ∧ treatment s.schema (leaves model) u.element.name = .check u.declaration ∧
    u.depth = v.depth + 1

variable {v u w : Visit}

theorem mem_steps_iff {step : Step} : step ∈ v.steps s ↔ step = .visit v ∨
    ∃ model, v.model? s = some model ∧
      step ∈ stepsAmong s (leaves model) (v.depth + 1) v.childPaths v.element.content := by
  have hsteps : v.steps s = .visit v :: match v.model? s with
      | some model => stepsAmong s (leaves model) (v.depth + 1) v.childPaths v.element.content
      | none => [] := by
    rw [steps, Xml.Element.toNode, stepsAt]
  rw [hsteps, List.mem_cons]
  cases v.model? s <;> simp

theorem Checks.steps_subset (h : v.Checks s u) : u.steps s ⊆ v.steps s := by
  obtain ⟨model, i, hm, he, hpath, ht, hdepth⟩ := h
  intro step hstep
  apply mem_steps_iff.2
  refine .inr ⟨model, hm, mem_stepsAmong.2 ⟨i, u.element, u.path, he, hpath, ?_⟩⟩
  rw [stepsOfChild, ht, ← hdepth]
  exact hstep

theorem mem_steps_cases (h : .visit w ∈ v.steps s) : w = v ∨ ∃ u, v.Checks s u ∧ .visit w ∈ u.steps s := by
  rcases mem_steps_iff.1 h with h | ⟨model, hm, h⟩
  · exact .inl (Step.visit.inj h)
  · obtain ⟨i, e, path, he, hpath, h⟩ := mem_stepsAmong.1 h
    rw [stepsOfChild] at h
    cases ht : treatment s.schema (leaves model) e.name with
    | check d =>
        rw [ht] at h
        exact .inr ⟨⟨e, d, path, v.depth + 1⟩, ⟨model, i, hm, he, hpath, ht, rfl⟩, h⟩
    | undeclared => simp [ht] at h
    | ignore => simp [ht] at h

theorem Checks.toNode_mem (h : v.Checks s u) : u.element.toNode ∈ v.element.content := by
  obtain ⟨model, i, _, he, _⟩ := h
  exact toNode_mem_of_mem_filterMap (List.mem_of_getElem? he)

/-- Induction over elements that are checked: what holds of one may be shown from what holds of those checked with its
children. -/
@[elab_as_elim]
theorem induct (s : Settings) {P : Visit → Prop} (step : ∀ v, (∀ u, v.Checks s u → P u) → P v) (v : Visit) : P v := by
  have hnode (node : Xml.Node) : ∀ v : Visit, v.element.toNode = node → P v := by
    induction node using Xml.Node.induct with
    | leaf node h =>
        rintro v rfl
        cases h
    | element tag content ih =>
        intro v hv
        apply step
        intro u hu
        have hmem := hu.toNode_mem
        rw [show v.element.content = content by cases hv; rfl] at hmem
        exact ih _ hmem u rfl
  exact hnode v.element.toNode v rfl

/-- What holds of an element that is checked holds of all that are checked in it, if each passes it on. -/
theorem forall_visit_mem_steps {P : Visit → Prop} (hpass : ∀ v u, P v → v.Checks s u → P u) (hv : P v) :
    ∀ w, .visit w ∈ v.steps s → P w := by
  induction v using Visit.induct s with
  | step v ih =>
      intro w hw
      rcases mem_steps_cases hw with rfl | ⟨u, hu, hw⟩
      · exact hv
      · exact ih u hu (hpass v u hv hu) w hw

theorem steps_subset (h : .visit w ∈ v.steps s) : w.steps s ⊆ v.steps s := by
  induction v using Visit.induct s with
  | step v ih =>
      rcases mem_steps_cases h with rfl | ⟨u, hu, hw⟩
      · exact List.Subset.refl _
      · exact List.Subset.trans (ih u hu hw) hu.steps_subset

end Visit

theorem root_mem_steps {root : Xml.Element} {d : ElementDeclaration} (hd : s.schema.element? root.name = some d) :
    .visit ⟨root, d, rootPath root.name, 1⟩ ∈ steps s root := by
  rw [steps, hd]
  exact Visit.mem_steps_iff.2 (.inl rfl)

end Validation

end XmlSchema
