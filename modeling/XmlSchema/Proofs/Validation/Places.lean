import XmlSchema.Proofs.Validation.ChildPaths

/-!
Paths tell the elements of a document apart, unless two children of one element are confused: then they share a path, in
which only their local names are shown.
-/

namespace XmlSchema

namespace Xml.Element

/-- The element itself and those that stand in it, at any depth. -/
inductive Contains (e : Element) : Element → Prop
  | itself : Contains e e
  | child {outer inner : Element} (h : Contains e outer) (hinner : inner ∈ outer.children) : Contains e inner

end Xml.Element

namespace Validation

variable {s : Settings} {v w u : Visit}

/-- The path of the element that a step is about. -/
def Step.path : Step → Text
  | visit v => v.path
  | undeclared _ path => path

namespace Visit

def childNames (v : Visit) : List Name := v.element.children.map (·.name)

/-- The child at this place is checked, or is reported to lack a declaration. -/
def Treats (s : Settings) (v : Visit) (i : Nat) : Prop :=
  ∃ model e, v.model? s = some model ∧ v.element.children[i]? = some e ∧
    treatment s.schema (leaves model) e.name ≠ .ignore

theorem checks_iff {model : Option Particle} (hm : v.model? s = some model) :
    v.Checks s u ↔ (u.element, u.path) ∈ v.element.children.zip v.childPaths ∧
      treatment s.schema (leaves model) u.element.name = .check u.declaration ∧ u.depth = v.depth + 1 := by
  constructor
  · rintro ⟨_, i, hm', he, hpath, h⟩
    cases hm.symm.trans hm'
    exact ⟨List.mem_iff_getElem?.2 ⟨i, List.getElem?_zip_eq_some.2 ⟨he, hpath⟩⟩, h⟩
  · rintro ⟨hmem, h⟩
    obtain ⟨i, hi⟩ := List.mem_iff_getElem?.1 hmem
    obtain ⟨he, hpath⟩ := List.getElem?_zip_eq_some.1 hi
    exact ⟨model, i, hm, he, hpath, h⟩

theorem steps_eq (s : Settings) (v : Visit) : v.steps s = .visit v :: stepsBelow s v :=
  stepsAt_toNode v.element v.declaration v.path v.depth

end Visit

theorem stepsOfChild_check {leaves : List Particle} {depth : Nat} {e : Xml.Element} {path : Text}
    {d : ElementDeclaration} (h : treatment s.schema leaves e.name = .check d) :
    stepsOfChild s leaves depth e path = Visit.steps s ⟨e, d, path, depth⟩ := by
  rw [stepsOfChild, h]
  rfl

/-- What is done about a child begins at its own path. -/
theorem path_mem_stepsOfChild {leaves : List Particle} {depth : Nat} {e : Xml.Element} (path : Text)
    (h : treatment s.schema leaves e.name ≠ .ignore) : path ∈ (stepsOfChild s leaves depth e path).map Step.path := by
  cases ht : treatment s.schema leaves e.name with
  | check d =>
      rw [stepsOfChild_check ht]
      exact List.mem_map.2 ⟨.visit ⟨e, d, path, depth⟩, Visit.mem_steps_iff.2 (.inl rfl), rfl⟩
  | undeclared =>
      rw [stepsOfChild, ht]
      exact List.mem_singleton_self _
  | ignore => exact absurd ht h

theorem exists_eq_of_mem_childPaths {path : Text} (h : path ∈ v.childPaths) : ∃ step, path = v.path ++ "/" ++ step := by
  obtain ⟨i, hi⟩ := List.mem_iff_getElem?.1 h
  rw [Visit.childPaths, getElem?_childPaths, Option.map_eq_some_iff] at hi
  obtain ⟨n, _, rfl⟩ := hi
  exact ⟨_, rfl⟩

theorem isUnder_of_mem_steps {step : Step} (h : step ∈ v.steps s) : IsUnder v.path step.path := by
  induction v using Visit.induct s with
  | step v ih =>
      rcases Visit.mem_steps_iff.1 h with rfl | ⟨model, hm, h⟩
      · exact .refl _
      · obtain ⟨i, e, path, he, hpath, h⟩ := mem_stepsAmong.1 h
        obtain ⟨last, hlast⟩ := exists_eq_of_mem_childPaths (List.mem_of_getElem? hpath)
        have hstart : IsUnder v.path path := hlast ▸ isUnder_step v.path last
        refine hstart.trans ?_
        rw [stepsOfChild] at h
        cases ht : treatment s.schema (leaves model) e.name with
        | check d =>
            rw [ht] at h
            exact ih ⟨e, d, path, v.depth + 1⟩ ⟨model, i, hm, he, hpath, ht, rfl⟩ h
        | undeclared =>
            rw [ht] at h
            rw [List.mem_singleton.1 h]
            exact .refl _
        | ignore =>
            rw [ht] at h
            exact absurd h List.not_mem_nil

theorem isUnder_of_mem_stepsOfChild {leaves : List Particle} {depth : Nat} {e : Xml.Element} {path p : Text}
    (h : p ∈ (stepsOfChild s leaves depth e path).map Step.path) :
    IsUnder path p ∧ treatment s.schema leaves e.name ≠ .ignore := by
  obtain ⟨step, hstep, rfl⟩ := List.mem_map.1 h
  cases ht : treatment s.schema leaves e.name with
  | check d =>
      rw [stepsOfChild_check ht] at hstep
      have hunder := isUnder_of_mem_steps hstep
      exact ⟨hunder, by simp⟩
  | undeclared =>
      rw [stepsOfChild, ht] at hstep
      rw [List.mem_singleton.1 hstep]
      exact ⟨.refl _, by simp⟩
  | ignore =>
      rw [stepsOfChild, ht] at hstep
      exact absurd hstep List.not_mem_nil

/-! ### Paths below an element -/

section

variable {model : Option Particle}

/-- What is done about different children is done at different paths, unless the children are confused. -/
theorem pairwise_disjoint_iff (hm : v.model? s = some model) (hnames : ∀ n ∈ v.childNames, IsPlain n.localPart) :
    (v.element.children.zip v.childPaths).Pairwise (Function.onFun List.Disjoint fun (e, path) =>
      (stepsOfChild s (leaves model) (v.depth + 1) e path).map Step.path) ↔
    ∀ i j, v.Treats s i → v.Treats s j → ¬ Confused v.childNames i j := by
  rw [List.pairwise_iff_getElem]
  constructor
  · intro h i j hi hj hconfused
    wlog hij : i < j generalizing i j
    · exact this j i hj hi hconfused.symm (by have := hconfused.ne; omega)
    obtain ⟨_, e, hmi, he, ht⟩ := hi
    obtain ⟨_, e', hmj, he', ht'⟩ := hj
    cases hm.symm.trans hmi
    cases hm.symm.trans hmj
    obtain ⟨hi, rfl⟩ := List.getElem?_eq_some_iff.1 he
    obtain ⟨hj, rfl⟩ := List.getElem?_eq_some_iff.1 he'
    have hlength : v.childPaths.length = v.element.children.length := by
      rw [Visit.childPaths, length_childPaths, List.length_map]
    have hsame : v.childPaths[i] = v.childPaths[j] := by
      have heq : v.childPaths[i]? = v.childPaths[j]? := hconfused.eq
      rwa [List.getElem?_eq_getElem, List.getElem?_eq_getElem, Option.some.injEq] at heq
    have hdisjoint := h i j (by simp [hlength, hi]) (by simp [hlength, hj]) hij
    rw [Function.onFun, List.getElem_zip, List.getElem_zip, hsame] at hdisjoint
    exact hdisjoint (path_mem_stepsOfChild _ ht) (path_mem_stepsOfChild _ ht')
  · intro h i j hi hj hij p hp hp'
    rw [List.length_zip, Nat.lt_min] at hi hj
    rw [List.getElem_zip] at hp hp'
    obtain ⟨hunder, ht⟩ := isUnder_of_mem_stepsOfChild hp
    obtain ⟨hunder', ht'⟩ := isUnder_of_mem_stepsOfChild hp'
    refine h i j ⟨model, _, hm, List.getElem?_eq_getElem hi.1, ht⟩ ⟨model, _, hm, List.getElem?_eq_getElem hj.1, ht'⟩ ?_
    exact (exists_isUnder_iff hnames (List.getElem?_eq_getElem hi.2) (List.getElem?_eq_getElem hj.2)
      (Nat.ne_of_lt hij)).1 ⟨p, hunder, hunder'⟩

theorem nodup_paths_steps_iff (hm : v.model? s = some model) (hnames : ∀ n ∈ v.childNames, IsPlain n.localPart) :
    ((v.steps s).map Step.path).Nodup ↔
      (∀ e path, (e, path) ∈ v.element.children.zip v.childPaths →
        ((stepsOfChild s (leaves model) (v.depth + 1) e path).map Step.path).Nodup) ∧
      ∀ i j, v.Treats s i → v.Treats s j → ¬ Confused v.childNames i j := by
  have hbelow : (stepsBelow s v).map Step.path = (v.element.children.zip v.childPaths).flatMap fun (e, path) =>
      (stepsOfChild s (leaves model) (v.depth + 1) e path).map Step.path := by
    rw [stepsBelow, hm, List.map_flatMap]
  have hself : v.path ∉ (stepsBelow s v).map Step.path := by
    rw [hbelow, List.mem_flatMap]
    rintro ⟨⟨e, path⟩, hmem, hp⟩
    obtain ⟨step, rfl⟩ := exists_eq_of_mem_childPaths (List.of_mem_zip hmem).2
    exact not_isUnder_step _ _ (isUnder_of_mem_stepsOfChild hp).1
  rw [Visit.steps_eq, List.map_cons, List.nodup_cons, Step.path, and_iff_right hself, hbelow, List.nodup_flatMap,
    pairwise_disjoint_iff hm hnames, Prod.forall]

end

/-- The steps at an element and at those in it are all at different paths exactly if nowhere two children are confused
about which anything is done. -/
theorem nodup_paths_iff (hnames : ∀ w, .visit w ∈ v.steps s → ∀ n ∈ w.childNames, IsPlain n.localPart) :
    ((v.steps s).map Step.path).Nodup ↔
      ∀ w, .visit w ∈ v.steps s → ∀ i j, w.Treats s i → w.Treats s j → ¬ Confused w.childNames i j := by
  induction v using Visit.induct s with
  | step v ih =>
      have hself : .visit v ∈ v.steps s := Visit.mem_steps_iff.2 (.inl rfl)
      cases hm : v.model? s with
      | none =>
          have hsteps : v.steps s = [.visit v] := by rw [Visit.steps_eq, stepsBelow, hm]
          rw [hsteps]
          refine iff_of_true (List.nodup_singleton _) fun w hw i j hi _ => ?_
          obtain rfl := Step.visit.inj (List.mem_singleton.1 hw)
          obtain ⟨_, _, hmi, _⟩ := hi
          cases hm.symm.trans hmi
      | some model =>
          have ih' {u : Visit} (hu : v.Checks s u) := ih u hu fun w hw => hnames w (hu.steps_subset hw)
          rw [nodup_paths_steps_iff hm (hnames v hself)]
          constructor
          · rintro ⟨hchildren, hclear⟩ w hw
            rcases Visit.mem_steps_cases hw with rfl | ⟨u, hu, hw⟩
            · exact hclear
            · obtain ⟨hmem, ht, hdepth⟩ := (Visit.checks_iff hm).1 hu
              have hnodup := hchildren u.element u.path hmem
              rw [stepsOfChild_check ht, ← hdepth] at hnodup
              exact (ih' hu).1 hnodup w hw
          · intro h
            refine ⟨fun e path hmem => ?_, h v hself⟩
            cases ht : treatment s.schema (leaves model) e.name with
            | check d =>
                have hu : v.Checks s ⟨e, d, path, v.depth + 1⟩ := (Visit.checks_iff hm).2 ⟨hmem, ht, rfl⟩
                rw [stepsOfChild_check ht, ih' hu]
                exact fun w hw => h w (hu.steps_subset hw)
            | undeclared =>
                rw [stepsOfChild, ht]
                exact List.nodup_singleton _
            | ignore =>
                rw [stepsOfChild, ht]
                exact List.nodup_nil

theorem contains_of_mem_steps {root : Xml.Element} (hv : root.Contains v.element) (hw : .visit w ∈ v.steps s) :
    root.Contains w.element := by
  refine Visit.forall_visit_mem_steps (P := fun w => root.Contains w.element) (fun v u hv hu => ?_) hv w hw
  obtain ⟨_, _, _, he, _⟩ := hu
  exact hv.child (List.mem_of_getElem? he)

/-- Paths tell elements apart that are not confused. Of the children of an element no two have anything in common below
their paths, confused ones apart. So the steps of a run are all at different paths exactly if it does nothing about two
children of one element that are confused. -/
theorem paths_differ_unless_confused (path : Text) (names : List Name) (s : Settings) (root : Xml.Element)
    (hnames : ∀ n ∈ names, IsNCName n.localPart) (hroot : ∀ e, root.Contains e → IsNCName e.name.localPart) :
    (∀ i j p q, i ≠ j → (childPaths path names)[i]? = some p → (childPaths path names)[j]? = some q →
      ((∃ t, IsUnder p t ∧ IsUnder q t) ↔ Confused names i j)) ∧
    (((steps s root).map Step.path).Nodup ↔
      ∀ v, .visit v ∈ steps s root → ∀ i j, v.Treats s i → v.Treats s j → ¬ Confused v.childNames i j) := by
  constructor
  · intro i j p q hne hp hq
    exact exists_isUnder_iff (fun n hn => isPlain_of_isNCName (hnames n hn)) hp hq hne
  · cases hd : s.schema.element? root.name with
    | none =>
        have hsteps : steps s root = [] := by rw [steps, hd]
        rw [hsteps]
        exact iff_of_true List.nodup_nil fun v hv => absurd hv List.not_mem_nil
    | some d =>
        have hsteps : steps s root = Visit.steps s ⟨root, d, rootPath root.name, 1⟩ := by rw [steps, hd]; rfl
        rw [hsteps]
        refine nodup_paths_iff fun w hw n hn => ?_
        obtain ⟨e, he, rfl⟩ := List.mem_map.1 hn
        exact isPlain_of_isNCName (hroot e ((contains_of_mem_steps .itself hw).child he))

/-- A box holds whatever is declared. -/
def boxRules : Schema :=
  let model : Particle := .group .sequence [.wildcard ⟨.any, .strict⟩ ⟨0, none⟩] {} none
  let type : TypeDefinition := .complex ⟨none, [ComplexType.anyTypeName], .elementOnly model, [], none, false⟩
  let declared (n : Name) : Name × ElementDeclaration := (n, { name := n, type })
  { targetNamespace := [], types := [], attributes := [], substitutions := [], locals := [], warnings := []
    elements := [declared ⟨[], "box"⟩, declared ⟨"u", "lid"⟩, declared ⟨"v", "lid"⟩] }

def boxWith (names : List Name) : Xml.Element :=
  ⟨⟨⟨[], "box"⟩, 1, [], []⟩, names.map fun n => .element ⟨n, 1, [], []⟩ []⟩

theorem children_boxWith (names : List Name) : (boxWith names).children = names.map fun n => ⟨⟨n, 1, [], []⟩, []⟩ := by
  rw [Xml.Element.children, boxWith, List.filterMap_map]
  exact congrFun List.filterMap_eq_map names

theorem isNCName_boxWith {names : List Name} (h : ∀ n ∈ names, IsNCName n.localPart) {e : Xml.Element}
    (he : (boxWith names).Contains e) : IsNCName e.name.localPart := by
  have hcases : e = boxWith names ∨ e.content = [] ∧ e.name ∈ names := by
    induction he with
    | itself => exact .inl rfl
    | child _ hinner ih =>
        rcases ih with rfl | ⟨hcontent, _⟩
        · rw [children_boxWith] at hinner
          obtain ⟨n, hn, rfl⟩ := List.mem_map.1 hinner
          exact .inr ⟨rfl, hn⟩
        · rw [Xml.Element.children, hcontent] at hinner
          exact absurd hinner List.not_mem_nil
  rcases hcases with rfl | ⟨_, hname⟩
  · exact isNCName_iff.1 (by cbv)
  · exact h _ hname

/-- A box with two lids of different makes. -/
theorem paths_differ_unless_confused_lids :
    let s : Settings := ⟨boxRules, 256, none⟩
    let lids : List Name := [⟨"u", "lid"⟩, ⟨"v", "lid"⟩]
    (∀ n ∈ lids, IsNCName n.localPart) ∧ (∀ e, (boxWith lids).Contains e → IsNCName e.name.localPart) ∧
    childPaths "/box" lids = ["/box/lid", "/box/lid"] ∧ Confused lids 0 1 ∧
    (steps s (boxWith lids)).map Step.path = ["/box", "/box/lid", "/box/lid"] ∧
    ∃ v, .visit v ∈ steps s (boxWith lids) ∧ ∃ i j, v.Treats s i ∧ v.Treats s j ∧ Confused v.childNames i j := by
  intro s lids
  have hlid : IsNCName "lid" := isNCName_iff.1 (by cbv)
  have hnames : ∀ n ∈ lids, IsNCName n.localPart := by simp [lids, hlid]
  have hroot : ∀ e, (boxWith lids).Contains e → IsNCName e.name.localPart := fun _ => isNCName_boxWith hnames
  have hchildren : childPaths "/box" lids = ["/box/lid", "/box/lid"] := by cbv
  have hpaths : (steps s (boxWith lids)).map Step.path = ["/box", "/box/lid", "/box/lid"] := by cbv
  obtain ⟨hbelow, hdiffer⟩ := paths_differ_unless_confused "/box" lids s (boxWith lids) hnames hroot
  have hconfused : Confused lids 0 1 := by
    rw [hchildren] at hbelow
    exact (hbelow 0 1 "/box/lid" "/box/lid" Nat.zero_ne_one rfl rfl).1 ⟨"/box/lid", .refl _, .refl _⟩
  refine ⟨hnames, hroot, hchildren, hconfused, hpaths, ?_⟩
  by_contra hclear
  have hnodup := hdiffer.2 fun v hv i j hi hj hconfused => hclear ⟨v, hv, i, j, hi, hj, hconfused⟩
  rw [hpaths] at hnodup
  exact absurd hnodup (by decide)

end Validation

end XmlSchema
