import XmlSchema.Proofs.Schema.Lookups
import XmlSchema.Proofs.Schema.Reading
import XmlSchema.Schema.Reader

/-!
Registration of what stands at the top of a schema. Every item adds an entry of its own, which depends on nothing but
the item and must not be there yet, so the order of the items is the order of the entries and nothing else.
-/

namespace XmlSchema.Schema

variable {α β : Type}

/-! ### Folds in another order -/

section

variable {R : β → β → Prop} (hrefl : ∀ b, R b b) (htrans : ∀ b c d, R b c → R c d → R b d) {step : β → α → Build β}
  (hcongr : ∀ a b b' c, R b b' → step b a = .ok c → ∃ c', step b' a = .ok c' ∧ R c c')

include hcongr in
theorem Build.foldlM_congr {l : List α} {b b' c : β} (hb : R b b') (h : l.foldlM step b = .ok c) :
    ∃ c', l.foldlM step b' = .ok c' ∧ R c c' := by
  induction l generalizing b b' with
  | nil =>
      cases h
      exact ⟨b', rfl, hb⟩
  | cons a l ih =>
      rw [List.foldlM_cons] at h
      obtain ⟨b₁, h₁, h⟩ := Build.bind_eq_ok.1 h
      obtain ⟨b₁', h₁', hb₁⟩ := hcongr a b b' b₁ hb h₁
      obtain ⟨c', hc', hc⟩ := ih hb₁ h
      exact ⟨c', by rw [List.foldlM_cons]; exact Build.bind_eq_ok.2 ⟨b₁', h₁', hc'⟩, hc⟩

include hrefl htrans hcongr in
/-- A fold whose steps can be exchanged comes to the same in every order. -/
theorem Build.foldlM_perm
    (hcomm : ∀ a a' b c d, step b a = .ok c → step c a' = .ok d →
      ∃ c' d', step b a' = .ok c' ∧ step c' a = .ok d' ∧ R d d')
    {l l' : List α} (hl : l.Perm l') {b b' c : β} (hb : R b b') (h : l.foldlM step b = .ok c) :
    ∃ c', l'.foldlM step b' = .ok c' ∧ R c c' := by
  induction hl generalizing b b' c with
  | nil =>
      cases h
      exact ⟨b', rfl, hb⟩
  | cons a _ ih =>
      rw [List.foldlM_cons] at h
      obtain ⟨b₁, h₁, h⟩ := Build.bind_eq_ok.1 h
      obtain ⟨b₁', h₁', hb₁⟩ := hcongr a b b' b₁ hb h₁
      obtain ⟨c', hc', hc⟩ := ih hb₁ h
      exact ⟨c', by rw [List.foldlM_cons]; exact Build.bind_eq_ok.2 ⟨b₁', h₁', hc'⟩, hc⟩
  | swap a a' l =>
      simp only [List.foldlM_cons] at h
      obtain ⟨b₁, h₁, h⟩ := Build.bind_eq_ok.1 h
      obtain ⟨b₂, h₂, h⟩ := Build.bind_eq_ok.1 h
      obtain ⟨c₁, c₂, hc₁, hc₂, hb₂⟩ := hcomm a' a b b₁ b₂ h₁ h₂
      obtain ⟨d₁, hd₁, hcd₁⟩ := hcongr a b b' c₁ hb hc₁
      obtain ⟨d₂, hd₂, hcd₂⟩ := hcongr a' c₁ d₁ c₂ hcd₁ hc₂
      obtain ⟨c', hc', hc⟩ := Build.foldlM_congr hcongr (htrans b₂ c₂ d₂ hb₂ hcd₂) h
      refine ⟨c', ?_, hc⟩
      simp only [List.foldlM_cons]
      exact Build.bind_eq_ok.2 ⟨d₁, hd₁, Build.bind_eq_ok.2 ⟨d₂, hd₂, hc'⟩⟩
  | trans _ _ ih₁ ih₂ =>
      obtain ⟨c₁, hc₁, h₁⟩ := ih₁ hb h
      obtain ⟨c₂, hc₂, h₂⟩ := ih₂ (hrefl b') hc₁
      exact ⟨c₂, hc₂, htrans c c₁ c₂ h₁ h₂⟩

end

/-- A fold whose steps fail for reasons of their own is a plain one when none does. -/
theorem Build.foldlM_eq_ok {step : β → α → Build β} {next : β → α → β} {P : α → Prop}
    (hstep : ∀ b a c, step b a = .ok c ↔ P a ∧ c = next b a) {l : List α} {b c : β} :
    l.foldlM step b = .ok c ↔ (∀ a ∈ l, P a) ∧ c = l.foldl next b := by
  induction l generalizing b with
  | nil => simpa using eq_comm
  | cons a l ih =>
      rw [List.foldlM_cons, Build.bind_eq_ok, List.forall_mem_cons, List.foldl_cons, and_assoc]
      simp only [hstep, ih, and_assoc, exists_and_left, exists_eq_left]

theorem Build.check_eq_ok {c : Prop} [Decidable c] {fault : Build PUnit} (hfault : ∀ u, fault ≠ .ok u) {b b' : β} :
    (if c then fault >>= fun _ => pure b else pure b) = .ok b' ↔ ¬ c ∧ b' = b := by
  simp only [Build.ite_eq_ok, Build.bind_eq_ok, hfault, false_and, exists_false, and_false, false_or, Build.pure_eq_ok,
    eq_comm (a := b)]

theorem Build.forIn_eq_ok {check : α → Build (ForInStep PUnit)} {P : α → Prop}
    (hcheck : ∀ a x, check a = .ok x ↔ P a ∧ x = .yield ⟨⟩) {l : List α} {u : PUnit} :
    (forIn l PUnit.unit fun a _ => check a) = .ok u ↔ ∀ a ∈ l, P a := by
  induction l with
  | nil => simp
  | cons a l ih =>
      rw [List.forIn_cons, Build.bind_eq_ok, List.forall_mem_cons, ← ih]
      simp only [hcheck, and_assoc, exists_and_left, exists_eq_left]

namespace Registry

instance : Append Registry :=
  ⟨fun d r => ⟨d.definitions ++ r.definitions, d.elements ++ r.elements, d.attributes ++ r.attributes,
    d.warnings ++ r.warnings⟩⟩

/-- What is registered in the one place is not registered in the other. -/
structure Disjoint (d r : Registry) : Prop where
  definitions : ∀ a ∈ d.definitions, ∀ b ∈ r.definitions, a.key ≠ b.key
  elements : ∀ a ∈ d.elements, ∀ b ∈ r.elements, a.declaration.name ≠ b.declaration.name
  attributes : ∀ a ∈ d.attributes, ∀ b ∈ r.attributes, a.1 ≠ b.1

/-- The same is registered, in another order. -/
structure Alike (r r' : Registry) : Prop where
  definitions : r.definitions.Perm r'.definitions
  elements : r.elements.Perm r'.elements
  attributes : r.attributes.Perm r'.attributes
  warnings : r.warnings.Perm r'.warnings

/-- Nothing is registered twice, and elements are known by their names. -/
structure Distinct (r : Registry) : Prop where
  definitions : (r.definitions.map (·.key)).Nodup
  elements : (r.elements.map (·.declaration.name)).Nodup
  attributes : (r.attributes.map Prod.fst).Nodup
  named : ∀ e ∈ r.elements, e.key = .named ∧ e.owner = ⟨.element, e.declaration.name⟩

/-- What one item makes: nothing twice, and all of it at the item. -/
structure IsEntry (d : Registry) (i : Item) : Prop extends d.Distinct where
  definitionItems : ∀ a ∈ d.definitions, a.item = i
  elementItems : ∀ e ∈ d.elements, e.item = i

variable {r r' : Registry} {i : Item} {content : List Xml.Node} {targetNamespace : Text}

theorem define_eq_ok {key : DefinitionKey} {what name : Text} : r.define key what name i content = .ok r' ↔
    (∀ d ∈ r.definitions, d.key ≠ key) ∧ r' = { definitions := [⟨key, i, content⟩] } ++ r := by
  rw [define]
  simp only [Build.ite_eq_ok, Item.fail_eq_ok, and_false, false_or, Except.ok.injEq, List.any_eq_true,
    decide_eq_true_eq, not_exists, not_and, eq_comm (a := r')]
  rfl

/-- The declaration of a global element, but for its type. -/
def declared (name : Name) (i : Item) : Build PendingElement := do
  let isNillable ← i.flag "nillable"
  let isAbstract ← i.flag "abstract"
  let head ← match i.getFull? "substitutionGroup" with
    | some head => do
      let head ← i.expandName head
      pure (some head)
    | none => pure none
  return ⟨.named, ⟨.element, name⟩, i, { name, type := .complex .anyType, isNillable, isAbstract
                                         default := i.get? "default", fixed := i.get? "fixed", head }⟩

theorem declareElement_eq_ok {name : Name} {rawName : Text} : r.declareElement name rawName i = .ok r' ↔
    (∀ e ∈ r.elements, e.declaration.name ≠ name) ∧
      ∃ e, declared name i = .ok e ∧ r' = { elements := [e] } ++ r := by
  rw [declareElement, declared]
  cases hh : i.getFull? "substitutionGroup" <;>
    simp only [Build.ite_eq_ok, Build.bind_eq_ok, Build.pure_eq_ok, Item.fail_eq_ok, false_and, exists_false, and_false,
      false_or, List.any_eq_true, decide_eq_true_eq, not_exists, not_and]
  · refine and_congr_right fun _ => ⟨?_, ?_⟩
    · rintro ⟨n, hn, a, ha, _, rfl, rfl⟩
      exact ⟨_, ⟨n, hn, a, ha, _, rfl, rfl⟩, rfl⟩
    · rintro ⟨_, ⟨n, hn, a, ha, _, rfl, rfl⟩, rfl⟩
      exact ⟨n, hn, a, ha, _, rfl, rfl⟩
  · refine and_congr_right fun _ => ⟨?_, ?_⟩
    · rintro ⟨n, hn, a, ha, head, hhead, _, rfl, rfl⟩
      exact ⟨_, ⟨n, hn, a, ha, head, hhead, _, rfl, rfl⟩, rfl⟩
    · rintro ⟨_, ⟨n, hn, a, ha, head, hhead, _, rfl, rfl⟩, rfl⟩
      exact ⟨n, hn, a, ha, head, hhead, _, rfl, rfl⟩

theorem declared_ok {name : Name} {e : PendingElement} (h : declared name i = .ok e) :
    e.key = .named ∧ e.owner = ⟨.element, name⟩ ∧ e.item = i ∧ e.declaration.name = name := by
  rw [declared] at h
  obtain ⟨_, _, h⟩ := Build.bind_eq_ok.1 h
  obtain ⟨_, _, h⟩ := Build.bind_eq_ok.1 h
  split at h
  · obtain ⟨_, _, h⟩ := Build.bind_eq_ok.1 h
    cases h
    exact ⟨rfl, rfl, rfl, rfl⟩
  · cases h
    exact ⟨rfl, rfl, rfl, rfl⟩

theorem append_empty (d : Registry) : d ++ ({} : Registry) = d := by
  change Registry.mk (_ ++ []) (_ ++ []) (_ ++ []) (_ ++ []) = d
  simp only [List.append_nil]

/-- A step of registration adds entries of an item that do not depend on what there is, if none of them is there
yet. -/
structure Adds (i : Item) (step : Registry → Build Registry) : Prop where
  isEntry : ∀ d, step {} = .ok d → d.IsEntry i
  eq_ok : ∀ r r', step r = .ok r' ↔ ∃ d, step {} = .ok d ∧ d.Disjoint r ∧ r' = d ++ r

namespace Adds

variable {step step' : Registry → Build Registry}

theorem entry {d : Registry} (hd : d.IsEntry i) (h : ∀ r r', step r = .ok r' ↔ d.Disjoint r ∧ r' = d ++ r) :
    Adds i step := by
  have hempty (d' : Registry) : step {} = .ok d' ↔ d' = d := by
    rw [h, append_empty]
    exact and_iff_right ⟨by simp, by simp, by simp⟩
  refine ⟨fun d' hd' => (hempty d').1 hd' ▸ hd, fun r r' => ?_⟩
  simp only [h r r', hempty, exists_eq_left]

theorem fails (h : ∀ r r', step r ≠ .ok r') : Adds i step :=
  ⟨fun d hd => absurd hd (h _ d), fun r r' => ⟨fun hr => absurd hr (h r r'), fun ⟨d, hd, _⟩ => absurd hd (h _ d)⟩⟩

theorem ite {c : Prop} [Decidable c] (h : Adds i step) (h' : Adds i step') :
    Adds i fun r => if c then step r else step' r := by
  split
  · exact h
  · exact h'

theorem check (h : Adds i step) (x : Build α) : Adds i fun r => do let r ← step r; let _ ← x; return r := by
  cases x with
  | error e =>
      refine fails fun r r' hr => ?_
      obtain ⟨_, _, hr⟩ := Build.bind_eq_ok.1 hr
      exact nomatch hr
  | ok a =>
      have hstep : (fun r => do let r ← step r; let _ ← (.ok a : Build α); return r) = step :=
        funext fun r => bind_pure (step r)
      rwa [hstep]

end Adds

theorem adds_define (key : DefinitionKey) (what name : Text) (i : Item) (content : List Xml.Node) :
    Adds i fun r => r.define key what name i content := by
  refine .entry (d := { definitions := [⟨key, i, content⟩] }) ⟨⟨by simp, by simp, by simp, by simp⟩, by simp, by simp⟩
    fun r r' => ?_
  rw [define_eq_ok]
  refine and_congr_left fun _ => ⟨fun h => ⟨?_, by simp, by simp⟩, fun h d hd => ?_⟩
  · simpa [eq_comm] using h
  · exact (h.definitions _ List.mem_cons_self d hd).symm

theorem adds_declareElement (name : Name) (rawName : Text) (i : Item) :
    Adds i fun r => r.declareElement name rawName i := by
  cases hd : declared name i with
  | error e => exact .fails fun r r' hr => by simp [declareElement_eq_ok, hd] at hr
  | ok e =>
      obtain ⟨hkey, howner, hitem, hname⟩ := declared_ok hd
      have hentry : IsEntry { elements := [e] } i :=
        ⟨⟨by simp, by simp, by simp, by simp [hkey, howner, hname]⟩, by simp, by simp [hitem]⟩
      refine .entry hentry fun r r' => ?_
      simp only [declareElement_eq_ok, hd, Except.ok.injEq, exists_eq_left']
      refine and_congr_left fun _ => ⟨fun h => ⟨by simp, ?_, by simp⟩, fun h e' he' => ?_⟩
      · simpa [eq_comm, hname] using h
      · exact hname ▸ (h.elements _ List.mem_cons_self e' he').symm

theorem adds_attribute (name : Name) (i : Item) (fault : SchemaFault) :
    Adds i fun r => if (r.attributes.lookup name).isSome then i.fail fault
      else return { r with attributes := (name, i) :: r.attributes } := by
  refine .entry (d := { attributes := [(name, i)] }) ⟨⟨by simp, by simp, by simp, by simp⟩, by simp, by simp⟩
    fun r r' => ?_
  have hfresh : (r.attributes.lookup name).isSome = true ↔ ∃ b ∈ r.attributes, name = b.1 := by
    simp [List.lookup_isSome_iff]
  rw [Build.ite_eq_ok, hfresh, Item.fail_eq_ok, and_false, false_or, Build.pure_eq_ok]
  constructor
  · rintro ⟨hnew, rfl⟩
    refine ⟨⟨by simp, by simp, List.forall_mem_singleton.2 fun b hb hname => hnew ⟨b, hb, hname⟩⟩, rfl⟩
  · rintro ⟨hd, rfl⟩
    exact ⟨fun ⟨b, hb, hname⟩ => hd.attributes _ List.mem_cons_self b hb hname, rfl⟩

theorem adds_add (targetNamespace : Text) (i : Item) (content : List Xml.Node) :
    Adds i fun r => r.add targetNamespace i content := by
  unfold add
  have hignored (warnings : List Text) : IsEntry { warnings } i :=
    ⟨⟨by simp, by simp, by simp, by simp⟩, by simp, by simp⟩
  refine .ite (.entry (hignored [ignoredWarning i]) fun r r' => ?_) (.ite (.entry (hignored []) fun r r' => ?_) ?_)
  · rw [Build.pure_eq_ok, eq_comm]
    exact (and_iff_right ⟨by simp, by simp, by simp⟩).symm
  · rw [Build.pure_eq_ok, eq_comm]
    exact (and_iff_right ⟨by simp, by simp, by simp⟩).symm
  cases i.getFull? "name" with
  | none => exact .fails fun r r' hr => by simp at hr
  | some rawName =>
      refine .ite (adds_declareElement _ _ i) (.ite (adds_attribute _ i _) (.ite ((adds_define _ _ _ i content).check _)
        (.ite (adds_define _ _ _ i content) (.ite (adds_define _ _ _ i content) (.ite (adds_define _ _ _ i content)
          (.fails fun r r' hr => ?_))))))
      simp at hr

/-! ### Registration in another order -/

namespace Alike

variable {r₁ r₂ r₃ : Registry}

theorem refl (r : Registry) : r.Alike r := ⟨.rfl, .rfl, .rfl, .rfl⟩

theorem symm (h : r₁.Alike r₂) : r₂.Alike r₁ :=
  ⟨h.definitions.symm, h.elements.symm, h.attributes.symm, h.warnings.symm⟩

theorem trans (h : r₁.Alike r₂) (h' : r₂.Alike r₃) : r₁.Alike r₃ :=
  ⟨h.definitions.trans h'.definitions, h.elements.trans h'.elements, h.attributes.trans h'.attributes,
    h.warnings.trans h'.warnings⟩

theorem append_left (d : Registry) (h : r₁.Alike r₂) : (d ++ r₁).Alike (d ++ r₂) :=
  ⟨h.definitions.append_left _, h.elements.append_left _, h.attributes.append_left _, h.warnings.append_left _⟩

theorem exchange (d d' r : Registry) : (d' ++ (d ++ r)).Alike (d ++ (d' ++ r)) where
  definitions := List.perm_append_comm_assoc ..
  elements := List.perm_append_comm_assoc ..
  attributes := List.perm_append_comm_assoc ..
  warnings := List.perm_append_comm_assoc ..

end Alike

namespace Disjoint

variable {d d' : Registry}

theorem symm (h : d.Disjoint d') : d'.Disjoint d :=
  ⟨fun a ha b hb => (h.definitions b hb a ha).symm, fun a ha b hb => (h.elements b hb a ha).symm,
    fun a ha b hb => (h.attributes b hb a ha).symm⟩

theorem congr (h : d.Disjoint r) (hr : r.Alike r') : d.Disjoint r' :=
  ⟨fun a ha b hb => h.definitions a ha b (hr.definitions.mem_iff.2 hb),
    fun a ha b hb => h.elements a ha b (hr.elements.mem_iff.2 hb),
    fun a ha b hb => h.attributes a ha b (hr.attributes.mem_iff.2 hb)⟩

theorem append_iff : d.Disjoint (d' ++ r) ↔ d.Disjoint d' ∧ d.Disjoint r := by
  constructor
  · intro h
    exact ⟨⟨fun a ha b hb => h.definitions a ha b (List.mem_append_left _ hb),
        fun a ha b hb => h.elements a ha b (List.mem_append_left _ hb),
        fun a ha b hb => h.attributes a ha b (List.mem_append_left _ hb)⟩,
      ⟨fun a ha b hb => h.definitions a ha b (List.mem_append_right _ hb),
        fun a ha b hb => h.elements a ha b (List.mem_append_right _ hb),
        fun a ha b hb => h.attributes a ha b (List.mem_append_right _ hb)⟩⟩
  · rintro ⟨h, h'⟩
    exact ⟨fun a ha b hb => (List.mem_append.1 hb).elim (h.definitions a ha b) (h'.definitions a ha b),
      fun a ha b hb => (List.mem_append.1 hb).elim (h.elements a ha b) (h'.elements a ha b),
      fun a ha b hb => (List.mem_append.1 hb).elim (h.attributes a ha b) (h'.attributes a ha b)⟩

end Disjoint

theorem nodup_map_append {f : α → β} {l l' : List α} (hl : (l.map f).Nodup) (hl' : (l'.map f).Nodup)
    (h : ∀ a ∈ l, ∀ b ∈ l', f a ≠ f b) : ((l ++ l').map f).Nodup := by
  rw [List.map_append]
  refine hl.append hl' fun x hx hx' => ?_
  obtain ⟨a, ha, rfl⟩ := List.mem_map.1 hx
  obtain ⟨b, hb, he⟩ := List.mem_map.1 hx'
  exact h a ha b hb he.symm

theorem Distinct.append {d : Registry} (hd : d.Distinct) (hr : r.Distinct) (h : d.Disjoint r) : (d ++ r).Distinct where
  definitions := nodup_map_append hd.definitions hr.definitions h.definitions
  elements := nodup_map_append hd.elements hr.elements h.elements
  attributes := nodup_map_append hd.attributes hr.attributes h.attributes
  named := List.forall_mem_append.2 ⟨hd.named, hr.named⟩

theorem Distinct.congr (hr : r.Distinct) (h : r.Alike r') : r'.Distinct where
  definitions := (h.definitions.map _).nodup_iff.1 hr.definitions
  elements := (h.elements.map _).nodup_iff.1 hr.elements
  attributes := (h.attributes.map _).nodup_iff.1 hr.attributes
  named := fun e he => hr.named e (h.elements.mem_iff.2 he)

theorem foldlM_add_distinct {es : List Xml.Element} (hr : r.Distinct)
    (h : es.foldlM (fun r e => Registry.add targetNamespace r (Item.ofTag e.tag e.content) e.content) r = .ok r') :
    r'.Distinct := by
  refine Build.foldlM_induct (P := Distinct) hr (fun r hr e _ r' h => ?_) h
  have hadds := adds_add targetNamespace (Item.ofTag e.tag e.content) e.content
  obtain ⟨d, hd, hdisjoint, rfl⟩ := (hadds.eq_ok r r').1 h
  exact (hadds.isEntry d hd).toDistinct.append hr hdisjoint

theorem foldlM_add_perm {es es' : List Xml.Element} (hperm : es.Perm es')
    (h : es.foldlM (fun r e => Registry.add targetNamespace r (Item.ofTag e.tag e.content) e.content) {} = .ok r) :
    ∃ r', es'.foldlM (fun r e => Registry.add targetNamespace r (Item.ofTag e.tag e.content) e.content) {} = .ok r' ∧
      r.Alike r' := by
  have hadds (e : Xml.Element) := adds_add targetNamespace (Item.ofTag e.tag e.content) e.content
  refine Build.foldlM_perm .refl (fun _ _ _ => .trans) ?_ ?_ hperm (.refl _) h
  · intro e r r' r₁ hr h
    obtain ⟨d, hd, hdisjoint, rfl⟩ := ((hadds e).eq_ok r r₁).1 h
    exact ⟨d ++ r', ((hadds e).eq_ok r' _).2 ⟨d, hd, hdisjoint.congr hr, rfl⟩, hr.append_left d⟩
  · intro e e' r r₁ r₂ h₁ h₂
    obtain ⟨d, hd, hdisjoint, rfl⟩ := ((hadds e).eq_ok r r₁).1 h₁
    obtain ⟨d', hd', hdisjoint', rfl⟩ := ((hadds e').eq_ok _ r₂).1 h₂
    obtain ⟨hboth, hdisjoint'⟩ := Disjoint.append_iff.1 hdisjoint'
    exact ⟨d' ++ r, d ++ (d' ++ r), ((hadds e').eq_ok r _).2 ⟨d', hd', hdisjoint', rfl⟩,
      ((hadds e).eq_ok _ _).2 ⟨d, hd, Disjoint.append_iff.2 ⟨hboth.symm, hdisjoint⟩, rfl⟩, .exchange d d' r⟩

variable {root root' : Xml.Element}

/-- The registry with all that has been added, in the order in which it stands. -/
def inOrder (r : Registry) : Registry :=
  ⟨r.definitions.reverse, r.elements.reverse, r.attributes.reverse, r.warnings.reverse⟩

theorem alike_inOrder (r : Registry) : r.Alike r.inOrder :=
  ⟨(List.reverse_perm _).symm, (List.reverse_perm _).symm, (List.reverse_perm _).symm, (List.reverse_perm _).symm⟩

/-- Whether an element may stand in a schema at all. -/
def admits (e : Xml.Element) : Bool := e.name.uri = Namespace.schema && e.name.isProper

theorem ofRoot_eq_ok : ofRoot root = .ok r ↔ (∀ e ∈ root.children, admits e = true) ∧ ∃ r₁,
    (root.children.filter (!explains ·)).foldlM (fun r e => Registry.add
      ((root.tag.attribute? "targetNamespace").getD []) r (Item.ofTag e.tag e.content) e.content) {} = .ok r₁ ∧
    r = r₁.inOrder := by
  have hloop (u : PUnit) :
      (forIn root.children PUnit.unit fun (e : Xml.Element) _ => (do
        if e.name.uri ≠ Namespace.schema || !e.name.isProper then
          throw (foreignError e.name e.tag.line root.name.localPart)
        pure (.yield ⟨⟩) : Build (ForInStep PUnit))) = .ok u ↔ ∀ e ∈ root.children, admits e = true := by
    refine Build.forIn_eq_ok fun e x => (Build.check_eq_ok (by simp)).trans (and_congr_left fun _ => ?_)
    simp [admits]
  rw [ofRoot]
  simp only [Build.bind_eq_ok, Build.pure_eq_ok]
  constructor
  · rintro ⟨u, hadmits, r₁, h, rfl⟩
    exact ⟨(hloop u).1 hadmits, r₁, h, rfl⟩
  · rintro ⟨hadmits, r₁, h, rfl⟩
    exact ⟨⟨⟩, (hloop _).2 hadmits, r₁, h, rfl⟩

theorem ofRoot_distinct (h : ofRoot root = .ok r) : r.Distinct := by
  obtain ⟨_, r₁, hadd, rfl⟩ := ofRoot_eq_ok.1 h
  exact (foldlM_add_distinct (r := {}) ⟨by simp, by simp, by simp, by simp⟩ hadd).congr (alike_inOrder r₁)

theorem foldlM_add_items {P : Item → Prop} {es : List Xml.Element} (hes : ∀ e ∈ es, P (Item.ofTag e.tag e.content))
    (hr : (∀ d ∈ r.definitions, P d.item) ∧ ∀ e ∈ r.elements, P e.item)
    (h : es.foldlM (fun r e => Registry.add targetNamespace r (Item.ofTag e.tag e.content) e.content) r = .ok r') :
    (∀ d ∈ r'.definitions, P d.item) ∧ ∀ e ∈ r'.elements, P e.item := by
  refine Build.foldlM_induct (P := fun r => (∀ d ∈ r.definitions, P d.item) ∧ ∀ e ∈ r.elements, P e.item) hr ?_ h
  intro r hr e he r' h
  have hadds := adds_add targetNamespace (Item.ofTag e.tag e.content) e.content
  obtain ⟨d, hd, _, rfl⟩ := (hadds.eq_ok r r').1 h
  have hentry := hadds.isEntry d hd
  exact ⟨List.forall_mem_append.2 ⟨fun a ha => hentry.definitionItems a ha ▸ hes e he, hr.1⟩,
    List.forall_mem_append.2 ⟨fun a ha => hentry.elementItems a ha ▸ hes e he, hr.2⟩⟩

/-- What holds of the items at the top of a schema holds of the items that are registered. -/
theorem ofRoot_items {P : Item → Prop} (hes : ∀ e ∈ root.children, P (Item.ofTag e.tag e.content))
    (h : ofRoot root = .ok r) : (∀ d ∈ r.definitions, P d.item) ∧ ∀ e ∈ r.elements, P e.item := by
  obtain ⟨_, r₁, hadd, rfl⟩ := ofRoot_eq_ok.1 h
  obtain ⟨hdefinitions, helements⟩ := foldlM_add_items (r := {}) (fun e he => hes e (List.mem_of_mem_filter he))
    ⟨by simp, by simp⟩ hadd
  exact ⟨fun d hd => hdefinitions d (List.mem_reverse.1 hd), fun e he => helements e (List.mem_reverse.1 he)⟩

/-- Whatever the order of what stands at the top of a schema, the same is registered. -/
theorem ofRoot_perm (htag : root'.tag = root.tag) (hperm : root.children.Perm root'.children)
    (h : ofRoot root = .ok r) : ∃ r', ofRoot root' = .ok r' ∧ r.Alike r' := by
  obtain ⟨hadmits, r₁, hadd, rfl⟩ := ofRoot_eq_ok.1 h
  obtain ⟨r₁', hadd', hr⟩ := foldlM_add_perm (hperm.filter _) hadd
  rw [← htag] at hadd'
  exact ⟨_, ofRoot_eq_ok.2 ⟨fun e he => hadmits e (hperm.mem_iff.2 he), r₁', hadd', rfl⟩,
    (alike_inOrder r₁).symm.trans (hr.trans (alike_inOrder r₁'))⟩

/-! ### Lookups -/

theorem item?_alike (h : r.Alike r') (hr : r.Distinct) (key : DefinitionKey) : r'.item? key = r.item? key := by
  rw [item?, item?, (SameBy.of_perm h.definitions hr.definitions).find?_eq key]

theorem lookup_attributes_alike (h : r.Alike r') (hr : r.Distinct) (name : Name) :
    r'.attributes.lookup name = r.attributes.lookup name :=
  lookup_perm h.attributes hr.attributes name

end Registry

end XmlSchema.Schema
