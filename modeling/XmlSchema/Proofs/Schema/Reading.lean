import XmlSchema.Schema.Elements

/-!
What a reading that succeeds has done: each of its steps has succeeded. One lemma for every function that reads content
tells what that comes to.
-/

namespace XmlSchema.Schema

variable {α β : Type}

/-! ### Steps that succeed -/

namespace Build

@[simp] theorem bind_eq_ok {x : Build α} {f : α → Build β} {b : β} :
    (x >>= f) = .ok b ↔ ∃ a, x = .ok a ∧ f a = .ok b := by
  cases x <;> simp [bind, Except.bind]

@[simp] theorem pure_eq_ok {a b : α} : (pure a : Build α) = .ok b ↔ a = b := by simp [pure, Except.pure]

@[simp] theorem throw_eq_ok {e : SchemaError} {a : α} : (throw e : Build α) = .ok a ↔ False := by
  simp [throw, throwThe, MonadExceptOf.throw]

@[simp] theorem ite_eq_ok {c : Prop} [Decidable c] {x y : Build α} {a : α} :
    (if c then x else y) = .ok a ↔ c ∧ x = .ok a ∨ ¬ c ∧ y = .ok a := by
  by_cases h : c <;> simp [h]

theorem exists_of_map_toOption {x : Build α} {f : α → β} {b : β} (h : x.toOption.map f = some b) :
    ∃ a, x = .ok a ∧ f a = b := by
  cases x with
  | error e => exact nomatch h
  | ok a => exact ⟨a, rfl, Option.some.inj h⟩

theorem foldlM_induct {step : β → α → Build β} {P : β → Prop} {l : List α} {b b' : β} (hb : P b)
    (hstep : ∀ b, P b → ∀ a ∈ l, ∀ b', step b a = .ok b' → P b') (h : l.foldlM step b = .ok b') : P b' := by
  induction l generalizing b with
  | nil =>
      cases h
      exact hb
  | cons a l ih =>
      rw [List.foldlM_cons, bind_eq_ok] at h
      obtain ⟨b₁, h₁, h⟩ := h
      exact ih (hstep b hb a List.mem_cons_self b₁ h₁) (fun b hb a ha => hstep b hb a (List.mem_cons_of_mem _ ha)) h

theorem mapM_forall {P : β → Prop} {f : α → Build β} {l : List α} {bs : List β}
    (hf : ∀ a ∈ l, ∀ b, f a = .ok b → P b) (h : l.mapM f = .ok bs) : ∀ b ∈ bs, P b := by
  induction l generalizing bs with
  | nil =>
      cases h
      simp
  | cons a l ih =>
      obtain ⟨ha, hl⟩ := List.forall_mem_cons.1 hf
      simp only [List.mapM_cons, bind_eq_ok, pure_eq_ok] at h
      obtain ⟨b, hb, bs, hbs, rfl⟩ := h
      exact List.forall_mem_cons.2 ⟨ha b hb, ih hl hbs⟩

end Build

@[simp] theorem Item.fail_eq_ok {i : Item} {fault : SchemaFault} {a : α} : i.fail fault = .ok a ↔ False := by
  simp [Item.fail]

namespace Reading

variable {t t' : Traces}

@[simp] theorem bind_eq_ok {x : Reading α} {f : α → Reading β} {p : β × Traces} :
    (x >>= f) t = .ok p ↔ ∃ a t', x t = .ok (a, t') ∧ f a t' = .ok p := by
  change (x t >>= fun p => f p.1 p.2) = _ ↔ _
  rw [Build.bind_eq_ok]
  exact Prod.exists

@[simp] theorem pure_eq_ok {a b : α} : (pure a : Reading α) t = .ok (b, t') ↔ a = b ∧ t = t' := by
  change (Except.ok (a, t) : Build (α × Traces)) = _ ↔ _
  simp

@[simp] theorem lift_eq_ok {x : Build α} {a : α} : (liftM x : Reading α) t = .ok (a, t') ↔ x = .ok a ∧ t = t' := by
  change (x >>= fun a => pure (a, t)) = _ ↔ _
  simp only [Build.bind_eq_ok, Build.pure_eq_ok, Prod.mk.injEq]
  constructor
  · rintro ⟨_, hx, rfl, rfl⟩
    exact ⟨hx, rfl⟩
  · rintro ⟨hx, rfl⟩
    exact ⟨a, hx, rfl, rfl⟩

@[simp] theorem ite_eq_ok {c : Prop} [Decidable c] {x y : Reading α} {p : α × Traces} :
    (if c then x else y) t = .ok p ↔ c ∧ x t = .ok p ∨ ¬ c ∧ y t = .ok p := by
  by_cases h : c <;> simp [h]

@[simp] theorem modify_eq_ok {f : Traces → Traces} {u : PUnit} :
    (modify f : Reading PUnit) t = .ok (u, t') ↔ f t = t' := by
  change (Except.ok (PUnit.unit, f t) : Build (PUnit × Traces)) = _ ↔ _
  simp

@[simp] theorem get_eq_ok {a : Traces} : (get : Reading Traces) t = .ok (a, t') ↔ t = a ∧ t = t' := by
  change (Except.ok (t, t) : Build (Traces × Traces)) = _ ↔ _
  simp

@[simp] theorem set_eq_ok {a : Traces} {u : PUnit} : (set a : Reading PUnit) t = .ok (u, t') ↔ a = t' := by
  change (Except.ok (PUnit.unit, a) : Build (PUnit × Traces)) = _ ↔ _
  simp

theorem foldlM_induct {step : β → α → Reading β} {P : β → Prop} {l : List α} {b b' : β} (hb : P b)
    (hstep : ∀ b, P b → ∀ a ∈ l, ∀ t b' t', step b a t = .ok (b', t') → P b') (h : l.foldlM step b t = .ok (b', t')) :
    P b' := by
  induction l generalizing b t with
  | nil =>
      rw [List.foldlM_nil, pure_eq_ok] at h
      exact h.1 ▸ hb
  | cons a l ih =>
      rw [List.foldlM_cons, bind_eq_ok] at h
      obtain ⟨b₁, t₁, h₁, h⟩ := h
      exact ih (hstep b hb a List.mem_cons_self t b₁ t₁ h₁)
        (fun b hb a ha => hstep b hb a (List.mem_cons_of_mem _ ha)) h

theorem mapM_forall {P : β → Prop} {f : α → Reading β} {l : List α} {bs : List β}
    (hf : ∀ a ∈ l, ∀ t b t', f a t = .ok (b, t') → P b) (h : l.mapM f t = .ok (bs, t')) : ∀ b ∈ bs, P b := by
  induction l generalizing bs t with
  | nil =>
      rw [List.mapM_nil, pure_eq_ok] at h
      obtain ⟨rfl, _⟩ := h
      simp
  | cons a l ih =>
      obtain ⟨ha, hl⟩ := List.forall_mem_cons.1 hf
      simp only [List.mapM_cons, bind_eq_ok, pure_eq_ok] at h
      obtain ⟨b, t₁, hb, bs, t₂, hbs, rfl, rfl⟩ := h
      exact List.forall_mem_cons.2 ⟨ha t b t₁ hb, ih hl hbs⟩

end Reading

variable {s : Scope} {owner : DefinitionKey} {i : Item} {t t' : Traces}

/-! ### Types by name -/

theorem type?_ok {name : Name} {type : TypeDefinition} (h : s.type? name = .ok (some type)) :
    s.definition? ⟨.type, name⟩ = .ok (some (.type type)) := by
  rw [Scope.type?, Build.bind_eq_ok] at h
  obtain ⟨c, hc, h⟩ := h
  rcases c with _ | c | _ | _
  · simp at h
  · cases h
    exact hc
  · simp at h
  · simp at h

/-- A name refers to the type of anything, to a built-in type or to a type that is defined. -/
theorem typeReference_ok {name : Name} {type : TypeDefinition} (h : typeReference s.type? i name = .ok type) :
    type = .complex .anyType ∨ (∃ u, SimpleType.builtin? name.localPart = some u ∧ type = .simple u) ∨
      s.definition? ⟨.type, name⟩ = .ok (some (.type type)) := by
  rw [typeReference] at h
  split at h
  · split at h
    · exact .inl (Build.pure_eq_ok.1 h).symm
    · cases hb : SimpleType.builtin? name.localPart with
      | none => simp [hb] at h
      | some u =>
          rw [hb] at h
          exact .inr (.inl ⟨u, rfl, (Build.pure_eq_ok.1 h).symm⟩)
  · rw [Build.bind_eq_ok] at h
    obtain ⟨found, hfound, h⟩ := h
    cases found with
    | none => simp at h
    | some found =>
        cases h
        exact .inr (.inr (type?_ok hfound))


/-- The items inside an item, whether or not something else is there too. -/
def Item.items : Item → List Item
  | mk _ _ _ inner => inner

theorem Item.items_of_inner {items : List Item} (h : i.inner = .ok items) : items = i.items := by
  obtain ⟨tag, path, foreign, inner⟩ := i
  cases foreign with
  | none =>
      cases h
      rfl
  | some child => cases h

/-! ### Particles -/

theorem readLocalElement_ok {x : Name × ElementKey} (h : readLocalElement s owner i t = .ok (x, t')) :
    x.2 = .inside owner i.path ∧ ∃ d : ElementDeclaration, d.name = x.1 ∧ d.head = none ∧
      t' = { t with elements := ⟨.inside owner i.path, owner, i, d⟩ :: t.elements } := by
  rw [readLocalElement] at h
  cases hn : i.getFull? "name" with
  | none => simp [hn] at h
  | some name =>
      simp only [hn, Reading.bind_eq_ok, Reading.lift_eq_ok, Reading.modify_eq_ok, Reading.pure_eq_ok] at h
      obtain ⟨isNillable, _, ⟨_, rfl⟩, _, _, rfl, rfl, rfl⟩ := h
      exact ⟨rfl, _, rfl, rfl, rfl⟩

theorem readElementParticle_ok {o : Occurs} {p : Particle} (h : readElementParticle s owner o i t = .ok (p, t')) :
    (∃ ref name, i.getFull? "ref" = some ref ∧ name ∈ s.elements ∧ p = .element name .named o ∧ t' = t) ∨
    (i.getFull? "ref" = none ∧ ∃ x, readLocalElement s owner i t = .ok (x, t') ∧ p = .element x.1 x.2 o) := by
  rw [readElementParticle] at h
  cases hr : i.getFull? "ref" with
  | none =>
      simp only [hr, Reading.bind_eq_ok, Reading.pure_eq_ok] at h
      obtain ⟨x, _, hx, rfl, rfl⟩ := h
      exact .inr ⟨rfl, x, hx, rfl⟩
  | some ref =>
      simp only [hr, Reading.bind_eq_ok, Reading.lift_eq_ok, Reading.ite_eq_ok, Reading.pure_eq_ok, Item.fail_eq_ok,
        false_and, and_false, or_false] at h
      obtain ⟨name, _, ⟨_, rfl⟩, hname, rfl, rfl⟩ := h
      exact .inl ⟨ref, name, rfl, by simpa using hname, rfl, rfl⟩

theorem readGroupReference_ok {o : Occurs} {p : Particle} (h : readGroupReference s o i t = .ok (p, t')) :
    t' = t ∧ ∃ name compositor members, s.definition? ⟨.group, name⟩ = .ok (some (.group compositor members)) ∧
      p = .group compositor members o (some name) := by
  rw [readGroupReference] at h
  cases hr : i.getFull? "ref" with
  | none => simp [hr] at h
  | some ref =>
      simp only [hr, Reading.bind_eq_ok, Reading.lift_eq_ok] at h
      obtain ⟨name, _, ⟨_, rfl⟩, c, _, ⟨hc, rfl⟩, h⟩ := h
      cases c with
      | none => simp at h
      | some c =>
          cases c with
          | group compositor members =>
              simp only [Reading.pure_eq_ok] at h
              obtain ⟨rfl, rfl⟩ := h
              exact ⟨rfl, name, compositor, members, hc, rfl⟩
          | type => simp at h
          | attributeGroup => simp at h

/-- The ways in which a particle is read. -/
inductive ParticleRead (s : Scope) (owner : DefinitionKey) (i : Item) (o : Occurs) (t t' : Traces) :
    Option Particle → Prop
  | absent (ho : o.max = some 0) (ht : t' = t) : ParticleRead s owner i o t t' none
  | element (ho : o.max ≠ some 0) (hi : i.is "element" = true) (p : Particle)
      (h : readElementParticle s owner o i t = .ok (p, t')) : ParticleRead s owner i o t t' (some p)
  | wildcard (ho : o.max ≠ some 0) (he : i.is "element" = false) (hi : i.is "any" = true) (w : Wildcard)
      (h : readWildcard s i = .ok w) (ht : t' = t) : ParticleRead s owner i o t t' (some (.wildcard w o))
  | reference (ho : o.max ≠ some 0) (he : i.is "element" = false) (ha : i.is "any" = false)
      (hi : compositor? i.kind = none) (p : Particle) (h : readGroupReference s o i t = .ok (p, t')) :
      ParticleRead s owner i o t t' (some p)
  | group (ho : o.max ≠ some 0) (he : i.is "element" = false) (ha : i.is "any" = false) (compositor : Compositor)
      (hi : compositor? i.kind = some compositor) (members : List Particle)
      (h : readMembers s owner compositor [] i.items t = .ok (members, t'))
      (hall : compositor = .all → o.max = some 1 ∧ o.min ≤ 1) :
      ParticleRead s owner i o t t' (some (.group compositor members o none))

theorem readParticle_ok {x : Option Particle} (h : readParticle s owner i t = .ok (x, t')) :
    ∃ o, occurs i = .ok o ∧ ParticleRead s owner i o t t' x := by
  obtain ⟨tag, path, foreign, inner⟩ := i
  rw [readParticle] at h
  simp only [Reading.ite_eq_ok, Reading.bind_eq_ok, Reading.lift_eq_ok, Reading.pure_eq_ok, Item.fail_eq_ok, false_and,
    and_false, exists_false, false_or] at h
  obtain ⟨_, o, _, ⟨ho, rfl⟩, h⟩ := h
  refine ⟨o, ho, ?_⟩
  rcases h with ⟨hmax, rfl, rfl⟩ | ⟨hmax, h⟩
  · exact .absent hmax rfl
  rcases h with ⟨hi, p, _, h, rfl, rfl⟩ | ⟨he, h⟩
  · exact .element hmax hi p h
  rw [Bool.not_eq_true] at he
  rcases h with ⟨hi, w, _, ⟨h, rfl⟩, rfl, rfl⟩ | ⟨ha, h⟩
  · exact .wildcard hmax he hi w h rfl
  rw [Bool.not_eq_true] at ha
  cases hc : compositor? (Item.mk tag path foreign inner).kind with
  | none =>
      simp only [hc, Reading.bind_eq_ok, Reading.pure_eq_ok] at h
      obtain ⟨p, _, h, rfl, rfl⟩ := h
      exact .reference hmax he ha hc p h
  | some compositor =>
      simp only [hc, Reading.ite_eq_ok, Reading.bind_eq_ok, Reading.lift_eq_ok, Reading.pure_eq_ok, Item.fail_eq_ok,
        false_and, and_false, exists_false, false_or] at h
      obtain ⟨_, _, ⟨_, rfl⟩, members, _, h, hall, rfl, rfl⟩ := h
      refine .group hmax he ha compositor hc members h ?_
      rintro rfl
      simpa using hall

/-- An element is read as an element particle, if at all. -/
theorem readParticle_element {p : Particle} (hi : i.is "element" = true)
    (h : readParticle s owner i t = .ok (some p, t')) : ∃ name key o, p = .element name key o := by
  obtain ⟨o, _, hread⟩ := readParticle_ok h
  cases hread with
  | element _ _ p hp =>
      rcases readElementParticle_ok hp with ⟨_, name, _, _, rfl, _⟩ | ⟨_, x, _, rfl⟩
      · exact ⟨name, .named, o, rfl⟩
      · exact ⟨x.1, x.2, o, rfl⟩
  | wildcard _ he | reference _ he | group _ he => exact nomatch hi.symm.trans he

theorem readMembers_nil_ok {compositor : Compositor} {read members : List Particle}
    (h : readMembers s owner compositor read [] t = .ok (members, t')) : members = read.reverse ∧ t' = t := by
  rw [readMembers, Reading.pure_eq_ok] at h
  exact ⟨h.1.symm, h.2.symm⟩

theorem readMembers_cons_ok {compositor : Compositor} {read members : List Particle} {later : List Item}
    (h : readMembers s owner compositor read (i :: later) t = .ok (members, t')) :
    ∃ x t₁, readParticle s owner i t = .ok (x, t₁) ∧
      (compositor = .all → i.is "element" = true ∧ ∀ p, x = some p → p.occurs.max = some 1) ∧
      readMembers s owner compositor (x.toList ++ read) later t₁ = .ok (members, t') := by
  rw [readMembers] at h
  simp only [Reading.ite_eq_ok, Reading.bind_eq_ok, Reading.lift_eq_ok, Item.fail_eq_ok, false_and,
    and_false, exists_false, false_or] at h
  obtain ⟨hkind, x, t₁, hx, h⟩ := h
  refine ⟨x, t₁, hx, ?_⟩
  cases x with
  | none => exact ⟨fun hc => ⟨by simpa [hc] using hkind, fun _ hp => nomatch hp⟩, h⟩
  | some p =>
      simp only [Reading.ite_eq_ok, Reading.bind_eq_ok, Reading.lift_eq_ok, Item.fail_eq_ok, false_and,
        and_false, exists_false, false_or] at h
      refine ⟨fun hc => ⟨by simpa [hc] using hkind, fun p hp => ?_⟩, h.2⟩
      cases hp
      simpa [hc] using h.1

theorem readGroup_ok {c : Component} (h : readGroup s owner i t = .ok (c, t')) :
    ∃ body compositor members o source, i.items = [body] ∧ c = .group compositor members ∧
      readParticle s owner body t = .ok (some (.group compositor members o source), t') := by
  rw [readGroup] at h
  simp only [Reading.bind_eq_ok, Reading.lift_eq_ok] at h
  obtain ⟨items, _, ⟨hitems, rfl⟩, h⟩ := h
  obtain rfl := Item.items_of_inner hitems
  rcases hbody : i.items with _ | ⟨body, _ | ⟨other, later⟩⟩ <;> rw [hbody] at h
  · simp at h
  · simp only [Reading.ite_eq_ok, Reading.bind_eq_ok, Reading.lift_eq_ok, Item.fail_eq_ok, false_and,
      and_false, exists_false, false_or] at h
    obtain ⟨_, _, x, _, hx, h⟩ := h
    cases x with
    | none => simp at h
    | some p =>
        cases p with
        | group compositor members o source =>
            simp only [Reading.pure_eq_ok] at h
            obtain ⟨rfl, rfl⟩ := h
            exact ⟨body, compositor, members, o, source, rfl, rfl, hx⟩
        | element => simp at h
        | wildcard => simp at h
  · simp at h

def modelKinds : List Text := ["sequence", "choice", "all", "group"]

theorem readModel_ok {items rest : List Item} {model : Option Particle}
    (h : readModel s owner items t = .ok ((model, rest), t')) :
    (model = none ∧ rest = items ∧ t' = t ∧ ∀ first later, items = first :: later →
      first.isAmong modelKinds = false) ∨
    ∃ first later, items = first :: later ∧ first.isAmong modelKinds = true ∧ rest = later ∧
      readParticle s owner first t = .ok (model, t') := by
  unfold readModel at h
  cases items with
  | nil =>
      simp only [Reading.pure_eq_ok, Prod.mk.injEq] at h
      obtain ⟨⟨rfl, rfl⟩, rfl⟩ := h
      exact .inl ⟨rfl, rfl, rfl, fun _ _ hf => nomatch hf⟩
  | cons first later =>
      simp only [Reading.ite_eq_ok, Reading.bind_eq_ok, Reading.pure_eq_ok, Prod.mk.injEq] at h
      rcases h with ⟨hk, x, _, hx, ⟨rfl, rfl⟩, rfl⟩ | ⟨hk, ⟨rfl, rfl⟩, rfl⟩
      · exact .inr ⟨first, later, rfl, hk, rfl, hx⟩
      · refine .inl ⟨rfl, rfl, rfl, ?_⟩
        rintro _ _ ⟨⟩
        exact Bool.not_eq_true _ ▸ hk

/-! ### Content -/

theorem nonEmptyModel_ok {model m : Option Particle} (h : nonEmptyModel model = .ok m) :
    m = model.filter (!·.isEmptyGroup) := by
  rw [nonEmptyModel] at h
  split at h
  · cases h
  · exact (Except.ok.inj h).symm

theorem contentOfModel_ok {model : Option Particle} {mixed : Bool} {content : ContentType}
    (h : contentOfModel model mixed = .ok content) :
    (∃ p, model = some p ∧ p.isEmptyGroup = false ∧ content = if mixed then .mixed p else .elementOnly p) ∨
    ((∀ p, model = some p → p.isEmptyGroup = true) ∧ content = if mixed then .mixed .emptySequence else .empty) := by
  rw [contentOfModel] at h
  simp only [Build.bind_eq_ok] at h
  obtain ⟨m, hm, h⟩ := h
  rw [nonEmptyModel_ok hm] at h
  cases model with
  | none =>
      simp only [Option.filter_none, Build.pure_eq_ok] at h
      exact .inr ⟨fun _ hp => (nomatch hp), h.symm⟩
  | some p =>
      cases he : p.isEmptyGroup with
      | true =>
          simp only [Option.filter_some, he, Bool.not_true, Bool.false_eq_true, if_false, Build.pure_eq_ok] at h
          refine .inr ⟨?_, h.symm⟩
          rintro _ ⟨⟩
          exact he
      | false =>
          simp only [Option.filter_some, he, Bool.not_false, if_true, Build.pure_eq_ok] at h
          exact .inl ⟨p, rfl, he, h.symm⟩

/-- What holds of a model, and of the empty one, holds of the model of the content that is made from it. -/
theorem contentOfModel_induct {P : Particle → Prop} (hempty : P .emptySequence) {model : Option Particle} {mixed : Bool}
    {content : ContentType} (hm : ∀ p, model = some p → P p) (h : contentOfModel model mixed = .ok content) :
    ∀ p, content.model? = some p → P p := by
  intro p hp
  rcases contentOfModel_ok h with ⟨q, rfl, _, rfl⟩ | ⟨_, rfl⟩
  · have hq : p = q := by cases mixed <;> cases hp <;> rfl
    exact hq ▸ hm q rfl
  · have hq : p = .emptySequence := by cases mixed <;> cases hp; rfl
    exact hq ▸ hempty

theorem extendModel_induct {P : Particle → Prop}
    (hpair : ∀ a b, P a → P b → P (.group .sequence [a, b] {} none)) {first second : Option Particle}
    (h₁ : ∀ p, first = some p → P p) (h₂ : ∀ p, second = some p → P p) :
    ∀ p, extendModel first second = some p → P p := by
  intro p hp
  cases first with
  | none => exact h₂ p hp
  | some a =>
      cases second with
      | none => exact h₁ p hp
      | some b =>
          cases hp
          exact hpair a b (h₁ a rfl) (h₂ b rfl)

/-! ### Attributes -/

theorem Reading.foldlM_elements {step : β → α → Reading β} {l : List α} {b b' : β}
    (hstep : ∀ b, ∀ a ∈ l, ∀ t b' t', step b a t = .ok (b', t') → t'.elements = t.elements)
    (h : l.foldlM step b t = .ok (b', t')) : t'.elements = t.elements := by
  induction l generalizing b t with
  | nil =>
      rw [List.foldlM_nil, Reading.pure_eq_ok] at h
      rw [h.2]
  | cons a l ih =>
      rw [List.foldlM_cons, Reading.bind_eq_ok] at h
      obtain ⟨b₁, t₁, h₁, h⟩ := h
      rw [ih (fun b a ha => hstep b a (List.mem_cons_of_mem _ ha)) h, hstep b a List.mem_cons_self t b₁ t₁ h₁]

theorem Reading.mapM_elements {f : α → Reading β} {l : List α} {bs : List β}
    (hf : ∀ a ∈ l, ∀ t b t', f a t = .ok (b, t') → t'.elements = t.elements) (h : l.mapM f t = .ok (bs, t')) :
    t'.elements = t.elements := by
  induction l generalizing bs t with
  | nil =>
      rw [List.mapM_nil, Reading.pure_eq_ok] at h
      rw [h.2]
  | cons a l ih =>
      simp only [List.mapM_cons, Reading.bind_eq_ok, Reading.pure_eq_ok] at h
      obtain ⟨b, t₁, h₁, bs', _, h, rfl, rfl⟩ := h
      rw [ih (fun a ha => hf a (List.mem_cons_of_mem _ ha)) h, hf a List.mem_cons_self t b t₁ h₁]

theorem readAttributeUse_elements {u : AttributeUse} (h : readAttributeUse s i t = .ok (u, t')) :
    t'.elements = t.elements := by
  rw [readAttributeUse] at h
  cases hu : Use.ofName? (Text.trim ((i.getFull? "use").getD "optional")) with
  | none => simp [hu] at h
  | some use =>
      cases hr : i.getFull? "ref" with
      | some ref =>
          simp only [hu, hr, Reading.ite_eq_ok, Reading.bind_eq_ok, Reading.lift_eq_ok, Reading.pure_eq_ok,
            Reading.modify_eq_ok, Item.fail_eq_ok, false_and, and_false, exists_false, false_or] at h
          obtain ⟨_, _, name, _, ⟨_, rfl⟩, _, _, ⟨_, rfl⟩, _, _, rfl, _, rfl⟩ := h
          rfl
      | none =>
          simp only [hu, hr, Reading.ite_eq_ok, Reading.bind_eq_ok, Reading.lift_eq_ok, Item.fail_eq_ok, false_and,
            and_false, exists_false, false_or] at h
          cases hn : i.getFull? "name" with
          | none => simp [hn] at h
          | some name =>
              simp only [hn, Reading.bind_eq_ok, Reading.lift_eq_ok, Reading.pure_eq_ok] at h
              obtain ⟨_, _, _, _, ⟨_, rfl⟩, _, _, ⟨_, rfl⟩, _, rfl⟩ := h
              rfl

theorem readAttributeItem_elements {parent : Text} {r r' : AttributeReading}
    (h : readAttributeItem s parent r i t = .ok (r', t')) : t'.elements = t.elements := by
  rw [readAttributeItem] at h
  simp only [Reading.ite_eq_ok, Reading.bind_eq_ok, Reading.lift_eq_ok, Reading.pure_eq_ok, Item.fail_eq_ok,
    false_and, and_false, exists_false, false_or, or_false] at h
  obtain ⟨_, ⟨_, u, _, hu, _, _, rfl⟩ | ⟨_, ⟨_, h⟩ | ⟨_, _, w, _, ⟨_, rfl⟩, _, rfl⟩⟩⟩ := h
  · exact readAttributeUse_elements hu
  · cases hr : i.getFull? "ref" with
    | none => simp [hr] at h
    | some ref =>
        simp only [hr, Reading.bind_eq_ok, Reading.lift_eq_ok] at h
        obtain ⟨name, _, ⟨_, rfl⟩, c, _, ⟨_, rfl⟩, h⟩ := h
        cases c with
        | none => simp at h
        | some c =>
            cases c with
            | attributeGroup set =>
                simp only [Reading.pure_eq_ok] at h
                rw [h.2]
            | type => simp at h
            | group => simp at h
  · rfl

theorem readAttributes_elements {parent : Text} {items : List Item} {set : AttributeSet}
    (h : readAttributes s parent items t = .ok (set, t')) : t'.elements = t.elements := by
  rw [readAttributes] at h
  simp only [Reading.bind_eq_ok, Reading.pure_eq_ok] at h
  obtain ⟨r, _, h, _, rfl⟩ := h
  exact Reading.foldlM_elements (fun _ _ _ _ _ _ h => readAttributeItem_elements h) h

/-! ### Complex types -/

theorem readDerivation_ok {d : Derivation} (h : readDerivation s i = .ok d) :
    i.items = [d.body] ∧ d.isExtension = d.body.is "extension" ∧
      ∃ name, typeReference s.type? d.body name = .ok d.base := by
  rw [readDerivation] at h
  simp only [Build.bind_eq_ok] at h
  obtain ⟨items, hitems, h⟩ := h
  obtain rfl := Item.items_of_inner hitems
  rcases hbody : i.items with _ | ⟨body, _ | ⟨other, later⟩⟩ <;> rw [hbody] at h
  · simp at h
  · cases hb : body.getFull? "base" with
    | none => simp [hb] at h
    | some base =>
        simp only [hb, Build.ite_eq_ok, Build.bind_eq_ok, Build.pure_eq_ok, Item.fail_eq_ok, false_and,
          and_false, exists_false, false_or] at h
        obtain ⟨_, name, _, type, htype, rfl⟩ := h
        exact ⟨rfl, rfl, name, htype⟩
  · simp at h

theorem readSimpleContent_ok {name : Option Name} {isAbstract : Bool} {x : ComplexType}
    (h : readSimpleContent s name isAbstract i t = .ok (x, t')) :
    (∃ type, x.content = .simple type) ∧ t'.elements = t.elements := by
  rw [readSimpleContent] at h
  simp only [Reading.bind_eq_ok, Reading.lift_eq_ok, Reading.ite_eq_ok, Reading.pure_eq_ok] at h
  obtain ⟨d, _, ⟨_, rfl⟩, parts, _, ⟨_, rfl⟩, ⟨_, type, _, ⟨_, rfl⟩, own, _, h, rfl, rfl⟩ |
    ⟨_, type, _, ⟨_, rfl⟩, base, _, ⟨_, rfl⟩, facets, _, ⟨_, rfl⟩, own, _, h, rfl, rfl⟩⟩ := h
  · exact ⟨⟨_, rfl⟩, readAttributes_elements h⟩
  · exact ⟨⟨_, rfl⟩, readAttributes_elements h⟩

theorem readComplexContent_ok {name : Option Name} {isAbstract mixed : Bool} {x : ComplexType}
    (h : readComplexContent s owner name isAbstract mixed i t = .ok (x, t')) :
    ∃ d base mixed' model rest t₁, readDerivation s i = .ok d ∧ d.base = .complex base ∧
      contentMixed i mixed = .ok mixed' ∧ readModel s owner d.body.items t = .ok ((model, rest), t₁) ∧
      t'.elements = t₁.elements ∧
      (d.isExtension = true ∧ (∃ first, nonEmptyModel base.content.model? = .ok first ∧
          contentOfModel (extendModel first model) (mixed' || base.content.isMixed) = .ok x.content) ∨
        d.isExtension = false ∧ contentOfModel model mixed' = .ok x.content) := by
  rw [readComplexContent] at h
  simp only [Reading.bind_eq_ok, Reading.lift_eq_ok] at h
  obtain ⟨d, _, ⟨hd, rfl⟩, h⟩ := h
  cases hb : d.base with
  | simple type => simp [hb] at h
  | complex base =>
      simp only [hb, Reading.bind_eq_ok, Reading.lift_eq_ok, Reading.ite_eq_ok, Reading.pure_eq_ok] at h
      obtain ⟨mixed', _, ⟨hmixed, rfl⟩, items, _, ⟨hitems, rfl⟩, ⟨model, rest⟩, t₁, hmodel, h⟩ := h
      obtain rfl := Item.items_of_inner hitems
      rcases h with ⟨hx, first, _, ⟨hfirst, rfl⟩, content, _, ⟨hcontent, rfl⟩, own, _, h, rfl, rfl⟩ |
        ⟨hx, content, _, ⟨hcontent, rfl⟩, own, _, h, rfl, rfl⟩
      · exact ⟨d, base, mixed', model, rest, t₁, hd, hb, hmixed, hmodel, readAttributes_elements h,
          .inl ⟨hx, first, hfirst, hcontent⟩⟩
      · exact ⟨d, base, mixed', model, rest, t₁, hd, hb, hmixed, hmodel, readAttributes_elements h,
          .inr ⟨by simpa using hx, hcontent⟩⟩

theorem readComplexContent_bases {name : Option Name} {isAbstract mixed : Bool} {x : ComplexType} {d : Derivation}
    (h : readComplexContent s owner name isAbstract mixed i t = .ok (x, t')) (hd : readDerivation s i = .ok d) :
    x.bases = d.base.lineage := by
  rw [readComplexContent] at h
  simp only [Reading.bind_eq_ok, Reading.lift_eq_ok] at h
  obtain ⟨d', _, ⟨hd', rfl⟩, h⟩ := h
  cases hd.symm.trans hd'
  cases hb : d.base with
  | simple type => simp [hb] at h
  | complex base =>
      simp only [hb, Reading.bind_eq_ok, Reading.lift_eq_ok, Reading.ite_eq_ok, Reading.pure_eq_ok] at h
      obtain ⟨_, _, _, _, _, _, _, _, _, ⟨_, _, _, _, _, _, _, _, _, _, rfl, _⟩ | ⟨_, _, _, _, _, _, _, rfl, _⟩⟩ := h
      · rfl
      · rfl

theorem readDeclaredType_ok {name : Option Name} {isAbstract mixed : Bool} {items : List Item} {x : ComplexType}
    (h : readDeclaredType s owner name isAbstract mixed i items t = .ok (x, t')) :
    ∃ model rest t₁, readModel s owner items t = .ok ((model, rest), t₁) ∧ t'.elements = t₁.elements ∧
      contentOfModel model mixed = .ok x.content := by
  rw [readDeclaredType] at h
  simp only [Reading.bind_eq_ok, Reading.lift_eq_ok, Reading.pure_eq_ok] at h
  obtain ⟨⟨model, rest⟩, t₁, hmodel, content, _, ⟨hcontent, rfl⟩, own, _, h, rfl, rfl⟩ := h
  exact ⟨model, rest, t₁, hmodel, readAttributes_elements h, hcontent⟩

inductive ComplexTypeRead (s : Scope) (owner : DefinitionKey) (name : Option Name) (i : Item) (t t' : Traces)
    (x : ComplexType) : Prop
  | simple (first : Item) (later : List Item) (hi : i.items = first :: later) (hs : first.is "simpleContent" = true)
      (isAbstract : Bool) (h : readSimpleContent s name isAbstract first t = .ok (x, t'))
  | complex (first : Item) (later : List Item) (hi : i.items = first :: later) (hs : first.is "simpleContent" = false)
      (hc : first.is "complexContent" = true) (isAbstract mixed : Bool)
      (h : readComplexContent s owner name isAbstract mixed first t = .ok (x, t'))
  | declared (hi : ∀ first later, i.items = first :: later →
        first.is "simpleContent" = false ∧ first.is "complexContent" = false)
      (isAbstract mixed : Bool) (h : readDeclaredType s owner name isAbstract mixed i i.items t = .ok (x, t'))

theorem readComplexType_ok {name : Option Name} {x : ComplexType}
    (h : readComplexType s owner name i t = .ok (x, t')) : ComplexTypeRead s owner name i t t' x := by
  unfold readComplexType at h
  simp only [Reading.bind_eq_ok, Reading.lift_eq_ok] at h
  obtain ⟨isAbstract, _, ⟨_, rfl⟩, mixed, _, ⟨_, rfl⟩, items, _, ⟨hitems, rfl⟩, h⟩ := h
  obtain rfl := Item.items_of_inner hitems
  cases hi : i.items with
  | nil =>
      rw [hi] at h
      exact .declared (fun _ _ hf => nomatch hi.symm.trans hf) isAbstract mixed (hi ▸ h)
  | cons first later =>
      simp only [hi, Reading.ite_eq_ok, Bool.not_eq_true] at h
      rcases h with ⟨hs, h⟩ | ⟨hs, ⟨hc, h⟩ | ⟨hc, h⟩⟩
      · exact .simple first later hi hs isAbstract h
      · exact .complex first later hi hs hc isAbstract mixed h
      · refine .declared (fun first' later' hf => ?_) isAbstract mixed (hi ▸ h)
        cases hi.symm.trans hf
        exact ⟨hs, hc⟩

/-! ### Elements -/

inductive OwnTypeRead (s : Scope) (p : PendingElement) (inline : List Item) (t t' : Traces) :
    Option TypeDefinition → Prop
  | named (name : Name) (type : TypeDefinition) (h : typeReference s.type? p.item name = .ok type) (ht : t' = t) :
      OwnTypeRead s p inline t t' (some type)
  | complex (first : Item) (hi : first ∈ inline) (hk : first.is "complexType" = true) (type : ComplexType)
      (h : readComplexType s p.owner none first t = .ok (type, t')) : OwnTypeRead s p inline t t' (some (.complex type))
  | simple (type : SimpleType) (ht : t' = t) : OwnTypeRead s p inline t t' (some (.simple type))
  | untyped (hh : p.declaration.head.isSome = true) (ht : t' = t) : OwnTypeRead s p inline t t' none
  | anything (ht : t' = t) : OwnTypeRead s p inline t t' (some (.complex .anyType))

theorem readOwnType_ok {p : PendingElement} {inline : List Item} {x : Option TypeDefinition}
    (h : readOwnType s p inline t = .ok (x, t')) : OwnTypeRead s p inline t t' x := by
  unfold readOwnType at h
  cases hn : p.item.getFull? "type" with
  | some name =>
      simp only [hn, Reading.bind_eq_ok, Reading.lift_eq_ok, Reading.pure_eq_ok] at h
      obtain ⟨name, _, ⟨_, rfl⟩, type, _, ⟨htype, rfl⟩, rfl, rfl⟩ := h
      exact .named name type htype rfl
  | none =>
      cases inline with
      | nil =>
          simp only [hn, Reading.pure_eq_ok] at h
          obtain ⟨rfl, rfl⟩ := h
          split
          · next hh => exact .untyped hh rfl
          · exact .anything rfl
      | cons first later =>
          simp only [hn, Reading.bind_eq_ok, Reading.lift_eq_ok, Reading.ite_eq_ok, Reading.pure_eq_ok] at h
          rcases h with ⟨hk, type, _, h, rfl, rfl⟩ | ⟨hk, type, _, ⟨_, rfl⟩, rfl, rfl⟩
          · exact .complex first List.mem_cons_self hk type h
          · exact .simple type rfl

theorem readElementType_ok {p : PendingElement} {e : ReadElement} (h : readElementType s p t = .ok (e, t')) :
    e.pending = p ∧ readOwnType s p (p.item.items.filter fun t => t.is "complexType" || t.is "simpleType") t =
      .ok (e.type, t') := by
  rw [readElementType] at h
  simp only [Reading.bind_eq_ok, Reading.lift_eq_ok, Reading.ite_eq_ok, Item.fail_eq_ok, false_and, and_false,
    exists_false, false_or] at h
  obtain ⟨items, _, ⟨hitems, rfl⟩, _, _, type, _, htype, h⟩ := h
  obtain rfl := Item.items_of_inner hitems
  cases hs : type.bind (·.simpleType?) with
  | none =>
      simp only [hs, Reading.pure_eq_ok] at h
      obtain ⟨rfl, rfl⟩ := h
      exact ⟨rfl, htype⟩
  | some simple =>
      simp only [hs, Reading.bind_eq_ok, Reading.lift_eq_ok, Reading.pure_eq_ok] at h
      obtain ⟨_, _, ⟨_, rfl⟩, rfl, rfl⟩ := h
      exact ⟨rfl, htype⟩

/-- Whatever level an element stands on, its type has been read in the scope of all. -/
theorem mem_readElements {depth : Nat} {pending : List PendingElement} {read : List ReadElement}
    (h : readElements s depth pending t = .ok (read, t')) {e : ReadElement} (he : e ∈ read) :
    ∃ p t t', readElementType s p t = .ok (e, t') := by
  induction depth generalizing pending read t t' with
  | zero =>
      rw [readElements, Reading.pure_eq_ok] at h
      obtain ⟨rfl, _⟩ := h
      simp at he
  | succ depth ih =>
      rw [readElements] at h
      simp only [Reading.ite_eq_ok, Reading.bind_eq_ok, Reading.pure_eq_ok] at h
      rcases h with ⟨_, rfl, _⟩ | ⟨_, first, t₁, hfirst, _, _, _, _, _, _, later, _, hlater, rfl, _⟩
      · simp at he
      · rcases List.mem_append.1 he with he | he
        · exact Reading.mapM_forall (P := fun e => ∃ p t t', readElementType s p t = .ok (e, t'))
            (fun p _ t e t' h => ⟨p, t, t', h⟩) hfirst e he
        · exact ih hlater he

end XmlSchema.Schema
