import XmlSchema.Proofs.Schema.Places

/-!
Which elements the components of a schema refer to: global ones, local ones that reading leaves behind, and those that
the definitions they are built from refer to.
-/

namespace XmlSchema

/-- All elements that a particle refers to are in a set, each told by its name and its key. -/
def Particle.RefersIn (known : Name → ElementKey → Prop) (p : Particle) : Prop :=
  ∀ name key occurs, .element name key occurs ∈ p.parts → known name key

theorem Particle.refersIn_group {known : Name → ElementKey → Prop} {compositor : Compositor} {members : List Particle}
    {occurs : Occurs} {source : Option Name} :
    (group compositor members occurs source).RefersIn known ↔ ∀ m ∈ members, m.RefersIn known := by
  constructor
  · intro h m hm name key o hp
    exact h name key o (mem_parts_group.2 (.inr ⟨m, hm, hp⟩))
  · intro h name key o hp
    rcases mem_parts_group.1 hp with hp | ⟨m, hm, hp⟩
    · cases hp
    · exact h m hm name key o hp

theorem Particle.refersIn_element {known : Name → ElementKey → Prop} {name : Name} {key : ElementKey} {occurs : Occurs}
    (h : known name key) : (element name key occurs).RefersIn known := by
  intro name' key' o hp
  cases List.mem_singleton.1 hp
  exact h

theorem Particle.refersIn_wildcard {known : Name → ElementKey → Prop} {w : Wildcard} {occurs : Occurs} :
    (wildcard w occurs).RefersIn known := by
  intro name key o hp
  cases List.mem_singleton.1 hp

theorem Particle.refersIn_emptySequence {known : Name → ElementKey → Prop} : emptySequence.RefersIn known :=
  refersIn_group.2 (by simp)

def ComplexType.RefersIn (known : Name → ElementKey → Prop) (t : ComplexType) : Prop :=
  ∀ p, t.content.model? = some p → p.RefersIn known

theorem ComplexType.refersIn_anyType {known : Name → ElementKey → Prop} : anyType.RefersIn known := by
  rintro p ⟨⟩
  refine Particle.refersIn_group.2 fun m hm => ?_
  rw [List.mem_singleton.1 hm]
  exact Particle.refersIn_wildcard

def TypeDefinition.RefersIn (known : Name → ElementKey → Prop) : TypeDefinition → Prop
  | simple _ => True
  | complex t => t.RefersIn known

namespace Schema

/-- An element is declared: among the global ones if it is one of them, else at its place. -/
def Knows (s : Schema) (name : Name) (key : ElementKey) : Prop := ∃ d, s.declaration? name key = some d

theorem Knows.of_locals {s : Schema} {name : Name} {key : ElementKey} {d : ElementDeclaration} (hkey : key ≠ .named)
    (h : s.locals.lookup key = some d) : s.Knows name key := by
  cases key with
  | named => exact absurd rfl hkey
  | inside owner path => exact ⟨d, h⟩

def Resolves (s : Schema) (model : Option Particle) : Prop := ∀ p, model = some p → p.RefersIn s.Knows

def SubstitutesDeclared (s : Schema) : Prop := ∀ head, ∀ name ∈ s.substitutes head, s.Knows name .named

def Declares (s : Schema) (d : ElementDeclaration) : Prop :=
  (∃ name, (name, d) ∈ s.elements) ∨ ∃ key, (key, d) ∈ s.locals

theorem mem_of_lookup {α β : Type} [BEq α] [LawfulBEq α] {l : List (α × β)} {a : α} {b : β} (h : l.lookup a = some b) :
    (a, b) ∈ l := by
  obtain ⟨l₁, l₂, rfl, _⟩ := List.lookup_eq_some_iff.1 h
  simp

theorem Declares.of_element? {s : Schema} {d : ElementDeclaration} {name : Name} (h : s.element? name = some d) :
    s.Declares d := .inl ⟨name, mem_of_lookup h⟩

theorem Declares.of_declaration? {s : Schema} {d : ElementDeclaration} {name : Name} {key : ElementKey}
    (h : s.declaration? name key = some d) : s.Declares d := by
  cases key with
  | named => exact .of_element? h
  | inside owner path => exact .inr ⟨.inside owner path, mem_of_lookup h⟩

def Component.RefersIn (known : Name → ElementKey → Prop) : Component → Prop
  | type t => t.RefersIn known
  | group _ members => ∀ m ∈ members, m.RefersIn known
  | attributeGroup _ => True

/-- What can be referred to while a component is read refers to known elements only. -/
structure Scope.RefersIn (known : Name → ElementKey → Prop) (s : Scope) : Prop where
  definitions : ∀ key c, s.definition? key = .ok (some c) → c.RefersIn known
  elements : ∀ name ∈ s.elements, known name .named

variable {known : Name → ElementKey → Prop} {s : Scope} {owner : DefinitionKey} {i : Item} {t t' : Traces}

theorem typeReference_refersIn (hs : s.RefersIn known) {name : Name} {type : TypeDefinition}
    (h : typeReference s.type? i name = .ok type) : type.RefersIn known := by
  rcases typeReference_ok h with rfl | ⟨u, _, rfl⟩ | hfound
  · exact ComplexType.refersIn_anyType
  · trivial
  · exact hs.definitions _ _ hfound

/-! ### Particles -/

theorem readMembers_refersIn {items : List Item}
    (ih : ∀ i ∈ items, (∀ path ∈ particlePaths i, ∀ name, known name (.inside owner path)) →
      ∀ t p t', readParticle s owner i t = .ok (some p, t') → p.RefersIn known)
    (hpaths : ∀ path ∈ particlePathsOfAll items, ∀ name, known name (.inside owner path))
    {compositor : Compositor} {read members : List Particle} (hread : ∀ m ∈ read, m.RefersIn known)
    (h : readMembers s owner compositor read items t = .ok (members, t')) : ∀ m ∈ members, m.RefersIn known := by
  induction items generalizing read t with
  | nil =>
      obtain ⟨rfl, _⟩ := readMembers_nil_ok h
      exact fun m hm => hread m (List.mem_reverse.1 hm)
  | cons i items ihitems =>
      obtain ⟨ihi, ih⟩ := List.forall_mem_cons.1 ih
      obtain ⟨x, t₁, hx, _, h⟩ := readMembers_cons_ok h
      rw [particlePathsOfAll, List.forall_mem_append] at hpaths
      refine ihitems ih hpaths.2 (fun m hm => ?_) h
      cases x with
      | none => exact hread m hm
      | some p =>
          rcases List.mem_cons.1 hm with rfl | hm
          · exact ihi hpaths.1 t m t₁ hx
          · exact hread m hm

theorem readElementParticle_refersIn (hs : s.RefersIn known) {o : Occurs} {p : Particle}
    (hpaths : (i.getFull? "ref").isSome = false → ∀ name, known name (.inside owner i.path))
    (h : readElementParticle s owner o i t = .ok (p, t')) : p.RefersIn known := by
  rcases readElementParticle_ok h with ⟨ref, name, hr, hname, rfl, _⟩ | ⟨hr, x, hx, rfl⟩
  · exact Particle.refersIn_element (hs.elements name hname)
  · obtain ⟨hkey, _⟩ := readLocalElement_ok hx
    rw [hkey]
    exact Particle.refersIn_element (hpaths (by rw [hr]; rfl) _)

theorem readParticle_refersIn (hs : s.RefersIn known) (i : Item) :
    (∀ path ∈ particlePaths i, ∀ name, known name (.inside owner path)) →
      ∀ t p t', readParticle s owner i t = .ok (some p, t') → p.RefersIn known := by
  induction i using Item.induct with
  | mk tag path foreign inner ih =>
      intro hpaths t p t' h
      obtain ⟨o, ho, hread⟩ := readParticle_ok h
      have hoccur : mayOccur (.mk tag path foreign inner) = (decide (o.max ≠ some 0)) := by rw [mayOccur, ho]
      rw [particlePaths] at hpaths
      simp only [hoccur] at hpaths
      cases hread with
      | element hmax hi p hp =>
          rw [if_neg (by simp [hmax]), if_pos hi] at hpaths
          refine readElementParticle_refersIn hs (fun hr name => ?_) hp
          rw [if_neg (by simp [hr])] at hpaths
          exact hpaths path (List.mem_singleton_self path) name
      | wildcard hmax he hi w hw ht => exact Particle.refersIn_wildcard
      | reference hmax he ha hi p hp =>
          obtain ⟨_, name, compositor, members, hc, rfl⟩ := readGroupReference_ok hp
          exact Particle.refersIn_group.2 (hs.definitions _ _ hc)
      | group hmax he ha compositor hi members hmembers hall =>
          rw [if_neg (by simp [hmax]), if_neg (by simp [he]), if_neg (by simp [ha]), if_pos (by simp [hi])] at hpaths
          exact Particle.refersIn_group.2 (readMembers_refersIn ih hpaths (by simp) hmembers)

theorem readModel_refersIn (hs : s.RefersIn known) {items rest : List Item}
    (hpaths : ∀ path ∈ modelPaths items, ∀ name, known name (.inside owner path)) {model : Option Particle}
    (h : readModel s owner items t = .ok ((model, rest), t')) : ∀ p, model = some p → p.RefersIn known := by
  rintro p rfl
  rcases readModel_ok h with ⟨hm, _⟩ | ⟨first, later, rfl, hkind, _, h⟩
  · cases hm
  · rw [modelPaths, if_pos hkind] at hpaths
    exact readParticle_refersIn hs first hpaths t p t' h

theorem readGroup_refersIn (hs : s.RefersIn known)
    (hpaths : ∀ path ∈ particlePathsOfAll i.items, ∀ name, known name (.inside owner path)) {c : Component}
    (h : readGroup s owner i t = .ok (c, t')) : c.RefersIn known := by
  obtain ⟨body, compositor, members, o, source, hbody, rfl, hp⟩ := readGroup_ok h
  rw [hbody, particlePathsOfAll, particlePathsOfAll, List.append_nil] at hpaths
  exact Particle.refersIn_group.1 (readParticle_refersIn hs body hpaths t _ t' hp)

/-! ### Complex types -/

theorem readComplexContent_refersIn (hs : s.RefersIn known)
    (hpaths : ∀ path ∈ i.items.flatMap fun body => modelPaths body.items, ∀ name, known name (.inside owner path))
    {name : Option Name} {isAbstract mixed : Bool} {x : ComplexType}
    (h : readComplexContent s owner name isAbstract mixed i t = .ok (x, t')) : x.RefersIn known := by
  obtain ⟨d, base, mixed', model, rest, t₁, hd, hb, _, hmodel, _, h⟩ := readComplexContent_ok h
  obtain ⟨hbody, _, n, href⟩ := readDerivation_ok hd
  rw [hbody, List.flatMap_singleton] at hpaths
  have hm := readModel_refersIn hs hpaths hmodel
  have hbase : base.RefersIn known := by
    have := typeReference_refersIn hs href
    rwa [hb] at this
  rcases h with ⟨_, first, hfirst, h⟩ | ⟨_, h⟩
  · refine contentOfModel_induct Particle.refersIn_emptySequence (extendModel_induct (fun a b ha hb => ?_) ?_ hm) h
    · exact Particle.refersIn_group.2 (List.forall_mem_cons.2 ⟨ha, List.forall_mem_singleton.2 hb⟩)
    · intro p hp
      rw [nonEmptyModel_ok hfirst] at hp
      exact hbase p (Option.filter_eq_some_iff.1 hp).1
  · exact contentOfModel_induct Particle.refersIn_emptySequence hm h

theorem readComplexType_refersIn (hs : s.RefersIn known)
    (hpaths : ∀ path ∈ typePaths i, ∀ name, known name (.inside owner path)) {name : Option Name} {x : ComplexType}
    (h : readComplexType s owner name i t = .ok (x, t')) : x.RefersIn known := by
  rw [typePaths] at hpaths
  cases readComplexType_ok h with
  | simple first later hi hs isAbstract h =>
      obtain ⟨type, hc⟩ := (readSimpleContent_ok h).1
      intro p hp
      rw [hc] at hp
      cases hp
  | complex first later hi hsimple hc isAbstract mixed h =>
      rw [hi] at hpaths
      simp only [hsimple, hc, Bool.false_eq_true, if_false, if_true] at hpaths
      exact readComplexContent_refersIn hs hpaths h
  | declared hi isAbstract mixed h =>
      obtain ⟨model, rest, t₁, hmodel, _, h⟩ := readDeclaredType_ok h
      refine contentOfModel_induct Particle.refersIn_emptySequence (readModel_refersIn hs ?_ hmodel) h
      cases hitems : i.items with
      | nil => simp [modelPaths]
      | cons first later =>
          obtain ⟨hsimple, hc⟩ := hi first later hitems
          simpa only [hitems, hsimple, hc, Bool.false_eq_true, if_false] using hpaths

end Schema

end XmlSchema
