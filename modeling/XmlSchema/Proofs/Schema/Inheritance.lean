import XmlSchema.Proofs.Schema.Filling

/-!
Types that elements take over. An element of which the type is not told has a head, so that along its heads there is one
that tells its type, however many do not; the type of anything is never taken for want of one.
-/

namespace XmlSchema.Schema

variable {r : Registry} {read : List ReadElement} {sub : Substitution}

/-- The type of an element: its own, or else the type of its head. -/
inductive Typed (read : List ReadElement) : ReadElement → TypeDefinition → Prop
  | own {e : ReadElement} {type : TypeDefinition} (h : e.type = some type) : Typed read e type
  | inherited {e head : ReadElement} {type : TypeDefinition} (hnone : e.type = none)
      (hhead : e.pending.declaration.head = some head.pending.declaration.name) (hkey : head.pending.key = .named)
      (hmem : head ∈ read) (h : Typed read head type) : Typed read e type

/-- An element is declared as it was left, with a type of its own or of its head. -/
def ReadElement.Becomes (read : List ReadElement) (e : ReadElement) (d : ElementDeclaration) : Prop :=
  d = { e.pending.declaration with type := d.type } ∧ Typed read e d.type

/-- All elements of a registry have been read, each as what it is. -/
structure Registry.ReadAs (r : Registry) (read : List ReadElement) : Prop where
  all : ∀ p ∈ r.elements, ∃ e ∈ read, e.pending = p
  listed : ∀ e ∈ read, e.pending.IsListed r
  once : ∀ e ∈ read, ∀ e' ∈ read, e.pending = e'.pending → e = e'
  untyped : ∀ e ∈ read, e.type = none → e.pending.declaration.head.isSome = true

theorem untyped_of_readElementType {s : Scope} {p : PendingElement} {e : ReadElement} {t t' : Traces}
    (h : readElementType s p t = .ok (e, t')) (hnone : e.type = none) :
    e.pending.declaration.head.isSome = true := by
  obtain ⟨hp, hread⟩ := readElementType_ok h
  have hread := readOwnType_ok hread
  rw [hnone] at hread
  cases hread with
  | untyped hh _ => exact hp ▸ hh

theorem allElements_readAs {s : Scope} {table : DefinitionKey → Option Component} {order : List DefinitionKey}
    (hr : r.Outermost) (hread : ∀ p ∈ allElements r s table order, Readable (s.knowing table) p) :
    r.ReadAs ((allElements r s table order).map fun p => (outcome (s.knowing table) p).1) where
  all := fun p hp => ⟨_, List.mem_map_of_mem (mem_allElements hp), pending_outcome _ p⟩
  listed := by
    refine List.forall_mem_map.2 fun p hp => ?_
    rw [pending_outcome]
    exact allElements_listed hr p hp
  once := by
    refine List.forall_mem_map.2 fun p _ => List.forall_mem_map.2 fun q _ h => ?_
    rw [pending_outcome, pending_outcome] at h
    rw [h]
  untyped := by
    refine List.forall_mem_map.2 fun p hp => ?_
    obtain ⟨⟨e, t⟩, hx⟩ := hread p hp
    rw [outcome_eq hx]
    exact untyped_of_readElementType hx

/-! ### Heads -/

section

variable {f : Name → Option Name} {count : Nat} {seen : List Name} {head : Option Name}

theorem headsFrom_nil_ok (h : headsFrom f count seen head = some []) : head = none := by
  cases head with
  | none => rfl
  | some name =>
      cases count with
      | zero => exact nomatch h
      | succ count =>
          rw [headsFrom] at h
          split at h
          · exact nomatch h
          · simp at h

theorem headsFrom_cons_ok {name : Name} {heads : List Name} (h : headsFrom f count seen head = some (name :: heads)) :
    head = some name ∧ ∃ count seen, headsFrom f count seen (f name) = some heads := by
  cases head with
  | none => simp [headsFrom] at h
  | some name' =>
      cases count with
      | zero => exact nomatch h
      | succ count =>
          rw [headsFrom] at h
          split at h
          · exact nomatch h
          obtain ⟨_, hrest, hcons⟩ := Option.map_eq_some_iff.1 h
          obtain ⟨rfl, rfl⟩ := List.cons.inj hcons
          exact ⟨rfl, _, _, hrest⟩

end

theorem headOf_eq (hr : r.Distinct) {p : PendingElement} (hp : p ∈ r.elements) :
    headOf r.elements p.declaration.name = p.declaration.head := by
  have hlookup : (r.elements.map fun e => (e.declaration.name, e.declaration.head)).lookup p.declaration.name =
      some p.declaration.head := by
    refine lookup_of_mem ?_ (List.mem_map_of_mem hp)
    rw [List.map_map]
    exact hr.elements
  rw [headOf, hlookup, Option.join_some]

theorem lookup_heads (hr : r.Distinct) (hsub : substitution r.elements = .ok sub) {p : PendingElement}
    (hp : p ∈ r.elements) : sub.heads.lookup p.declaration.name = headsOf r.elements p := by
  obtain ⟨_, hends, rfl⟩ := substitution_eq_ok.1 hsub
  obtain ⟨heads, hheads⟩ := Option.isSome_iff_exists.1 (hends p hp)
  rw [foldl_heads, List.append_nil, hheads]
  refine lookup_of_mem ?_ (List.mem_reverse.2 (List.mem_map.2 ⟨p, hp, by rw [hheads]; rfl⟩))
  rw [List.map_reverse, List.map_map]
  exact List.nodup_reverse.2 hr.elements

namespace Registry.ReadAs

variable {e e' : ReadElement}

theorem eq_of_name_eq (h : r.ReadAs read) (hr : r.Distinct) (he : e ∈ read) (hk : e.pending.key = .named)
    (he' : e' ∈ read) (hk' : e'.pending.key = .named)
    (hname : e.pending.declaration.name = e'.pending.declaration.name) : e = e' := by
  refine h.once e he e' he' (List.inj_on_of_nodup_map hr.elements ?_ ?_ hname)
  · exact (h.listed e he).mem_of_named hk
  · exact (h.listed e' he').mem_of_named hk'

/-- What is found under the name of an element is the type that it tells. -/
theorem lookup_ownTypes (h : r.ReadAs read) (hr : r.Distinct) (he : e ∈ read) (hk : e.pending.key = .named) :
    (ownTypes read).lookup e.pending.declaration.name = e.type := by
  have hown (type : TypeDefinition) : (e.pending.declaration.name, type) ∈ ownTypes read ↔ e.type = some type := by
    rw [ownTypes, List.mem_filterMap]
    constructor
    · rintro ⟨e', he', hp⟩
      split at hp
      · next hk' =>
          obtain ⟨type', htype, hp⟩ := Option.map_eq_some_iff.1 hp
          obtain ⟨hname, rfl⟩ := Prod.mk.inj hp
          rwa [h.eq_of_name_eq hr he hk he' hk' hname.symm]
      · cases hp
    · intro htype
      exact ⟨e, he, by rw [if_pos hk, htype]; rfl⟩
  cases hl : (ownTypes read).lookup e.pending.declaration.name with
  | some type => exact ((hown type).1 (mem_of_lookup hl)).symm
  | none =>
      cases htype : e.type with
      | none => rfl
      | some type =>
          obtain ⟨_, hl'⟩ := exists_lookup ((hown type).2 htype)
          cases hl.symm.trans hl'

/-- The nearest type along the heads of an element is the one that it takes over, head by head. -/
theorem typed_inheritedType (h : r.ReadAs read) (hr : r.Distinct) (hsub : substitution r.elements = .ok sub)
    {count : Nat} {seen heads : List Name} (he : e ∈ read) (hk : e.pending.key = .named)
    (hheads : headsFrom (headOf r.elements) count seen e.pending.declaration.head = some heads) :
    Typed read e (inheritedType (ownTypes read) heads e.type) := by
  induction heads generalizing e count seen with
  | nil =>
      obtain ⟨type, htype⟩ : ∃ type, e.type = some type := by
        refine Option.ne_none_iff_exists'.1 fun hnone => ?_
        have hhead := h.untyped e he hnone
        rw [headsFrom_nil_ok hheads] at hhead
        exact nomatch hhead
      rw [htype]
      exact .own htype
  | cons name heads ih =>
      obtain ⟨hhead, _, _, hrest⟩ := headsFrom_cons_ok hheads
      -- the head is one of the elements, with the rest of the heads as its own
      obtain ⟨p, hp, rfl⟩ := List.mem_map.1 ((substitution_eq_ok.1 hsub).1 e.pending
        ((h.listed e he).mem_of_named hk) name hhead)
      obtain ⟨e', he', rfl⟩ := h.all p hp
      have hk' := (hr.named e'.pending hp).1
      rw [headOf_eq hr hp] at hrest
      cases htype : e.type with
      | some type => exact .own htype
      | none =>
          have hnext : inheritedType (ownTypes read) (e'.pending.declaration.name :: heads) none =
              inheritedType (ownTypes read) heads e'.type := by
            rw [inheritedType, inheritedType, List.findSome?_cons, h.lookup_ownTypes hr he' hk']
            cases e'.type <;> rfl
          rw [hnext]
          exact .inherited htype hhead hk' he' (ih he' hk' hrest)

/-- Every element is declared with a type of its own or of its head. -/
theorem elementTables_becomes (h : r.ReadAs read) (hr : r.Distinct) (hsub : substitution r.elements = .ok sub) :
    (∀ p ∈ (elementTables sub read).1, ∃ e ∈ read, e.pending.key = .named ∧ e.pending.declaration.name = p.1 ∧
      e.Becomes read p.2) ∧
    ∀ p ∈ (elementTables sub read).2, ∃ e ∈ read, e.pending.key = p.1 ∧ e.Becomes read p.2 := by
  constructor
  · intro p hp
    obtain ⟨e, he, rfl⟩ := List.mem_map.1 hp
    obtain ⟨he, hk⟩ := List.mem_filter.1 he
    have hk : e.pending.key = .named := of_decide_eq_true hk
    refine ⟨e, he, hk, rfl, rfl, ?_⟩
    have hmem := (h.listed e he).mem_of_named hk
    obtain ⟨heads, hheads⟩ := Option.isSome_iff_exists.1 ((substitution_eq_ok.1 hsub).2.1 e.pending hmem)
    have htyped := h.typed_inheritedType hr hsub he hk hheads
    simpa [hk, lookup_heads hr hsub hmem, hheads, ownTypes] using htyped
  · intro p hp
    obtain ⟨e, he, rfl⟩ := List.mem_map.1 hp
    obtain ⟨he, hk⟩ := List.mem_filter.1 he
    have hk : e.pending.key ≠ .named := by simpa using hk
    refine ⟨e, he, rfl, rfl, ?_⟩
    obtain ⟨type, htype⟩ : ∃ type, e.type = some type := by
      refine Option.ne_none_iff_exists'.1 fun hnone => ?_
      have hhead := h.untyped e he hnone
      rw [(h.listed e he).headless hk] at hhead
      cases hhead
    change Typed read e (inheritedType _ _ e.type)
    rw [htype]
    exact .own htype

end Registry.ReadAs

end XmlSchema.Schema
