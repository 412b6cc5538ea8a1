import XmlSchema.Proofs.Schema.Models

/-!
Names of declarations. A local element is left behind under the name that its particle has, and both know the place of
the item that they are read at; so in a schema every element particle leads to a declaration of its own name.
-/

namespace XmlSchema.Schema

variable {r : Registry} {s : Scope} {owner : DefinitionKey} {i : Item} {t t' : Traces}

theorem Item.NamesLocal.unique {name name' : Name} (h : i.NamesLocal s name) (h' : i.NamesLocal s name') :
    name = name' := by
  obtain ⟨raw, hraw, rfl⟩ := h
  obtain ⟨raw', hraw', rfl⟩ := h'
  cases hraw.symm.trans hraw'
  rfl

/-! ### What is left behind -/

/-- The elements that have been left behind go by the names at their items. -/
def Traces.NamedIn (t : Traces) (s : Scope) : Prop := ∀ e ∈ t.elements, e.item.NamesLocal s e.declaration.name

theorem Traces.NamedIn.congr (h : t.NamedIn s) (he : t'.elements = t.elements) : t'.NamedIn s := by
  rw [Traces.NamedIn, he]
  exact h

theorem readElementParticle_namedIn {o : Occurs} {p : Particle} (ht : t.NamedIn s)
    (h : readElementParticle s owner o i t = .ok (p, t')) : t'.NamedIn s := by
  rcases readElementParticle_ok h with ⟨_, _, _, _, _, rfl⟩ | ⟨_, x, hx, _⟩
  · exact ht
  · obtain ⟨_, d, hname, _, rfl⟩ := readLocalElement_ok hx
    exact List.forall_mem_cons.2 ⟨hname ▸ readLocalElement_names hx, ht⟩

theorem readMembers_namedIn {items : List Item}
    (ih : ∀ i ∈ items, ∀ t x t', t.NamedIn s → readParticle s owner i t = .ok (x, t') → t'.NamedIn s)
    {compositor : Compositor} {read members : List Particle} (ht : t.NamedIn s)
    (h : readMembers s owner compositor read items t = .ok (members, t')) : t'.NamedIn s := by
  induction items generalizing read t with
  | nil =>
      obtain ⟨_, rfl⟩ := readMembers_nil_ok h
      exact ht
  | cons i items ihitems =>
      obtain ⟨ihi, ih⟩ := List.forall_mem_cons.1 ih
      obtain ⟨x, t₁, hx, _, h⟩ := readMembers_cons_ok h
      exact ihitems ih (ihi t x t₁ ht hx) h

theorem readParticle_namedIn (i : Item) :
    ∀ t x t', t.NamedIn s → readParticle s owner i t = .ok (x, t') → t'.NamedIn s := by
  induction i using Item.induct with
  | mk tag path foreign inner ih =>
      intro t x t' ht h
      obtain ⟨o, _, hread⟩ := readParticle_ok h
      cases hread with
      | absent _ he | wildcard _ _ _ _ _ he => exact he ▸ ht
      | element _ _ p hp => exact readElementParticle_namedIn ht hp
      | reference _ _ _ _ p hp => exact (readGroupReference_ok hp).1 ▸ ht
      | group _ _ _ _ _ _ hmembers => exact readMembers_namedIn ih ht hmembers

theorem readModel_namedIn {items : List Item} {x : Option Particle × List Item} (ht : t.NamedIn s)
    (h : readModel s owner items t = .ok (x, t')) : t'.NamedIn s := by
  rcases readModel_ok h with ⟨_, _, rfl, _⟩ | ⟨first, _, _, _, _, h⟩
  · exact ht
  · exact readParticle_namedIn first t x.1 t' ht h

theorem readComplexType_namedIn {name : Option Name} {x : ComplexType} (ht : t.NamedIn s)
    (h : readComplexType s owner name i t = .ok (x, t')) : t'.NamedIn s := by
  cases readComplexType_ok h with
  | simple _ _ _ _ _ h => exact ht.congr (readSimpleContent_ok h).2
  | complex _ _ _ _ _ _ _ h =>
      obtain ⟨_, _, _, _, _, _, _, _, _, hmodel, he, _⟩ := readComplexContent_ok h
      exact (readModel_namedIn ht hmodel).congr he
  | declared _ _ _ h =>
      obtain ⟨_, _, _, hmodel, he, _⟩ := readDeclaredType_ok h
      exact (readModel_namedIn ht hmodel).congr he

theorem readDefinition_namedIn {key : DefinitionKey} {c : Component} (ht : t.NamedIn s)
    (h : readDefinition s key i t = .ok (c, t')) : t'.NamedIn s := by
  rw [readDefinition] at h
  cases hk : key.kind with
  | type =>
      simp only [hk, Reading.ite_eq_ok, Reading.bind_eq_ok, Reading.lift_eq_ok, Reading.pure_eq_ok] at h
      rcases h with ⟨_, x, _, h, _, rfl⟩ | ⟨_, _, _, ⟨_, rfl⟩, _, rfl⟩
      · exact readComplexType_namedIn ht h
      · exact ht
  | group =>
      simp only [hk] at h
      obtain ⟨body, _, _, _, _, _, _, h⟩ := readGroup_ok h
      exact readParticle_namedIn body t _ t' ht h
  | attributeGroup =>
      simp only [hk, Reading.bind_eq_ok, Reading.lift_eq_ok, Reading.pure_eq_ok] at h
      obtain ⟨_, _, ⟨_, rfl⟩, _, _, h, _, rfl⟩ := h
      exact ht.congr (readAttributes_elements h)
  | element => simp [hk] at h

theorem readElementType_namedIn {p : PendingElement} {e : ReadElement} (ht : t.NamedIn s)
    (h : readElementType s p t = .ok (e, t')) : t'.NamedIn s := by
  have hread := readOwnType_ok (readElementType_ok h).2
  generalize e.type = type at hread
  cases hread with
  | complex _ _ _ _ h => exact readComplexType_namedIn ht h
  | named _ _ _ he | simple _ he | untyped _ he | anything he => exact he ▸ ht

/-! ### All elements -/

theorem namedIn_empty (s : Scope) : Traces.NamedIn {} s := by simp [Traces.NamedIn]

theorem outcome_namedIn (s : Scope) (p : PendingElement) : (outcome s p).2.NamedIn s := by
  rw [outcome]
  cases h : readElementType s p {} with
  | error => exact namedIn_empty s
  | ok x => exact readElementType_namedIn (namedIn_empty s) h

theorem tracesOf_namedIn (table : DefinitionKey → Option Component) (key : DefinitionKey) :
    (tracesOf r s table key).NamedIn s := by
  rw [tracesOf]
  cases r.item? key with
  | none => exact namedIn_empty s
  | some i =>
      simp only
      split
      · next c left h => exact readDefinition_namedIn (s := s.knowing table) (namedIn_empty _) h
      · exact namedIn_empty s

theorem allElements_named {table : DefinitionKey → Option Component} {order : List DefinitionKey} (hr : r.Distinct) :
    ∀ p ∈ allElements r s table order, p.key ≠ .named → p.item.NamesLocal s p.declaration.name := by
  refine levels_forall (s := s.knowing table) (fun p _ q hq _ => outcome_namedIn (s.knowing table) p q hq) ?_
  refine List.forall_mem_append.2 ⟨fun p hp hkey => ?_, fun p hp _ => ?_⟩
  · exact absurd (hr.named p (List.mem_reverse.1 hp)).1 hkey
  · obtain ⟨key, _, hp⟩ := List.mem_flatMap.1 hp
    exact tracesOf_namedIn table key p (List.mem_reverse.1 hp)

/-! ### Schemas -/

theorem ReadElement.Becomes.name {read : List ReadElement} {e : ReadElement} {d : ElementDeclaration}
    (h : e.Becomes read d) : d.name = e.pending.declaration.name := by
  rw [h.1]

/-- At one place in a definition or declaration stands one item. -/
theorem Registry.HasItem.eq_of_path (hi : r.HasItem owner i) {p : PendingElement} (hp : p.IsListed r)
    (hr : r.Outermost) (howner : p.owner = owner) (hpath : p.item.path = i.path) : p.item = i := by
  obtain ⟨top, htop, hplaced, hroot, hwithin⟩ := hp.exists_top hr
  obtain ⟨top', htop', hwithin'⟩ := hi
  cases htop'.symm.trans (howner ▸ htop)
  obtain ⟨steps, hsteps, hat⟩ := hplaced.at?_eq hwithin
  obtain ⟨steps', hsteps', hat'⟩ := hplaced.at?_eq hwithin'
  rw [hsteps, hsteps'] at hpath
  obtain rfl := List.reverse_injective (List.append_cancel_right hpath)
  exact Option.some.inj (hat.symm.trans hat')

/-- A local element particle has the name of the item at its place. -/
def NamedAtPlace (r : Registry) (s : Scope) : Particle → Prop
  | .element name (.inside owner path) _ => ∃ i, r.HasItem owner i ∧ i.path = path ∧ i.NamesLocal s name
  | _ => True

theorem grants_namedAtPlace (r : Registry) (s : Scope) : r.Grants s (NamedAtPlace r s) where
  named := fun _ _ _ => trivial
  inside := fun _ i _ _ hi hname _ => ⟨i, hi, rfl, hname⟩
  wildcard := fun _ _ => trivial
  own := fun _ _ _ _ => trivial
  reference := fun _ _ _ _ _ _ _ _ _ _ => trivial

/-- The declarations that are found in a schema go by the names of the elements that have been read for them. -/
theorem ofElement_named {root : Xml.Element} {schema : Schema} (h : ofElement root = .ok schema)
    (hr : Registry.ofRoot root = .ok r) : ∃ table order,
    (∀ name d, schema.element? name = some d → ∃ p ∈ allElements r (rootScope root r) table order,
      p.declaration.name = name ∧ d.name = p.declaration.name) ∧
    ∀ key d, schema.locals.lookup key = some d → ∃ p ∈ allElements r (rootScope root r) table order,
      p.key = key ∧ d.name = p.declaration.name := by
  obtain ⟨_, _, r', order, definitions, read, _, sub, _, hr', horder, hread, hsub, _, hschema⟩ := ofElement_eq_ok.1 h
  cases hr.symm.trans hr'
  have houtermost := Registry.ofRoot_outermost hr
  obtain ⟨_, _, hdefinitions, _⟩ := readRegistry_ok hread
  have hsettles := readDefinitions_settles (Registry.order_ok horder) hdefinitions
  obtain ⟨_, _, hreadable, rfl, _⟩ := (readRegistry_eq_ok hsettles (Registry.order_ok horder)).1 hread
  have hreadAs := allElements_readAs houtermost hreadable
  obtain ⟨hglobal, hlocal⟩ := hreadAs.elementTables_becomes houtermost.toDistinct hsub
  refine ⟨fun key => definitions.lookup key, order, fun name d hd => ?_, fun key d hd => ?_⟩
  · have hd := mem_of_lookup hd
    rw [hschema] at hd
    obtain ⟨_, _, hd⟩ := List.mem_filterMap.1 hd
    obtain ⟨_, hlookup, hd⟩ := Option.map_eq_some_iff.1 hd
    obtain ⟨rfl, rfl⟩ := Prod.mk.inj hd
    obtain ⟨e, he, _, hname, hbecomes⟩ := hglobal _ (mem_of_lookup hlookup)
    obtain ⟨p, hp, rfl⟩ := List.mem_map.1 he
    rw [pending_outcome] at hname
    exact ⟨p, hp, hname, by rw [hbecomes.name, pending_outcome]⟩
  · rw [hschema] at hd
    obtain ⟨e, he, hkey, hbecomes⟩ := hlocal _ (mem_of_lookup hd)
    obtain ⟨p, hp, rfl⟩ := List.mem_map.1 he
    rw [pending_outcome] at hkey
    exact ⟨p, hp, hkey, by rw [hbecomes.name, pending_outcome]⟩

/-- Every element that can be found by its name has that name. -/
theorem ofElement_elementNames {root : Xml.Element} {schema : Schema} (h : ofElement root = .ok schema) {name : Name}
    {d : ElementDeclaration} (hd : schema.element? name = some d) : d.name = name := by
  obtain ⟨r, hr⟩ := exists_registry h
  obtain ⟨table, order, hglobal, _⟩ := ofElement_named h hr
  obtain ⟨p, _, hname, hd⟩ := hglobal name d hd
  exact hd.trans hname

theorem ofElement_localNames {root : Xml.Element} {schema : Schema} (h : ofElement root = .ok schema) {own : Name}
    {owner : DefinitionKey} {path : List Nat} {occurs : Occurs}
    (hp : schema.HasParticle (.element own (.inside owner path) occurs)) {d : ElementDeclaration}
    (hd : schema.declaration? own (.inside owner path) = some d) : d.name = own := by
  obtain ⟨r, hr⟩ := exists_registry h
  obtain ⟨i, hi, hpath, hown⟩ := ofElement_particles h hr (grants_namedAtPlace r _) _ hp
  have houtermost := Registry.ofRoot_outermost hr
  obtain ⟨table, order, _, hlocal⟩ := ofElement_named h hr
  obtain ⟨p, hp, hkey, hd⟩ := hlocal _ d hd
  have hname := allElements_named houtermost.toDistinct p hp (by simp [hkey])
  -- the particle and the declaration stand at one place, where only one item stands
  have hlisted := allElements_listed houtermost p hp
  obtain ⟨howner, hplace⟩ : p.owner = owner ∧ p.item.path = path := by
    rcases hlisted with ⟨hk, _⟩ | ⟨_, _, _, _, hstands⟩
    · exact nomatch hkey.symm.trans hk
    · exact ElementKey.inside.inj (hstands.key.symm.trans hkey)
  rw [hi.eq_of_path hlisted houtermost howner (hplace.trans hpath.symm)] at hname
  rw [hd]
  exact hname.unique hown

/-- Every element particle leads to a declaration of its own name. -/
theorem ofElement_declaresNames {root : Xml.Element} {schema : Schema} (h : ofElement root = .ok schema) {own : Name}
    {key : ElementKey} {occurs : Occurs} (hp : schema.HasParticle (.element own key occurs)) :
    ∃ d, schema.declaration? own key = some d ∧ d.name = own := by
  obtain ⟨d, hd⟩ : schema.Knows own key := by
    obtain ⟨x, model, hx, hmodel, hpart⟩ := hp
    exact (ofElement_closed h).refersIn hx model hmodel own key occurs hpart
  refine ⟨d, hd, ?_⟩
  cases key with
  | named => exact ofElement_elementNames h hd
  | inside owner path => exact ofElement_localNames h hp hd

end XmlSchema.Schema
