import XmlSchema.Proofs.Pattern.Failures
import XmlSchema.Proofs.Schema.Sources
import XmlSchema.Proofs.SimpleType.Overflow

/-!
How far a schema document may go. Whatever is wrong with it is reported; but patterns, numbers and groups have limits,
and a document that goes beyond one of them is not read, with nothing wrong in it.
-/

namespace XmlSchema.Schema

/-! ### How deep groups nest -/

/-- Whether an item makes a group of what stands in it. -/
def Item.level (i : Item) : Nat := if i.isAmong ["sequence", "choice", "all", "extension"] then 1 else 0

/-- An item takes over a definition: the group that it refers to, or the type that it extends. -/
inductive Item.Takes (i : Item) : DefinitionKey → Prop
  | group {ref : Text} {name : Name} (hkind : i.is "group" = true) (href : i.getFull? "ref" = some ref)
      (hname : i.expandName ref = .ok name) : Item.Takes i ⟨.group, name⟩
  | type {base : Text} {name : Name} (hkind : i.is "extension" = true) (hbase : i.getFull? "base" = some base)
      (hname : i.expandName base = .ok name) : Item.Takes i ⟨.type, name⟩

/-- Groups nest so deep in an item, or in what it takes over. An item can always be one level around a group that no
item makes, such as the model of anything; what stands in an element or a wildcard does not count. -/
inductive Registry.Nests (r : Registry) : Item → Nat → Prop
  | here {i : Item} {n : Nat} (hn : n ≤ i.level + 1) : Registry.Nests r i n
  | inside {i j : Item} {m n : Nat} (hj : j ∈ i.items) (hkind : j.isAmong ["element", "any"] = false)
      (h : Registry.Nests r j m) (hn : n ≤ m + i.level) : Registry.Nests r i n
  | behind {i j : Item} {key : DefinitionKey} {m n : Nat} (hkey : i.Takes key) (hj : r.item? key = some j)
      (h : Registry.Nests r j m) (hn : n ≤ m + i.level) : Registry.Nests r i n

/-! ### What is reported -/

/-- The attributes that set a value. -/
def settingKeys : List Text := ["default", "fixed", "value"]

/-- A schema document goes beyond what can be read: a pattern beyond the room and the bounds that a matcher has, a name
beyond those that can be told from others, a value beyond the digits that arithmetic allows, or groups beyond the depth
to which they are looked into. -/
inductive Exceeds (root : Xml.Element) : SchemaError → Prop
  | pattern {e : Xml.Element} {value : Text} {failure : Pattern.Failure} (he : e.Within root)
      (hkind : e.name.localPart = "pattern") (hvalue : e.tag.attribute? "value" = some value)
      (h : Pattern.Exceeds Pattern.maxRoom value failure) : Exceeds root (.unreadPattern failure)
  | name {e : Xml.Element} (he : e.Within root) (h : e.name.isProper = false) : Exceeds root .improperName
  | digits {e : Xml.Element} {key value : Text} (he : e.Within root) (hkey : key ∈ settingKeys)
      (hvalue : e.tag.attribute? key = some value) (h : Decimal.maxWhole ≤ value.length + Lexical.carries) :
      Exceeds root .overflow
  | depth {r : Registry} {i : Item} (hr : Registry.ofRoot root = .ok r) (hi : i.From root)
      (h : r.Nests i (maxModelDepth + 1)) : Exceeds root .tooDeep

/-- An error is reported at a line, or the document goes beyond what can be read. -/
def Reported (root : Xml.Element) (error : SchemaError) : Prop :=
  (∃ line fault, error = .malformed line fault) ∨ Exceeds root error

variable {root : Xml.Element} {i : Item}

theorem reported_malformed (line : Nat) (fault : SchemaFault) : Reported root (.malformed line fault) :=
  .inl ⟨line, fault, rfl⟩

theorem reported_foreign {e : Xml.Element} (he : e.Within root) (line : Nat) (parent : Text) :
    Reported root (foreignError e.name line parent) := by
  rw [foreignError]
  split
  · exact reported_malformed ..
  · next h => exact .inr (.name he (Bool.eq_false_iff.2 h))

section

variable {α : Type} {P : α → Prop}

theorem ends_fail (i : Item) (fault : SchemaFault) : Ends P (Reported root) (i.fail fault) :=
  .error (reported_malformed ..)

end

/-! ### Items and names -/

theorem inner_ends (hi : i.From root) : Ends (· = i.items) (Reported root) i.inner := by
  refine hi.inner_ends.mono (fun _ => id) ?_
  rintro _ ⟨_, line, parent, rfl, e, he, rfl⟩
  exact reported_foreign he line parent

theorem flag_ends (i : Item) (key : Text) : Ends (fun _ => True) (Reported root) (i.flag key) := by
  rw [Item.flag]
  split
  · exact .ok trivial
  · exact .ite (fun _ => .ok trivial) fun _ => .ite (fun _ => .ok trivial) fun _ => ends_fail ..

theorem expandName_ends (tag : Xml.Tag) (value : Text) :
    Ends (fun name => expandName tag value = .ok name) (Reported root) (expandName tag value) := by
  refine Ends.imp (Ends.known (P := fun _ => True) ?_) fun _ h => h.1
  rw [expandName]
  dsimp only
  split
  · exact .ite (fun _ => .error (reported_malformed ..)) fun _ => .ok trivial
  · refine .ite (fun _ => .error (reported_malformed ..)) fun _ => .ite (fun _ => .ok trivial) fun _ => ?_
    split
    · exact .ok trivial
    · exact .error (reported_malformed ..)

/-! ### Simple types -/

theorem typeReference_ends {P : TypeDefinition → Prop} (hany : P (.complex .anyType)) (hsimple : ∀ t, P (.simple t))
    {known : TypeLookup} (i : Item) {name : Name}
    (hknown : Ends (fun x => ∀ t, x = some t → P t) (Reported root) (known name)) :
    Ends P (Reported root) (typeReference known i name) := by
  rw [typeReference]
  refine .ite (fun _ => .ite (fun _ => .ok hany) fun _ => ?_) fun _ => hknown.bind fun x hx => ?_
  · split
    · exact .ok (hsimple _)
    · exact ends_fail ..
  · split
    · exact .ok (hx _ rfl)
    · exact ends_fail ..

section

variable {known : TypeLookup} (hknown : ∀ name, Ends (fun _ => True) (Reported root) (known name))

include hknown

theorem simpleTypeReference_ends (i : Item) (name : Name) :
    Ends (fun _ => True) (Reported root) (simpleTypeReference known i name) := by
  have htype := typeReference_ends (P := fun _ => True) trivial (fun _ => trivial) i
    ((hknown name).imp fun _ _ _ _ => trivial)
  rw [simpleTypeReference]
  refine htype.bind fun t _ => ?_
  cases t with
  | simple t => exact .ok trivial
  | complex t => exact ends_fail ..

theorem simpleTypeReferences_ends (i : Item) (value : Text) :
    Ends (fun _ => True) (Reported root) (simpleTypeReferences known i value) := by
  refine (Ends.mapM (Q := fun _ => True) fun word _ => ?_).imp fun _ _ => trivial
  exact (expandName_ends i.tag word).bind fun name _ => simpleTypeReference_ends hknown i name

end

/-! ### Facets -/

theorem facetLiteral_ends (hi : i.From root) (base : SimpleType) {value : Text} (hvalue : i.get? "value" = some value) :
    Ends (fun _ => True) (Reported root) (facetLiteral base i value) := by
  rw [facetLiteral]
  refine .ite (fun _ => ?_) fun _ => .ok trivial
  split
  · exact .ok trivial
  · next hoverflow =>
      obtain ⟨e, he, _, hattribute⟩ := hi.exists_attribute hvalue
      have hlength := Value.length_of_overflow hoverflow
      have happly := WhiteSpace.length_apply_le base.whiteSpace value
      exact .error (.inr (.digits he (by decide) hattribute (by omega)))
  · exact ends_fail ..

theorem facetCount_ends (base : SimpleType) (i : Item) (value : Text) :
    Ends (fun _ => True) (Reported root) (facetCount base i value) := by
  rw [facetCount]
  refine .ite (fun _ => ends_fail ..) fun _ => ?_
  split
  · exact ends_fail ..
  · exact .ite (fun _ => ends_fail ..) fun _ => .ok trivial

theorem facetBound_ends (hi : i.From root) (base : SimpleType) {value : Text} (hvalue : i.get? "value" = some value) :
    Ends (fun _ => True) (Reported root) (facetBound base i value) := by
  rw [facetBound]
  exact .ite (fun _ => facetLiteral_ends hi base hvalue) fun _ => ends_fail ..

theorem facetPattern_ends (hi : i.From root) (hkind : i.is "pattern" = true) {value : Text}
    (hvalue : i.get? "value" = some value) : Ends (fun _ => True) (Reported root) (facetPattern i value) := by
  obtain ⟨e, he, hname, hattribute⟩ := hi.exists_attribute hvalue
  have hcompile := Pattern.compile_ends value
  rw [facetPattern]
  generalize Pattern.compile value = x at hcompile ⊢
  cases hcompile with
  | ok => exact .ok trivial
  | @error failure h =>
      rcases h with ⟨flaw, rfl⟩ | h
      · exact ends_fail ..
      · have hkind : i.kind = "pattern" := by simpa [Item.is] using hkind
        have hexceeds : Reported root (.unreadPattern failure) := .inr (.pattern he (hname.trans hkind) hattribute h)
        cases h <;> exact .error hexceeds

theorem readFacet_ends (hi : i.From root) (base : SimpleType) (r : FacetReading) :
    Ends (fun _ => True) (Reported root) (readFacet base r i) := by
  rw [readFacet]
  split
  · exact ends_fail ..
  next value hvalue =>
  refine .ite (fun hkind => (facetPattern_ends hi hkind hvalue).bind fun _ _ => .ok trivial) fun _ => ?_
  refine .ite (fun _ => (facetLiteral_ends hi base hvalue).bind fun _ _ => .ok trivial) fun _ => ?_
  refine .guard (fun _ => ends_fail ..) fun _ => ?_
  -- the facets that count and those that bound are tried one behind the other, and each ends in the same way
  have hcount {c : Prop} [Decidable c] {f : Int → Facets} {x : Build FacetReading} {k : Facets → FacetReading}
      (hx : Ends (fun _ => True) (Reported root) x) : Ends (fun _ => True) (Reported root)
        (if c then (do let n ← facetCount base i value; let facets ← pure (f n); pure (k facets)) else x) :=
    .ite (fun _ => (facetCount_ends ..).bind fun _ _ => .ok trivial) fun _ => hx
  have hbound {c : Prop} [Decidable c] {f : Literal → Facets} {x : Build FacetReading} {k : Facets → FacetReading}
      (hx : Ends (fun _ => True) (Reported root) x) : Ends (fun _ => True) (Reported root)
        (if c then (do let b ← facetBound base i value; let facets ← pure (f b); pure (k facets)) else x) :=
    .ite (fun _ => (facetBound_ends hi base hvalue).bind fun _ _ => .ok trivial) fun _ => hx
  refine hcount (hcount (hcount (hcount (hcount (hbound (hbound (hbound (hbound ?_))))))))
  refine .ite (fun _ => ?_) fun _ => (ends_fail (P := fun _ => True) ..).bind fun _ _ => .ok trivial
  split
  · exact .ok trivial
  · exact (ends_fail (P := fun _ => True) ..).bind fun _ _ => .ok trivial

theorem readFacets_ends (base : SimpleType) {items : List Item} (hitems : ∀ i ∈ items, i.From root) :
    Ends (fun _ => True) (Reported root) (readFacets base items) :=
  (Ends.foldlM (Q := fun _ => True) trivial fun r _ i hi => readFacet_ends (hitems i hi) base r).bind
    fun _ _ => .ok trivial

/-! ### Simple types inside items -/

mutual

theorem readSimpleType_ends {known : TypeLookup} (hknown : ∀ name, Ends (fun _ => True) (Reported root) (known name))
    (name : Option Name) (i : Item) (hi : i.From root) :
    Ends (fun _ => True) (Reported root) (readSimpleType known name i) := by
  match i with
  | .mk tag path none [body] =>
      rw [readSimpleType]
      refine .ite (fun _ => ?_) fun _ => .error (reported_malformed ..)
      exact readSimpleBody_ends hknown name body (hi.of_mem List.mem_cons_self)
  | .mk tag path none [] | .mk tag path none (_ :: _ :: _) | .mk tag path (some _) inner =>
      rw [readSimpleType]
      · exact (inner_ends hi).bind fun _ _ => ends_fail ..
      · simp

theorem readSimpleBody_ends {known : TypeLookup} (hknown : ∀ name, Ends (fun _ => True) (Reported root) (known name))
    (name : Option Name) (i : Item) (hi : i.From root) :
    Ends (fun _ => True) (Reported root) (readSimpleBody known name i) := by
  match i with
  | .mk tag path foreign inner =>
      unfold readSimpleBody
      dsimp only
      have hfacets {base : SimpleType} {items : List Item} (h : items ⊆ inner) :
          Ends (fun _ => True) (Reported root) (do return SimpleType.restriction name base (← readFacets base items)) :=
        (readFacets_ends base fun j hj => hi.of_mem (h hj)).bind fun _ _ => .ok trivial
      have htypes := readSimpleTypes_ends hknown (Item.mk tag path foreign inner).kind inner fun j hj => hi.of_mem hj
      refine .ite (fun _ => (inner_ends hi).bind fun _ _ => ?_) fun _ => .ite (fun _ => ?_) fun _ => ?_
      · split
        · refine (expandName_ends ..).bind fun n _ => (simpleTypeReference_ends hknown ..).bind fun base _ => ?_
          exact hfacets fun _ hj => hj
        · refine .ite (fun _ => ?_) fun _ => ends_fail ..
          refine (readSimpleType_ends hknown none _ (hi.of_mem List.mem_cons_self)).bind fun base _ => ?_
          exact hfacets (List.subset_cons_self ..)
        · exact ends_fail ..
      · refine (simpleTypeReferences_ends hknown ..).bind fun named _ => (inner_ends hi).bind fun _ _ => ?_
        refine htypes.bind fun inline _ => ?_
        split
        · exact .ite (fun _ => ends_fail ..) fun _ => .ok trivial
        · exact ends_fail ..
      · refine (simpleTypeReferences_ends hknown ..).bind fun named _ => (inner_ends hi).bind fun _ _ => ?_
        refine htypes.bind fun inline _ => ?_
        exact .ite (fun _ => ends_fail ..) fun _ => .ok trivial

theorem readSimpleTypes_ends {known : TypeLookup} (hknown : ∀ name, Ends (fun _ => True) (Reported root) (known name))
    (parent : Text) (items : List Item) (hitems : ∀ i ∈ items, i.From root) :
    Ends (fun _ => True) (Reported root) (readSimpleTypes known parent items) := by
  match items with
  | [] =>
      rw [readSimpleTypes]
      exact .ok trivial
  | i :: later =>
      obtain ⟨hi, hlater⟩ := List.forall_mem_cons.1 hitems
      rw [readSimpleTypes]
      refine .guard (fun _ => ends_fail ..) fun _ => ?_
      refine (readSimpleType_ends hknown none i hi).bind fun _ _ => ?_
      exact (readSimpleTypes_ends hknown parent later hlater).bind fun _ _ => .ok trivial

end

end XmlSchema.Schema
