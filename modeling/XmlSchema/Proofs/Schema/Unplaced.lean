import XmlSchema.Proofs.Schema.Places

/-!
Items without their places. Only local elements are known by where they stand, so attributes and simple types are read
in the same way wherever they stand.
-/

namespace XmlSchema.Schema

namespace Item

mutual

/-- The item with nothing said about its place, nor about the places of the items in it. -/
def unplaced : Item → Item
  | mk tag _ foreign inner => mk tag [] foreign (unplacedAll inner)

def unplacedAll : List Item → List Item
  | [] => []
  | i :: later => unplaced i :: unplacedAll later

end

theorem unplacedAll_eq_map (items : List Item) : unplacedAll items = items.map unplaced := by
  induction items with
  | nil => rfl
  | cons i items ih => rw [unplacedAll, ih, List.map_cons]

variable (i : Item)

@[simp] theorem tag_unplaced : i.unplaced.tag = i.tag := by
  cases i
  rfl

@[simp] theorem line_unplaced : i.unplaced.line = i.line := by rw [line, line, tag_unplaced]

@[simp] theorem kind_unplaced : i.unplaced.kind = i.kind := by rw [kind, kind, tag_unplaced]

@[simp] theorem is_unplaced (kind : Text) : i.unplaced.is kind = i.is kind := by rw [is, is, kind_unplaced]

@[simp] theorem isAmong_unplaced (kinds : List Text) : i.unplaced.isAmong kinds = i.isAmong kinds := by
  rw [isAmong, isAmong, kind_unplaced]

@[simp] theorem get?_unplaced (key : Text) : i.unplaced.get? key = i.get? key := by rw [get?, get?, tag_unplaced]

@[simp] theorem getFull?_unplaced (key : Text) : i.unplaced.getFull? key = i.getFull? key := by
  rw [getFull?, getFull?, get?_unplaced]

@[simp] theorem fail_unplaced {α : Type} (fault : SchemaFault) : (i.unplaced.fail fault : Build α) = i.fail fault := by
  rw [fail, fail, line_unplaced]

@[simp] theorem expandName_unplaced (value : Text) : i.unplaced.expandName value = i.expandName value := by
  rw [Item.expandName, Item.expandName, tag_unplaced]

theorem inner_unplaced : i.unplaced.inner = i.inner.map (List.map unplaced) := by
  obtain ⟨tag, path, foreign, items⟩ := i
  rw [unplaced, unplacedAll_eq_map]
  cases foreign <;> rfl

/-- Where it is only asked whether there are foreign elements inside, the items do not matter. -/
theorem bind_inner_unplaced {α : Type} (x : Build α) :
    (i.unplaced.inner >>= fun _ => x) = (i.inner >>= fun _ => x) := by
  rw [inner_unplaced]
  cases i.inner <;> rfl

theorem filter_unplaced (p : Item → Bool) (hp : ∀ i, p i.unplaced = p i) (items : List Item) :
    (items.map unplaced).filter p = (items.filter p).map unplaced := by
  rw [List.filter_map]
  exact congrArg _ (List.filter_congr fun i _ => hp i)

end Item

/-! ### Simple types -/

variable (known : TypeLookup) (base : SimpleType) (i : Item)

theorem typeReference_unplaced (name : Name) : typeReference known i.unplaced name = typeReference known i name := by
  simp only [typeReference, Item.fail_unplaced]

theorem simpleTypeReference_unplaced (name : Name) :
    simpleTypeReference known i.unplaced name = simpleTypeReference known i name := by
  simp only [simpleTypeReference, typeReference_unplaced, Item.fail_unplaced]

theorem simpleTypeReferences_unplaced (value : Text) :
    simpleTypeReferences known i.unplaced value = simpleTypeReferences known i value := by
  simp only [simpleTypeReferences, simpleTypeReference_unplaced, Item.expandName_unplaced]

theorem readFacet_unplaced (r : FacetReading) : readFacet base r i.unplaced = readFacet base r i := by
  obtain ⟨tag, path, foreign, inner⟩ := i
  rfl

theorem readFacets_unplaced (items : List Item) :
    readFacets base (items.map Item.unplaced) = readFacets base items := by
  simp only [readFacets, List.foldlM_map, readFacet_unplaced]

/-- A simple type is read alike from items that differ in their places. -/
structure SimplyRead (known : TypeLookup) (i : Item) : Prop where
  type : ∀ name, readSimpleType known name i.unplaced = readSimpleType known name i
  body : ∀ name, readSimpleBody known name i.unplaced = readSimpleBody known name i

theorem readSimpleTypes_unplaced {items : List Item} (h : ∀ i ∈ items, SimplyRead known i) (parent : Text) :
    readSimpleTypes known parent (items.map Item.unplaced) = readSimpleTypes known parent items := by
  induction items with
  | nil => rfl
  | cons i items ih =>
      obtain ⟨hi, hitems⟩ := List.forall_mem_cons.1 h
      simp only [List.map_cons, readSimpleTypes, ih hitems, hi.type, Item.is_unplaced, Item.fail_unplaced,
        Item.kind_unplaced]

theorem simplyRead (i : Item) : SimplyRead known i := by
  induction i using Item.induct with
  | mk tag path foreign inner ih =>
      have hitem : (Item.mk tag path foreign inner).unplaced = .mk tag [] foreign (inner.map Item.unplaced) := by
        rw [Item.unplaced, Item.unplacedAll_eq_map]
      constructor
      · intro name
        rw [hitem]
        match foreign, inner with
        | none, [body] =>
            rw [List.map_singleton, readSimpleType, readSimpleType, Item.isAmong_unplaced,
              (ih body (List.mem_singleton_self body)).body]
        | none, [] => rfl
        | none, _ :: _ :: _ => rfl
        | some _, _ => rfl
      · intro name
        rw [hitem]
        unfold readSimpleBody
        rw [← hitem]
        simp only [Item.is_unplaced, Item.getFull?_unplaced, Item.get?_unplaced, Item.fail_unplaced, Item.kind_unplaced,
          Item.expandName_unplaced, Item.bind_inner_unplaced, simpleTypeReference_unplaced,
          simpleTypeReferences_unplaced, readSimpleTypes_unplaced known ih, readFacets_unplaced]
        cases inner with
        | nil => rfl
        | cons first later =>
            have hfirst := (ih first List.mem_cons_self).type
            cases (Item.mk tag path foreign (first :: later)).getFull? "base" with
            | some base => rfl
            | none => simp only [List.map_cons, Item.is_unplaced, hfirst, readFacets_unplaced]

/-! ### Attributes -/

section

variable (s : Scope)

theorem attributeType_unplaced : attributeType s i.unplaced = attributeType s i := by
  rw [attributeType, attributeType, Item.inner_unplaced]
  cases i.inner with
  | error => rfl
  | ok items =>
      have hfilter := Item.filter_unplaced (·.is "simpleType") (fun i => Item.is_unplaced i _) items
      simp only [Except.map, bind, Except.bind, hfilter, Item.getFull?_unplaced, Item.expandName_unplaced,
        Item.fail_unplaced, simpleTypeReference_unplaced]
      cases i.getFull? "type" <;> cases items.filter (·.is "simpleType") <;>
        simp only [List.map_nil, List.map_cons, (simplyRead _ _).type]

theorem checkConstraints_unplaced (type : SimpleType) (default fixed : Option Text) :
    checkConstraints i.unplaced type default fixed = checkConstraints i type default fixed := by
  simp only [checkConstraints, Item.fail_unplaced]

theorem localNamespace_unplaced (qualified : Bool) :
    localNamespace s i.unplaced qualified = localNamespace s i qualified := by
  rw [localNamespace, localNamespace, Item.getFull?_unplaced]

theorem readAttributeUse_unplaced : readAttributeUse s i.unplaced = readAttributeUse s i := by
  simp only [readAttributeUse, Item.getFull?_unplaced, Item.get?_unplaced, Item.fail_unplaced, Item.line_unplaced,
    Item.expandName_unplaced, attributeType_unplaced, checkConstraints_unplaced, localNamespace_unplaced]

theorem readWildcard_unplaced : readWildcard s i.unplaced = readWildcard s i := by
  simp only [readWildcard, Item.getFull?_unplaced, Item.fail_unplaced]

theorem readAttributeItem_unplaced (parent : Text) (r : AttributeReading) :
    readAttributeItem s parent r i.unplaced = readAttributeItem s parent r i := by
  simp only [readAttributeItem, Item.is_unplaced, Item.getFull?_unplaced, Item.fail_unplaced, Item.kind_unplaced,
    Item.expandName_unplaced, readAttributeUse_unplaced, readWildcard_unplaced]

end

end XmlSchema.Schema
