import XmlSchema.Proofs.Schema.Lookups
import XmlSchema.Proofs.Schema.Reorderings
import XmlSchema.Proofs.Schema.WellFounded

/-!
The bodies that attributes stand in: those of attribute groups, of complex types, and of extensions and restrictions.
All of them read their attributes behind everything else, so that their order matters to what is read from the body
exactly if it matters to the table of attributes.
-/

namespace XmlSchema.Schema

variable {α β : Type} {s : Scope} {owner : DefinitionKey} {name : Option Name} {isAbstract mixed : Bool}
  {i : Item} {items items' rest : List Item} {t t' : Traces}

/-! ### Components -/

namespace Component

/-- The table of attributes in a component. -/
def attributeSet : Component → AttributeSet
  | .attributeGroup set => set
  | .type (.complex t) => ⟨t.attributes, t.wildcard⟩
  | _ => {}

/-- All but the table of attributes. -/
def withoutAttributes : Component → Component
  | .attributeGroup _ => .attributeGroup {}
  | .type (.complex t) => .type (.complex { t with attributes := [], wildcard := none })
  | c => c

/-- Components that differ at most in the order in which they hold their attributes. -/
structure Same (c c' : Component) : Prop where
  attributes : c.attributeSet.Same c'.attributeSet
  others : c.withoutAttributes = c'.withoutAttributes

end Component

/-- Two readings come to the same: both are refused, or both give components that are the same. -/
inductive Alike : Build Component → Build Component → Prop
  | refused (e e' : SchemaError) : Alike (.error e) (.error e')
  | read (c c' : Component) (h : c.Same c') : Alike (.ok c) (.ok c')

/-- What is made of a table of attributes is the same for tables that are, and tells tables apart that disagree. -/
structure KeepsTable (make : AttributeSet → Component) : Prop where
  same : ∀ a b, a.IsDistinct → b.IsDistinct → a.Same b → (make a).Same (make b)
  agree : ∀ a b, a.IsDistinct → b.IsDistinct → (make a).Same (make b) → a.Agree b

theorem keepsTable_attributeGroup : KeepsTable .attributeGroup where
  same := fun _ _ _ _ h => ⟨h, rfl⟩
  agree := fun _ _ _ _ h => h.attributes.agree

theorem use?_insertAll {a : AttributeSet} (ha : a.IsDistinct) (inherited : AttributeSet) (w : Option Wildcard)
    (name : Name) : AttributeSet.use? ⟨AttributeUse.insertAll a.uses inherited.uses, w⟩ name =
      (a.use? name).or (inherited.use? name) := by
  have hreverse : (a.uses.reverse.find? fun u => u.name = name) = a.uses.find? fun u => u.name = name :=
    ((SameBy.of_perm (List.reverse_perm a.uses).symm ha).find?_eq name).symm
  rw [AttributeSet.use?, find?_insertAll, hreverse, AttributeSet.use?, AttributeSet.use?]

theorem keepsTable_derive (name : Option Name) (isAbstract : Bool) (base : TypeDefinition) (content : ContentType)
    (inherited : AttributeSet) :
    KeepsTable fun own => .type (.complex (derive name isAbstract base content inherited own)) where
  same := by
    intro a b ha hb h
    refine ⟨⟨fun name => ?_, ?_⟩, rfl⟩
    · simp only [Component.attributeSet, derive, use?_insertAll ha, use?_insertAll hb, h.use?]
    · simp only [Component.attributeSet, derive, h.wildcard]
  agree := by
    intro a b ha hb h name u v hu hv
    have huse := h.attributes.use? name
    simp only [Component.attributeSet, derive, use?_insertAll ha, use?_insertAll hb, hu, hv, Option.some_or] at huse
    exact Option.some.inj huse

/-! ### Bodies -/

def declared (items : List Item) : List Item := items.filter fun i => i.isAmong attributeKinds

theorem isAmong_of_is {kind : Text} (hi : i.is kind = true) (kinds : List Text) :
    i.isAmong kinds = kinds.contains kind := by
  rw [Item.is, decide_eq_true_eq] at hi
  rw [Item.isAmong, hi]

theorem isAmong_attributeKinds (i : Item) (hi : i.isMovable = true) : i.isAmong attributeKinds = true := by
  rcases isMovable_iff.1 hi with hi | hi <;> rw [isAmong_of_is hi] <;> decide

theorem movable_declared (items : List Item) : movable (declared items) = movable items :=
  movable_filter isAmong_attributeKinds items

/-- In each order of its attributes a body is read by reading them behind everything else. -/
def ReadsLast (s : Scope) (items : List Item) (read : List Item → Build Component) : Prop :=
  ∃ (parent : Text) (t : Traces) (make : AttributeSet → Component), KeepsTable make ∧ ∀ items', Reordered items items' →
    read items' = (readAttributes s parent (declared items') t).map fun p => make p.1

/-- The order of the attributes in a body does not matter to what is read from it if it does not matter to them; and
if it matters to them, some order of what is read is refused or gives another use of an attribute. -/
structure OrderLaw (s : Scope) (items : List Item) (read : List Item → Build Component) : Prop where
  free : OrderFree s items → ∀ items', Reordered items items' → Alike (read items) (read items')
  bound : (∃ c, read items = .ok c) → (∀ items', Reordered items items' → Alike (read items) (read items')) →
    OrderFree s items

variable {read : List Item → Build Component}

theorem map_eq_ok {x : Build α} {f : α → β} {b : β} (h : x.map f = .ok b) : ∃ a, x = .ok a ∧ f a = b := by
  cases x with
  | error => cases h
  | ok a => exact ⟨a, rfl, Except.ok.inj h⟩

theorem ReadsLast.same (h : ReadsLast s items read) (hfree : OrderFree s items) (horder : Reordered items items')
    {c : Component} (hc : read items = .ok c) : ∃ c', read items' = .ok c' ∧ c.Same c' := by
  obtain ⟨parent, t, make, hkeeps, heq⟩ := h
  rw [heq items (.refl items)] at hc
  obtain ⟨⟨set, t₁⟩, hread, rfl⟩ := map_eq_ok hc
  obtain ⟨set', t₂, hread', hsame⟩ := (hfree.congr (movable_declared items).symm).exists_same
    (horder.filter isAmong_attributeKinds) hread
  refine ⟨make set', ?_, hkeeps.same _ _ (readAttributes_distinct hread) (readAttributes_distinct hread') hsame⟩
  rw [heq items' horder, declared, hread']
  rfl

theorem ReadsLast.orderFree (h : ReadsLast s items read) {c : Component} (hc : read items = .ok c)
    (hall : ∀ items', Reordered items items' → Alike (read items) (read items')) : OrderFree s items := by
  obtain ⟨parent, t, make, hkeeps, heq⟩ := h
  have hitems := heq items (.refl items)
  rw [hc] at hitems
  obtain ⟨⟨set, t₁⟩, hread, hmake⟩ := map_eq_ok hitems.symm
  refine OrderFree.congr (movable_declared items) (orderFree_of_forall_reordered hread fun l hl => ?_)
  obtain ⟨items', horder, rfl⟩ := hl.of_filter isAmong_attributeKinds
  have halike := hall items' horder
  rw [hc] at halike
  generalize hc' : read items' = x at halike
  cases halike with
  | read c c' hsame =>
      rw [heq items' horder] at hc'
      obtain ⟨⟨set', t₂⟩, hread', rfl⟩ := map_eq_ok hc'
      subst hmake
      refine ⟨set', t₂, hread', ?_⟩
      exact hkeeps.agree _ _ (readAttributes_distinct hread) (readAttributes_distinct hread') hsame

theorem orderLaw_of_readsLast
    (h : ∀ items', Reordered items items' → (∃ c, read items' = .ok c) → ReadsLast s items' read) :
    OrderLaw s items read where
  free := by
    intro hfree items' horder
    cases hread : read items with
    | ok c =>
        obtain ⟨c', hread', hsame⟩ := (h items (.refl items) ⟨c, hread⟩).same hfree horder hread
        rw [hread']
        exact .read c c' hsame
    | error e =>
        cases hread' : read items' with
        | error e' => exact .refused e e'
        | ok c' =>
            obtain ⟨c, hc, _⟩ := (h items' horder ⟨c', hread'⟩).same (hfree.reordered horder) horder.symm hread'
            cases hread.symm.trans hc
  bound := fun ⟨c, hc⟩ hall => (h items (.refl items) ⟨c, hc⟩).orderFree hc hall

/-! ### What stands before the attributes -/

section

variable {x : Build α} {f : α → Reading β} {a : α}

theorem Reading.bind_of_ok {x : Reading α} (h : x t = .ok (a, t')) : (x >>= f) t = f a t' := by
  change (x t >>= fun p => f p.1 p.2) = _
  rw [h]
  rfl

theorem Reading.lift_bind_of_ok (h : x = .ok a) : ((liftM x : Reading α) >>= f) t = f a t := by
  subst h
  rfl

theorem Reading.bind_pure_eq_map (x : Reading α) (make : α → β) :
    (x >>= fun a => pure (make a)) t = (x t).map fun p => (make p.1, p.2) := by
  change (x t >>= fun p => pure (make p.1, p.2)) = _
  cases x t <;> rfl

end

theorem isAmong_of_readAttributes {parent : Text} {set : AttributeSet}
    (h : readAttributes s parent items t = .ok (set, t')) : ∀ i ∈ items, i.isAmong attributeKinds = true := by
  intro i hi
  have hread := (readAttributes_accepts.1 ⟨_, h⟩).read i hi
  cases hmovable : i.isMovable with
  | true => exact isAmong_attributeKinds i hmovable
  | false =>
      rw [isAmong_of_is (is_any_of_readAlone hread hmovable)]
      decide

theorem declared_eq_self (h : Reordered items items') (hall : ∀ i ∈ items, i.isAmong attributeKinds = true) :
    declared items' = items' := by
  have hnone := h.filter_eq (p := fun i => !i.isAmong attributeKinds) fun i hi => by
    simp [isAmong_attributeKinds i hi]
  refine List.filter_eq_self.2 fun j hj => ?_
  by_contra hnot
  have hmem : j ∈ items'.filter fun i => !i.isAmong attributeKinds := List.mem_filter.2 ⟨hj, by simpa using hnot⟩
  rw [← hnone] at hmem
  have := hall j (List.mem_of_mem_filter hmem)
  contradiction

theorem not_isAmong_modelKinds (i : Item) (hi : i.isMovable = true) : i.isAmong modelKinds = false := by
  rcases isMovable_iff.1 hi with hi | hi <;> rw [isAmong_of_is hi] <;> decide

theorem not_isMovable_of_simpleType (hi : i.is "simpleType" = true) : i.isMovable = false := by
  rw [Item.isMovable, isAmong_of_is hi]
  decide

theorem not_declared_of_model (hi : i.isAmong modelKinds = true) : i.isAmong attributeKinds = false := by
  have hkinds : ∀ kind ∈ modelKinds, attributeKinds.contains kind = false := by decide
  exact hkinds i.kind (by simpa [Item.isAmong] using hi)

theorem declared_cons_of_not (hi : i.isAmong attributeKinds = false) : declared (i :: items) = declared items := by
  rw [declared, List.filter_cons, hi]
  rfl

theorem readModel_cons (first : Item) (later : List Item) : readModel s owner (first :: later) =
    if first.isAmong modelKinds then do return (← readParticle s owner first, later)
    else return (none, first :: later) := rfl

theorem readModel_reordered {model : Option Particle} (h : readModel s owner items t = .ok ((model, rest), t'))
    (hrest : ∀ i ∈ rest, i.isAmong attributeKinds = true) (horder : Reordered items items') :
    readModel s owner items' t = .ok ((model, declared items'), t') := by
  obtain ⟨rfl, rfl, rfl, hfirst⟩ | ⟨first, later, rfl, hfirst, rfl, hmodel⟩ := readModel_ok h
  · rw [declared_eq_self horder hrest]
    cases items' with
    | nil => rfl
    | cons first' later' =>
        obtain ⟨first, later, hij, _, rfl⟩ := List.forall₂_cons_right_iff.1 horder.exchanged
        have hkind : first'.isAmong modelKinds = false := hij.congr not_isAmong_modelKinds ▸ hfirst first later rfl
        rw [readModel_cons, if_neg (Bool.eq_false_iff.1 hkind)]
        rfl
  · have hfixed : first.isMovable = false := Bool.eq_false_iff.2 fun hi => by
      simp [not_isAmong_modelKinds first hi] at hfirst
    obtain ⟨later', rfl, hlater⟩ := horder.tail hfixed
    rw [declared_cons_of_not (not_declared_of_model hfirst), declared_eq_self hlater hrest,
      readModel_cons, if_pos hfirst]
    exact Reading.bind_eq_ok.2 ⟨model, t', hmodel, rfl⟩

theorem restrictedType_reordered {base base' : SimpleType} (h : restrictedType s base items = .ok (base', rest))
    (horder : Reordered items items') : ∃ rest', restrictedType s base items' = .ok (base', rest') ∧
      Reordered rest rest' ∧ declared rest' = declared items' := by
  cases items with
  | nil =>
      cases h
      obtain rfl := List.forall₂_nil_left_iff.1 horder.exchanged
      exact ⟨[], rfl, .refl [], rfl⟩
  | cons first later =>
      rw [restrictedType] at h
      split at h
      · next hfirst =>
          obtain ⟨later', rfl, hlater⟩ := horder.tail (not_isMovable_of_simpleType hfirst)
          obtain ⟨base', hbase, heq⟩ := Build.bind_eq_ok.1 h
          cases heq
          refine ⟨later', ?_, hlater, (declared_cons_of_not ?_).symm⟩
          · rw [restrictedType, if_pos hfirst, hbase]
            rfl
          · rw [isAmong_of_is hfirst]
            decide
      · next hfirst =>
          cases h
          obtain ⟨first', later', hij, _, rfl⟩ := List.forall₂_cons_left_iff.1 horder.exchanged
          refine ⟨first' :: later', ?_, horder, rfl⟩
          have hkind : first.is "simpleType" = first'.is "simpleType" :=
            hij.congr (f := fun i => i.is "simpleType") (a := false) fun i hi =>
              Bool.eq_false_iff.2 fun hsimple => by simp [not_isMovable_of_simpleType hsimple] at hi
          rw [restrictedType, if_neg (hkind ▸ hfirst)]

/-! ### Complex types -/

/-- In each order of its attributes a complex type is read in the same way, with its attributes last. -/
def ReadsTypeLast (s : Scope) (name : Option Name) (isAbstract : Bool) (items : List Item) (t : Traces)
    (read : List Item → Reading ComplexType) : Prop :=
  ∃ parent t₁ base content inherited, ∀ items', Reordered items items' → read items' t =
    (readAttributes s parent (declared items') t₁).map fun p => (derive name isAbstract base content inherited p.1, p.2)

theorem readDeclaredType_last {x : ComplexType × Traces}
    (h : readDeclaredType s owner name isAbstract mixed i items t = .ok x) :
    ReadsTypeLast s name isAbstract items t (readDeclaredType s owner name isAbstract mixed i) := by
  obtain ⟨x, t'⟩ := x
  rw [readDeclaredType] at h
  simp only [Reading.bind_eq_ok, Reading.lift_eq_ok] at h
  obtain ⟨⟨model, rest⟩, t₁, hmodel, content, _, ⟨hcontent, rfl⟩, own, _, hown, _⟩ := h
  refine ⟨i.kind, t₁, .complex .anyType, content, {}, fun items' horder => ?_⟩
  rw [readDeclaredType, Reading.bind_of_ok (readModel_reordered hmodel (isAmong_of_readAttributes hown) horder)]
  exact (Reading.lift_bind_of_ok hcontent).trans (Reading.bind_pure_eq_map _ _)

section

variable {tag : Xml.Tag} {path : List Nat} {foreign : Option (Name × Nat)} {bodyTag : Xml.Tag} {bodyPath : List Nat}
  {bodyForeign : Option (Name × Nat)}

/-- Derivations from the same type by bodies that differ in their items. -/
structure SameDerivation (d d' : Derivation) : Prop where
  tag : d'.body.tag = d.body.tag
  isExtension : d'.isExtension = d.isExtension
  base : d'.base = d.base

theorem readDerivation_body {d : Derivation}
    (h : readDerivation s (.mk tag path foreign [.mk bodyTag bodyPath bodyForeign items]) = .ok d) :
    d.body = .mk bodyTag bodyPath bodyForeign items ∧ ∀ items', ∃ d', SameDerivation d d' ∧
      d'.body = .mk bodyTag bodyPath bodyForeign items' ∧
      readDerivation s (.mk tag path foreign [.mk bodyTag bodyPath bodyForeign items']) = .ok d' := by
  cases foreign with
  | some child => cases h
  | none =>
      rw [readDerivation] at h
      obtain ⟨_, hinner, h⟩ := Build.bind_eq_ok.1 h
      cases hinner
      cases hbase : (Item.mk bodyTag bodyPath bodyForeign items).getFull? "base" with
      | none => simp [hbase] at h
      | some base =>
          simp only [hbase, Build.ite_eq_ok, Build.bind_eq_ok, Build.pure_eq_ok, Item.fail_eq_ok, false_and, and_false,
            exists_false, false_or] at h
          obtain ⟨hkind, name, hname, type, htype, rfl⟩ := h
          refine ⟨rfl, fun items' => ⟨⟨.mk bodyTag bodyPath bodyForeign items', _, type⟩, ⟨rfl, rfl, rfl⟩, rfl, ?_⟩⟩
          rw [readDerivation]
          refine Build.bind_eq_ok.2 ⟨_, rfl, ?_⟩
          -- only the tag of the body is looked at
          have hbase : (Item.mk bodyTag bodyPath bodyForeign items').getFull? "base" = some base := hbase
          simp only [hbase, Build.ite_eq_ok, Build.bind_eq_ok, Build.pure_eq_ok, Item.fail_eq_ok, false_and, and_false,
            exists_false, false_or]
          exact ⟨hkind, name, hname, type, htype, rfl⟩

namespace SameDerivation

variable {d d' : Derivation} {x : SimpleType × AttributeSet}

theorem kind (h : SameDerivation d d') : d'.body.kind = d.body.kind := by rw [Item.kind, Item.kind, h.tag]

theorem extensionBase (h : SameDerivation d d') (hx : extensionBase d = .ok x) : extensionBase d' = .ok x := by
  rw [Schema.extensionBase] at hx ⊢
  rw [h.base]
  split at hx
  · exact hx
  · split at hx
    · exact hx
    · cases hx

theorem restrictionBase (h : SameDerivation d d') (hx : restrictionBase d = .ok x) : restrictionBase d' = .ok x := by
  rw [Schema.restrictionBase] at hx ⊢
  rw [h.base]
  split at hx
  · cases hx
  · split at hx
    · exact hx
    · cases hx

end SameDerivation

theorem readSimpleContent_last {x : ComplexType × Traces}
    (h : readSimpleContent s name isAbstract (.mk tag path foreign [.mk bodyTag bodyPath bodyForeign items]) t =
      .ok x) :
    ReadsTypeLast s name isAbstract items t fun items =>
      readSimpleContent s name isAbstract (.mk tag path foreign [.mk bodyTag bodyPath bodyForeign items]) := by
  obtain ⟨x, t'⟩ := x
  rw [readSimpleContent] at h
  simp only [Reading.bind_eq_ok, Reading.lift_eq_ok, Reading.ite_eq_ok] at h
  obtain ⟨d, _, ⟨hd, rfl⟩, parts, _, ⟨hparts, rfl⟩, h⟩ := h
  obtain ⟨hbody, hd'⟩ := readDerivation_body hd
  rw [hbody] at hparts
  cases bodyForeign with
  | some child => cases hparts
  | none =>
      cases hparts
      have hinner {d' : Derivation} {items' : List Item} (h : d'.body = .mk bodyTag bodyPath none items') :
          d'.body.inner = .ok items' := h ▸ rfl
      rcases h with ⟨hx, ⟨type, inherited⟩, _, ⟨hbase, rfl⟩, own, _, hown, _⟩ |
        ⟨hx, ⟨type, inherited⟩, _, ⟨hbase, rfl⟩, ⟨base, rest⟩, _, ⟨hrest, rfl⟩, facets, _, ⟨hfacets, rfl⟩, own, _, hown,
          _⟩
      · refine ⟨d.body.kind, t, d.base, .simple type, inherited, fun items' horder => ?_⟩
        obtain ⟨d', hsame, hbody', hd'⟩ := hd' items'
        change readSimpleContent s name isAbstract (.mk tag path foreign [.mk bodyTag bodyPath none items']) t = _
        rw [readSimpleContent, Reading.lift_bind_of_ok hd', Reading.lift_bind_of_ok (hinner hbody'), hsame.isExtension,
          if_pos hx, Reading.lift_bind_of_ok (hsame.extensionBase hbase), hsame.kind, hsame.base,
          declared_eq_self horder (isAmong_of_readAttributes hown)]
        exact Reading.bind_pure_eq_map _ _
      · refine ⟨d.body.kind, t, d.base, .simple (.restriction none base facets), inherited, fun items' horder => ?_⟩
        obtain ⟨d', hsame, hbody', hd'⟩ := hd' items'
        obtain ⟨rest', hrest', hlater, hdeclared⟩ := restrictedType_reordered hrest horder
        have hothers := hlater.filter_eq (p := fun i => !i.isAmong attributeKinds) fun i hi => by
          simp [isAmong_attributeKinds i hi]
        change readSimpleContent s name isAbstract (.mk tag path foreign [.mk bodyTag bodyPath none items']) t = _
        rw [readSimpleContent, Reading.lift_bind_of_ok hd', Reading.lift_bind_of_ok (hinner hbody'), hsame.isExtension,
          if_neg hx, Reading.lift_bind_of_ok (hsame.restrictionBase hbase)]
        refine (Reading.lift_bind_of_ok hrest').trans ?_
        refine (Reading.lift_bind_of_ok (hothers ▸ hfacets)).trans ?_
        rw [hsame.kind, hsame.base, ← hdeclared]
        exact Reading.bind_pure_eq_map _ _

theorem readComplexContent_last {x : ComplexType × Traces}
    (h : readComplexContent s owner name isAbstract mixed
      (.mk tag path foreign [.mk bodyTag bodyPath bodyForeign items]) t = .ok x) :
    ReadsTypeLast s name isAbstract items t fun items => readComplexContent s owner name isAbstract mixed
      (.mk tag path foreign [.mk bodyTag bodyPath bodyForeign items]) := by
  obtain ⟨x, t'⟩ := x
  rw [readComplexContent] at h
  simp only [Reading.bind_eq_ok, Reading.lift_eq_ok] at h
  obtain ⟨d, _, ⟨hd, rfl⟩, h⟩ := h
  obtain ⟨hbody, hd'⟩ := readDerivation_body hd
  cases hb : d.base with
  | simple type => simp [hb] at h
  | complex base =>
      simp only [hb, hbody, Reading.bind_eq_ok, Reading.lift_eq_ok, Reading.ite_eq_ok] at h
      obtain ⟨mixed', _, ⟨hmixed, rfl⟩, parts, _, ⟨hparts, rfl⟩, ⟨model, rest⟩, t₁, hmodel, h⟩ := h
      cases bodyForeign with
      | some child => cases hparts
      | none =>
          cases hparts
          have hinner {d' : Derivation} {items' : List Item} (h : d'.body = .mk bodyTag bodyPath none items') :
              d'.body.inner = .ok items' := h ▸ rfl
          have hmixed' (items' : List Item) :
              contentMixed (.mk tag path foreign [.mk bodyTag bodyPath none items']) mixed = .ok mixed' := hmixed
          rcases h with ⟨hx, first, _, ⟨hfirst, rfl⟩, content, _, ⟨hcontent, rfl⟩, own, _, hown, _⟩ |
            ⟨hx, content, _, ⟨hcontent, rfl⟩, own, _, hown, _⟩
          · refine ⟨d.body.kind, t₁, d.base, content, ⟨base.attributes, base.wildcard⟩, fun items' horder => ?_⟩
            obtain ⟨d', hsame, hbody', hd'⟩ := hd' items'
            change readComplexContent s owner name isAbstract mixed
              (.mk tag path foreign [.mk bodyTag bodyPath none items']) t = _
            rw [readComplexContent, Reading.lift_bind_of_ok hd', hsame.base, hb, hsame.isExtension]
            refine (Reading.lift_bind_of_ok (hmixed' items')).trans ?_
            refine (Reading.lift_bind_of_ok (hinner hbody')).trans ?_
            refine (Reading.bind_of_ok (readModel_reordered hmodel (isAmong_of_readAttributes hown) horder)).trans ?_
            refine (congrFun (if_pos hx) t₁).trans ((Reading.lift_bind_of_ok hfirst).trans ?_)
            refine (Reading.lift_bind_of_ok hcontent).trans ?_
            rw [hsame.kind]
            exact Reading.bind_pure_eq_map _ _
          · refine ⟨d.body.kind, t₁, d.base, content, ⟨base.attributes, none⟩, fun items' horder => ?_⟩
            obtain ⟨d', hsame, hbody', hd'⟩ := hd' items'
            change readComplexContent s owner name isAbstract mixed
              (.mk tag path foreign [.mk bodyTag bodyPath none items']) t = _
            rw [readComplexContent, Reading.lift_bind_of_ok hd', hsame.base, hb, hsame.isExtension]
            refine (Reading.lift_bind_of_ok (hmixed' items')).trans ?_
            refine (Reading.lift_bind_of_ok (hinner hbody')).trans ?_
            refine (Reading.bind_of_ok (readModel_reordered hmodel (isAmong_of_readAttributes hown) horder)).trans ?_
            refine (congrFun (if_neg hx) t₁).trans ((Reading.lift_bind_of_ok hcontent).trans ?_)
            rw [hsame.kind]
            exact Reading.bind_pure_eq_map _ _

/-! ### Components by their bodies -/

/-- Where what a complex type derives from others stands. -/
def contentKinds : List Text := ["simpleContent", "complexContent"]

theorem not_isAmong_contentKinds (i : Item) (hi : i.isMovable = true) : i.isAmong contentKinds = false := by
  rcases isMovable_iff.1 hi with hi | hi <;> rw [isAmong_of_is hi] <;> decide

/-- The component that a complex type is, as it is read. -/
def readTypeComponent (s : Scope) (owner : DefinitionKey) (name : Option Name) (i : Item) : Build Component :=
  (readComplexType s owner name i {}).map fun p => .type (.complex p.1)

/-- A body that attributes stand in, and what reads the component that it is part of from the items in it: a group of
attributes, a complex type that is not derived from a named one, or the extension or restriction in one that is. -/
inductive AttributeBody (s : Scope) (items : List Item) : (List Item → Build Component) → Prop
  | group (name : Name) (tag : Xml.Tag) (path : List Nat) (foreign : Option (Name × Nat)) :
      AttributeBody s items fun items =>
        (readDefinition s ⟨.attributeGroup, name⟩ (.mk tag path foreign items) {}).map Prod.fst
  | type (owner : DefinitionKey) (name : Option Name) (tag : Xml.Tag) (path : List Nat) (foreign : Option (Name × Nat))
      (h : ∀ first later, items = first :: later → first.isAmong contentKinds = false) :
      AttributeBody s items fun items => readTypeComponent s owner name (.mk tag path foreign items)
  | derivation (owner : DefinitionKey) (name : Option Name) (typeTag tag bodyTag : Xml.Tag)
      (typePath path bodyPath : List Nat) (typeForeign foreign bodyForeign : Option (Name × Nat)) (others : List Item)
      (h : contentKinds.contains tag.name.localPart = true) :
      AttributeBody s items fun items => readTypeComponent s owner name
        (.mk typeTag typePath typeForeign (.mk tag path foreign [.mk bodyTag bodyPath bodyForeign items] :: others))

/-- Whether a type is derived from a named one does not depend on the order of its attributes. -/
theorem not_derived_reordered (horder : Reordered items items')
    (h : ∀ first later, items = first :: later → first.isAmong contentKinds = false) :
    ∀ first later, items' = first :: later → first.isAmong contentKinds = false := by
  rintro first' later' rfl
  obtain ⟨first, later, hij, _, rfl⟩ := List.forall₂_cons_right_iff.1 horder.exchanged
  exact hij.congr not_isAmong_contentKinds ▸ h first later rfl

theorem AttributeBody.reordered (h : AttributeBody s items read) (horder : Reordered items items') :
    AttributeBody s items' read := by
  cases h with
  | group name tag path foreign => exact .group name tag path foreign
  | type owner name tag path foreign h =>
      exact .type owner name tag path foreign (not_derived_reordered horder h)
  | derivation owner name typeTag tag bodyTag typePath path bodyPath typeForeign foreign bodyForeign others h =>
      exact .derivation owner name typeTag tag bodyTag typePath path bodyPath typeForeign foreign bodyForeign others h

theorem readsLast_of_type {read : List Item → Reading ComplexType}
    (h : ReadsTypeLast s name isAbstract items {} read) :
    ReadsLast s items fun items => (read items {}).map fun p => .type (.complex p.1) := by
  obtain ⟨parent, t, base, content, inherited, h⟩ := h
  refine ⟨parent, t, _, keepsTable_derive name isAbstract base content inherited, fun items' horder => ?_⟩
  change (read items' {}).map _ = _
  rw [h items' horder]
  cases readAttributes s parent (declared items') t <;> rfl

theorem readsLast_group {key : Name} {c : Component}
    (h : (readDefinition s ⟨.attributeGroup, key⟩ (.mk tag path foreign items) {}).map Prod.fst = .ok c) :
    ReadsLast s items fun items =>
      (readDefinition s ⟨.attributeGroup, key⟩ (.mk tag path foreign items) {}).map Prod.fst := by
  obtain ⟨⟨_, t'⟩, hread, _⟩ := map_eq_ok h
  rw [readDefinition] at hread
  simp only [Reading.bind_eq_ok, Reading.lift_eq_ok, Reading.pure_eq_ok] at hread
  obtain ⟨_, _, ⟨hinner, rfl⟩, own, _, hown, _⟩ := hread
  cases foreign with
  | some child => cases hinner
  | none =>
      cases hinner
      refine ⟨tag.name.localPart, {}, .attributeGroup, keepsTable_attributeGroup, fun items' horder => ?_⟩
      rw [declared_eq_self horder (isAmong_of_readAttributes hown)]
      change Except.map Prod.fst ((readAttributes s tag.name.localPart items' >>= fun own =>
        pure (Component.attributeGroup own)) {}) = _
      rw [Reading.bind_pure_eq_map]
      cases readAttributes s tag.name.localPart items' {} <;> rfl

theorem flag_congr {j : Item} (h : i.tag = j.tag) (key : Text) : i.flag key = j.flag key := by
  rw [Item.flag, Item.flag, Item.get?, Item.get?, h]
  simp only [Item.fail, Item.line, h]

/-- How a complex type is read goes by what its body begins with. -/
theorem readComplexType_eq {isAbstract mixed : Bool} (ha : i.flag "abstract" = .ok isAbstract)
    (hm : i.flag "mixed" = .ok mixed) (hinner : i.inner = .ok items) :
    readComplexType s owner name i t = (match items with
      | [] => readDeclaredType s owner name isAbstract mixed i []
      | first :: later =>
        if first.is "simpleContent" then readSimpleContent s name isAbstract first
        else if first.is "complexContent" then readComplexContent s owner name isAbstract mixed first
        else readDeclaredType s owner name isAbstract mixed i (first :: later)) t := by
  unfold readComplexType
  refine (Reading.lift_bind_of_ok ha).trans ((Reading.lift_bind_of_ok hm).trans ?_)
  exact Reading.lift_bind_of_ok hinner

section

variable {isAbstract mixed : Bool} (ha : i.flag "abstract" = .ok isAbstract) (hm : i.flag "mixed" = .ok mixed)
include ha hm

theorem readComplexType_simple {first : Item} {later : List Item} (hinner : i.inner = .ok (first :: later))
    (h : first.is "simpleContent" = true) :
    readComplexType s owner name i t = readSimpleContent s name isAbstract first t := by
  rw [readComplexType_eq ha hm hinner]
  exact congrFun (if_pos h) t

theorem readComplexType_complex {first : Item} {later : List Item} (hinner : i.inner = .ok (first :: later))
    (h : first.is "complexContent" = true) :
    readComplexType s owner name i t = readComplexContent s owner name isAbstract mixed first t := by
  have hnot : ¬ first.is "simpleContent" = true := Bool.eq_false_iff.1 (not_is_of_is (by decide) h)
  rw [readComplexType_eq ha hm hinner]
  exact (congrFun (if_neg hnot) t).trans (congrFun (if_pos h) t)

theorem readComplexType_declared (hinner : i.inner = .ok items)
    (h : ∀ first later, items = first :: later → first.isAmong contentKinds = false) :
    readComplexType s owner name i t = readDeclaredType s owner name isAbstract mixed i items t := by
  rw [readComplexType_eq ha hm hinner]
  cases items with
  | nil => rfl
  | cons first later =>
      have hfirst := h first later rfl
      have hnot (kind : Text) (hkind : contentKinds.contains kind = true) : ¬ first.is kind = true := fun his => by
        rw [isAmong_of_is his, hkind] at hfirst
        cases hfirst
      exact (congrFun (if_neg (hnot _ (by decide))) t).trans (congrFun (if_neg (hnot _ (by decide))) t)

end

theorem readComplexType_begins {x : ComplexType × Traces} (h : readComplexType s owner name i t = .ok x) :
    ∃ isAbstract mixed items, i.flag "abstract" = .ok isAbstract ∧ i.flag "mixed" = .ok mixed ∧
      i.inner = .ok items := by
  unfold readComplexType at h
  obtain ⟨x, t'⟩ := x
  simp only [Reading.bind_eq_ok, Reading.lift_eq_ok] at h
  obtain ⟨isAbstract, _, ⟨ha, rfl⟩, mixed, _, ⟨hm, rfl⟩, items, _, ⟨hitems, rfl⟩, _⟩ := h
  exact ⟨isAbstract, mixed, items, ha, hm, hitems⟩

theorem ReadsTypeLast.congr {read read' : List Item → Reading ComplexType}
    (h : ReadsTypeLast s name isAbstract items t read)
    (heq : ∀ items', Reordered items items' → read' items' t = read items' t) :
    ReadsTypeLast s name isAbstract items t read' := by
  obtain ⟨parent, t₁, base, content, inherited, h⟩ := h
  exact ⟨parent, t₁, base, content, inherited, fun items' horder => (heq items' horder).trans (h items' horder)⟩

theorem readsLast_type (h : ∀ first later, items = first :: later → first.isAmong contentKinds = false) {c : Component}
    (hc : readTypeComponent s owner name (.mk tag path foreign items) = .ok c) :
    ReadsLast s items fun items => readTypeComponent s owner name (.mk tag path foreign items) := by
  obtain ⟨x, hread, _⟩ := map_eq_ok hc
  obtain ⟨isAbstract, mixed, inner, ha, hm, hinner⟩ := readComplexType_begins hread
  cases foreign with
  | some child => cases hinner
  | none =>
      cases hinner
      rw [readComplexType_declared ha hm rfl h] at hread
      refine readsLast_of_type ((readDeclaredType_last hread).congr fun items' horder => ?_)
      exact readComplexType_declared ha hm rfl (not_derived_reordered horder h)

theorem readsLast_derivation {typeTag : Xml.Tag} {typePath : List Nat} {typeForeign : Option (Name × Nat)}
    {others : List Item} (h : contentKinds.contains tag.name.localPart = true) {c : Component}
    (hc : readTypeComponent s owner name (.mk typeTag typePath typeForeign
      (.mk tag path foreign [.mk bodyTag bodyPath bodyForeign items] :: others)) = .ok c) :
    ReadsLast s items fun items => readTypeComponent s owner name (.mk typeTag typePath typeForeign
      (.mk tag path foreign [.mk bodyTag bodyPath bodyForeign items] :: others)) := by
  obtain ⟨x, hread, _⟩ := map_eq_ok hc
  obtain ⟨isAbstract, mixed, inner, ha, hm, hinner⟩ := readComplexType_begins hread
  cases typeForeign with
  | some child => cases hinner
  | none =>
      cases hinner
      suffices hlast : ReadsTypeLast s name isAbstract items {} fun items => readComplexType s owner name
        (.mk typeTag typePath none (.mk tag path foreign [.mk bodyTag bodyPath bodyForeign items] :: others)) from
          readsLast_of_type hlast
      -- the kind of the content does not depend on the items of the body
      have hkind : tag.name.localPart = "simpleContent" ∨ tag.name.localPart = "complexContent" := by
        simpa [contentKinds] using h
      have ha (inner : List Item) : (Item.mk typeTag typePath none inner).flag "abstract" = .ok isAbstract :=
        (flag_congr rfl _).trans ha
      have hm (inner : List Item) : (Item.mk typeTag typePath none inner).flag "mixed" = .ok mixed :=
        (flag_congr rfl _).trans hm
      rcases hkind with hkind | hkind
      · have hsimple (items : List Item) : readComplexType s owner name (.mk typeTag typePath none
            (.mk tag path foreign [.mk bodyTag bodyPath bodyForeign items] :: others)) {} =
            readSimpleContent s name isAbstract (.mk tag path foreign [.mk bodyTag bodyPath bodyForeign items]) {} :=
          readComplexType_simple (ha _) (hm _) rfl (decide_eq_true hkind)
        rw [hsimple] at hread
        exact (readSimpleContent_last hread).congr fun items' _ => hsimple items'
      · have hcomplex (items : List Item) : readComplexType s owner name (.mk typeTag typePath none
            (.mk tag path foreign [.mk bodyTag bodyPath bodyForeign items] :: others)) {} =
            readComplexContent s owner name isAbstract mixed
              (.mk tag path foreign [.mk bodyTag bodyPath bodyForeign items]) {} :=
          readComplexType_complex (ha _) (hm _) rfl (decide_eq_true hkind)
        rw [hcomplex] at hread
        exact (readComplexContent_last hread).congr fun items' _ => hcomplex items'

theorem AttributeBody.readsLast (h : AttributeBody s items read) {c : Component} (hc : read items = .ok c) :
    ReadsLast s items read := by
  cases h with
  | group => exact readsLast_group hc
  | type owner name tag path foreign h => exact readsLast_type h hc
  | derivation _ _ _ _ _ _ _ _ _ _ _ _ h => exact readsLast_derivation h hc

/-- The order of the attributes and groups of attributes in a body makes no difference to the component if a group that
brings a wildcard is alone and uses of one name are the same; and only then, if the body is accepted. -/
theorem attributes_reordered (h : AttributeBody s items read) : OrderLaw s items read :=
  orderLaw_of_readsLast fun _ horder ⟨_, hc⟩ => (h.reordered horder).readsLast hc

end

/-- A scope in which each group of attributes allows any attributes. -/
def openScope : Scope where
  targetNamespace := []
  elementsQualified := false
  attributesQualified := false
  definition? := fun _ => .ok (some (.attributeGroup ⟨[], some ⟨.any, .lax⟩⟩))
  attributes := []
  elements := []

/-- A title, and a group of attributes behind it. -/
def titleBeforeGroup : List Item :=
  [.mk (schemaTag "attribute" [("name", "title")]) [0] none [],
    .mk (schemaTag "attributeGroup" [("ref", "common")]) [1] none []]

def readPoster (items : List Item) : Build Component :=
  readTypeComponent openScope ⟨.type, ⟨[], "poster"⟩⟩ none (.mk (schemaTag "complexType" []) [] none items)

/-- The group brings a wildcard, so that the title must not stand behind it. -/
theorem attributes_reordered_poster : AttributeBody openScope titleBeforeGroup readPoster ∧
    (∃ c, readPoster titleBeforeGroup = .ok c) ∧
    ∃ items', Reordered titleBeforeGroup items' ∧ ¬ Alike (readPoster titleBeforeGroup) (readPoster items') := by
  have hbody : AttributeBody openScope titleBeforeGroup readPoster :=
    .type ⟨.type, ⟨[], "poster"⟩⟩ none (schemaTag "complexType" []) [] none (by rintro _ _ ⟨⟩; decide)
  have hread : (readPoster titleBeforeGroup).isOk = true := by decide +kernel
  have hwildcard : ∃ i ∈ movable titleBeforeGroup, (alone openScope i).set.wildcard.isSome = true := by
    decide +kernel
  have hlength : (movable titleBeforeGroup).length = 2 := by decide
  have haccepted : ∃ c, readPoster titleBeforeGroup = .ok c := by
    cases h : readPoster titleBeforeGroup with
    | error e => simp [h, Except.isOk, Except.toBool] at hread
    | ok c => exact ⟨c, rfl⟩
  refine ⟨hbody, haccepted, ?_⟩
  by_contra hnone
  push Not at hnone
  have hfree := (attributes_reordered hbody).bound haccepted hnone
  obtain ⟨i, hi, hsome⟩ := hwildcard
  rw [hfree.wildcards i hi hsome] at hlength
  cases hlength

end XmlSchema.Schema
