import XmlSchema.Proofs.Schema.AttributeOrder

/-!
Attributes and groups of them in another order. What is read from them stays the same if no group among them brings a
wildcard, unless it stands alone, and if no two of them bring different uses of one name. Otherwise some order of what
can be read is refused or gives another use.
-/

namespace XmlSchema.Schema

variable {s : Scope} {parent : Text} {i j m : Item} {items items' before between behind : List Item} {name : Name}
  {set set' : AttributeSet} {t t' : Traces}

/-- Whether an item may change places with others: attributes and groups of them may. -/
def Item.isMovable (i : Item) : Bool := i.isAmong ["attribute", "attributeGroup"]

def movable (items : List Item) : List Item := items.filter (·.isMovable)

/-- Two items may stand in the same place of two orders: both are movable, or they are the same. -/
def Exchanged (i j : Item) : Prop := i.isMovable = j.isMovable ∧ (i.isMovable = false → i = j)

/-- The same items in another order of attributes and groups of them. Everything else stands where it stood. -/
structure Reordered (items items' : List Item) : Prop where
  exchanged : List.Forall₂ Exchanged items items'
  moved : ((movable items).map Item.unplaced).Perm ((movable items').map Item.unplaced)

theorem isMovable_iff : i.isMovable = true ↔ i.is "attribute" = true ∨ i.is "attributeGroup" = true := by
  simp [Item.isMovable, Item.isAmong, Item.is]

theorem not_isMovable_of_any (h : i.is "anyAttribute" = true) : i.isMovable = false := by
  have hattribute : i.is "attribute" = false := not_is_of_is (by decide) h
  have hgroup : i.is "attributeGroup" = false := not_is_of_is (by decide) h
  simp [Bool.eq_false_iff, isMovable_iff, hattribute, hgroup]

theorem mem_movable : i ∈ movable items ↔ i ∈ items ∧ i.isMovable = true := List.mem_filter

/-- What can be moved is found among whatever else is kept. -/
theorem movable_filter {p : Item → Bool} (hp : ∀ i, i.isMovable = true → p i = true) (items : List Item) :
    movable (items.filter p) = movable items := by
  rw [movable, movable, List.filter_filter]
  refine List.filter_congr fun i _ => ?_
  cases hi : i.isMovable with
  | true => rw [hp i hi]; rfl
  | false => rfl

namespace Exchanged

theorem refl (i : Item) : Exchanged i i := ⟨rfl, fun _ => rfl⟩

theorem symm (h : Exchanged i j) : Exchanged j i := ⟨h.1.symm, fun hj => (h.2 (h.1.trans hj)).symm⟩

/-- Questions that only movable items answer in their own way are answered alike. -/
theorem congr {α : Type} (h : Exchanged i j) {f : Item → α} {a : α} (hf : ∀ i, i.isMovable = true → f i = a) :
    f i = f j := by
  by_cases hi : i.isMovable = true
  · rw [hf i hi, hf j (h.1 ▸ hi)]
  · rw [h.2 (Bool.eq_false_iff.2 hi)]

theorem is_any (h : Exchanged i j) : i.is "anyAttribute" = j.is "anyAttribute" := by
  refine h.congr (f := fun i => i.is "anyAttribute") (a := false) fun i hi => ?_
  by_contra hany
  simp [not_isMovable_of_any (by simpa using hany)] at hi

end Exchanged

namespace Reordered

theorem refl (items : List Item) : Reordered items items := ⟨List.forall₂_same.2 fun i _ => .refl i, .refl _⟩

theorem symm (h : Reordered items items') : Reordered items' items :=
  ⟨(h.exchanged.imp fun _ _ hij => hij.symm).flip, h.moved.symm⟩

theorem map_congr {α : Type} (h : Reordered items items') {f : Item → α}
    (hf : ∀ i ∈ items, ∀ j ∈ items', Exchanged i j → f i = f j) : items.map f = items'.map f := by
  have hforall := h.exchanged
  clear h
  induction hforall with
  | nil => rfl
  | cons hij _ ih =>
      rw [List.map_cons, List.map_cons, hf _ List.mem_cons_self _ List.mem_cons_self hij,
        ih fun i hi j hj => hf i (List.mem_cons_of_mem _ hi) j (List.mem_cons_of_mem _ hj)]

/-- What cannot be moved stays first. -/
theorem tail (h : Reordered (i :: items) items') (hi : i.isMovable = false) :
    ∃ later, items' = i :: later ∧ Reordered items later := by
  obtain ⟨j, later, hij, hlater, rfl⟩ := List.forall₂_cons_left_iff.1 h.exchanged
  obtain rfl := hij.2 hi
  have hmoved := h.moved
  rw [movable, movable, List.filter_cons, List.filter_cons, hi] at hmoved
  exact ⟨later, rfl, hlater, hmoved⟩

/-- Two items that can be exchanged have changed places. -/
theorem swap (hm : m.isMovable = true) (hi : i.isMovable = true) :
    Reordered (before ++ m :: (between ++ i :: behind)) (before ++ i :: (between ++ m :: behind)) := by
  have hself (l : List Item) : List.Forall₂ Exchanged l l := List.forall₂_same.2 fun i _ => .refl i
  have hchange {i j : Item} (hi : i.isMovable = true) (hj : j.isMovable = true) : Exchanged i j :=
    ⟨hi.trans hj.symm, fun h => absurd hi (by simp [h])⟩
  constructor
  · refine List.rel_append (hself before) (.cons (hchange hm hi) ?_)
    exact List.rel_append (hself between) (.cons (hchange hi hm) (hself behind))
  · simp only [movable, List.filter_append, List.filter_cons, hm, hi, if_true, List.map_append, List.map_cons]
    exact .append_left _ ((List.perm_middle.cons _).trans (.trans (.swap _ _ _) (List.perm_middle.symm.cons _)))

/-- Of what stays in its place the same is kept. -/
theorem filter_eq (h : Reordered items items') {p : Item → Bool} (hp : ∀ i, i.isMovable = true → p i = false) :
    items.filter p = items'.filter p := by
  have hforall := h.exchanged
  clear h
  induction hforall with
  | nil => rfl
  | @cons i j _ _ hij _ ih =>
      rw [List.filter_cons, List.filter_cons, hij.congr hp, ih]
      cases hj : i.isMovable with
      | true => rw [hp j (hij.1 ▸ hj)]; rfl
      | false => rw [hij.2 hj]

/-- What can be moved is kept with whatever else is kept. -/
theorem filter (h : Reordered items items') {p : Item → Bool} (hp : ∀ i, i.isMovable = true → p i = true) :
    Reordered (items.filter p) (items'.filter p) where
  exchanged := by
    have hforall := h.exchanged
    clear h
    induction hforall with
    | nil => exact .nil
    | @cons i j _ _ hij _ ih =>
        rw [List.filter_cons, List.filter_cons, hij.congr hp]
        split
        · exact .cons hij ih
        · exact ih
  moved := by
    rw [movable_filter hp, movable_filter hp]
    exact h.moved

/-- What is kept can be put in another order where it stands. -/
theorem of_filter {p : Item → Bool} (hp : ∀ i, i.isMovable = true → p i = true)
    (h : Reordered (items.filter p) items') : ∃ items₁, Reordered items items₁ ∧ items₁.filter p = items' := by
  have hexchanged : ∃ items₁, List.Forall₂ Exchanged items items₁ ∧ items₁.filter p = items' := by
    have hforall := h.exchanged
    clear h
    induction items generalizing items' with
    | nil => exact ⟨[], .nil, (List.forall₂_nil_left_iff.1 hforall).symm⟩
    | cons i items ih =>
        rw [List.filter_cons] at hforall
        cases hi : p i with
        | false =>
            rw [hi] at hforall
            obtain ⟨items₁, h, rfl⟩ := ih hforall
            exact ⟨i :: items₁, .cons (.refl i) h, by rw [List.filter_cons, hi]; rfl⟩
        | true =>
            rw [hi, if_pos rfl, List.forall₂_cons_left_iff] at hforall
            obtain ⟨j, later, hij, hforall, rfl⟩ := hforall
            obtain ⟨items₁, h, rfl⟩ := ih hforall
            exact ⟨j :: items₁, .cons hij h, by rw [List.filter_cons, ← hij.congr hp, hi]; rfl⟩
  obtain ⟨items₁, hforall, rfl⟩ := hexchanged
  have hmoved := h.moved
  rw [movable_filter hp, movable_filter hp] at hmoved
  exact ⟨items₁, ⟨hforall, hmoved⟩, rfl⟩

theorem perm (h : Reordered items items') : (items.map Item.unplaced).Perm (items'.map Item.unplaced) := by
  have hsplit (l : List Item) :
      (l.map Item.unplaced).Perm ((movable l).map Item.unplaced ++ (l.filter (!·.isMovable)).map Item.unplaced) := by
    rw [← List.map_append]
    exact (List.filter_append_perm _ l).symm.map _
  refine (hsplit items).trans (.trans ?_ (hsplit items').symm)
  rw [h.filter_eq fun i hi => by simp [hi]]
  exact h.moved.append_right _

theorem exists_mem (h : Reordered items items') (hj : j ∈ items') : ∃ i ∈ items, i.unplaced = j.unplaced :=
  List.mem_map.1 (h.perm.mem_iff.2 (List.mem_map_of_mem hj))

theorem exists_mem_movable (h : Reordered items items') (hj : j ∈ movable items') :
    ∃ i ∈ movable items, i.unplaced = j.unplaced :=
  List.mem_map.1 (h.moved.mem_iff.2 (List.mem_map_of_mem hj))

end Reordered

/-! ### Items alone -/

theorem alone_unplaced (s : Scope) (i : Item) : alone s i.unplaced = alone s i := by
  rw [alone, alone, readAttributeItem_unplaced]

theorem alone_congr (h : i.unplaced = j.unplaced) : alone s i = alone s j := by
  rw [← alone_unplaced, h, alone_unplaced]

theorem readAlone_congr (h : i.unplaced = j.unplaced) : ReadAlone s i ↔ ReadAlone s j := by
  rw [ReadAlone, ReadAlone, ← readAttributeItem_unplaced, h, readAttributeItem_unplaced]

theorem alone_of_not_readAlone (h : ¬ ReadAlone s i) : alone s i = {} := by
  rw [alone]
  cases hread : readAttributeItem s [] {} i {} with
  | error => rfl
  | ok x => exact absurd ⟨x, hread⟩ h

theorem is_any_of_readAlone (h : ReadAlone s i) (hi : i.isMovable = false) : i.is "anyAttribute" = true := by
  obtain ⟨c, _, hc, _⟩ := exists_read h {}
  cases hc with
  | own h => simp [isMovable_iff.2 (.inl h)] at hi
  | group h => simp [isMovable_iff.2 (.inr h)] at hi
  | wildcard h => exact h

theorem isMovable_of_use? {u : AttributeUse} (h : (alone s i).set.use? name = some u) : i.isMovable = true := by
  by_cases hread : ReadAlone s i
  · obtain ⟨c, _, hc, halone⟩ := exists_read hread {}
    cases hc with
    | own hi => exact isMovable_iff.2 (.inl hi)
    | group hi => exact isMovable_iff.2 (.inr hi)
    | wildcard hi =>
        rw [halone] at h
        simp [AttributeReading.add, AttributeSet.use?, AttributeUse.insertAll] at h
  · rw [alone_of_not_readAlone hread] at h
    simp [AttributeSet.use?] at h

/-! ### Order that does not matter -/

/-- Tables that hold the same uses, in whatever order, and the same wildcard. -/
structure AttributeSet.Same (a b : AttributeSet) : Prop where
  use? : ∀ name, a.use? name = b.use? name
  wildcard : a.wildcard = b.wildcard

/-- The order of attributes does not matter: a group that brings a wildcard is alone with it, and if several attributes
or groups bring a use of one name, it is the same use. -/
structure OrderFree (s : Scope) (items : List Item) : Prop where
  wildcards : ∀ i ∈ movable items, (alone s i).set.wildcard.isSome = true → movable items = [i]
  uses : ∀ i ∈ movable items, ∀ j ∈ movable items, ∀ name u v, (alone s i).set.use? name = some u →
    (alone s j).set.use? name = some v → u = v

theorem OrderFree.congr (h : movable items = movable items') (hfree : OrderFree s items) : OrderFree s items' :=
  ⟨h ▸ hfree.wildcards, h ▸ hfree.uses⟩

theorem OrderFree.reordered (h : Reordered items items') (hfree : OrderFree s items) : OrderFree s items' where
  wildcards := by
    intro j hj hwildcard
    obtain ⟨i, hi, hij⟩ := h.exists_mem_movable hj
    rw [← alone_congr hij] at hwildcard
    have hlength : (movable items').length = 1 := by
      rw [← List.length_map Item.unplaced, ← h.moved.length_eq, hfree.wildcards i hi hwildcard]
      rfl
    obtain ⟨k, hk⟩ := List.length_eq_one_iff.1 hlength
    rw [hk] at hj ⊢
    rw [List.mem_singleton.1 hj]
  uses := by
    intro i' hi' j' hj' name u v hu hv
    obtain ⟨i, hi, hii⟩ := h.exists_mem_movable hi'
    obtain ⟨j, hj, hjj⟩ := h.exists_mem_movable hj'
    rw [← alone_congr hii] at hu
    rw [← alone_congr hjj] at hv
    exact hfree.uses i hi j hj name u v hu hv

/-- In the same places stand the same wildcards. -/
theorem OrderFree.wildcards_eq (h : Reordered items items') (hfree : OrderFree s items) :
    (items.map fun i => (alone s i).set.wildcard) = items'.map fun i => (alone s i).set.wildcard := by
  refine h.map_congr fun i hi j hj hij => ?_
  cases hmovable : i.isMovable with
  | false => rw [hij.2 hmovable]
  | true =>
      have hi := mem_movable.2 ⟨hi, hmovable⟩
      have hj := mem_movable.2 ⟨hj, hij.1 ▸ hmovable⟩
      cases hw : (alone s i).set.wildcard with
      | some w =>
          -- then it is the only one that could be moved
          have hone := hfree.wildcards i hi (by simp [hw])
          obtain ⟨k, hk, hkj⟩ := h.exists_mem_movable hj
          rw [hone] at hk
          rw [← alone_congr hkj, List.mem_singleton.1 hk, hw]
      | none =>
          cases hw' : (alone s j).set.wildcard with
          | none => rfl
          | some w =>
              have hone := (hfree.reordered h).wildcards j hj (by simp [hw'])
              obtain ⟨k, hk, hki⟩ := h.symm.exists_mem_movable hi
              rw [hone] at hk
              rw [← alone_congr hki, List.mem_singleton.1 hk, hw'] at hw
              cases hw

theorem Reordered.accepts (h : Reordered items items') (hfree : OrderFree s items) (haccepts : Accepts s {} items) :
    Accepts s {} items' where
  read := by
    intro j hj
    obtain ⟨i, hi, hij⟩ := h.exists_mem hj
    exact (readAlone_congr hij).1 (haccepts.read i hi)
  fresh := by simp
  once := by
    have hown (l : List Item) :
        (l.flatMap fun i => (alone s i).own) = (l.map Item.unplaced).flatMap fun i => (alone s i).own := by
      rw [List.flatMap_map]
      simp only [alone_unplaced]
    have honce := haccepts.once
    rw [hown] at honce ⊢
    exact ((h.perm.flatMap_right _).nodup_iff).1 honce
  closed := by simp
  last := by
    -- which item has a wildcard, and which is one, is the same in each place
    let marks (l : List Item) := l.map fun i => ((alone s i).set.wildcard, i.is "anyAttribute")
    have hmarks : marks items = marks items' := by
      have hw := hfree.wildcards_eq h
      have hany : (items.map fun i => i.is "anyAttribute") = items'.map fun i => i.is "anyAttribute" :=
        h.map_congr fun i _ j _ hij => hij.is_any
      have hzip (l : List Item) : marks l =
          (l.map fun i => (alone s i).set.wildcard).zip (l.map fun i => i.is "anyAttribute") := by
        rw [List.zip_map']
      rw [hzip, hzip, hw, hany]
    have hpairwise (l : List Item) :
        (marks l).Pairwise (fun x y => x.1.isSome = true → y.2 = true) ↔
          l.Pairwise fun i j => (alone s i).set.wildcard.isSome = true → j.is "anyAttribute" = true :=
      List.pairwise_map
    rw [← hpairwise, ← hmarks, hpairwise]
    exact haccepts.last

theorem OrderFree.findSome?_eq (hfree : OrderFree s items) (u : AttributeUse) :
    (items.reverse.findSome? fun i => (alone s i).set.use? name) = some u ↔
      ∃ i ∈ items, (alone s i).set.use? name = some u := by
  constructor
  · intro h
    obtain ⟨i, hi, hu⟩ := List.exists_of_findSome?_eq_some h
    exact ⟨i, List.mem_reverse.1 hi, hu⟩
  · rintro ⟨i, hi, hu⟩
    cases hv : items.reverse.findSome? fun i => (alone s i).set.use? name with
    | none => simp [List.findSome?_eq_none_iff.1 hv i (List.mem_reverse.2 hi)] at hu
    | some v =>
        obtain ⟨j, hj, hv⟩ := List.exists_of_findSome?_eq_some hv
        have hi := mem_movable.2 ⟨hi, isMovable_of_use? hu⟩
        have hj := mem_movable.2 ⟨List.mem_reverse.1 hj, isMovable_of_use? hv⟩
        rw [hfree.uses i hi j hj name u v hu hv]

/-- Where the order does not matter, each order gives the same table. -/
theorem OrderFree.exists_same (h : Reordered items items') (hfree : OrderFree s items)
    (hread : readAttributes s parent items t = .ok (set, t')) :
    ∃ set' t', readAttributes s parent items' t = .ok (set', t') ∧ set.Same set' := by
  have haccepts := h.accepts hfree (readAttributes_accepts.1 ⟨_, hread⟩)
  obtain ⟨⟨set', t₁⟩, hread'⟩ : ∃ p, readAttributes s parent items' t = .ok p := readAttributes_accepts.2 haccepts
  refine ⟨set', t₁, hread', ?_, ?_⟩
  · intro name
    rw [(readAttributes_ok hread).1, (readAttributes_ok hread').1]
    refine Option.ext fun u => ?_
    rw [hfree.findSome?_eq, (hfree.reordered h).findSome?_eq]
    constructor
    · rintro ⟨i, hi, hu⟩
      obtain ⟨j, hj, hji⟩ := h.symm.exists_mem hi
      exact ⟨j, hj, alone_congr hji ▸ hu⟩
    · rintro ⟨j, hj, hu⟩
      obtain ⟨i, hi, hij⟩ := h.exists_mem hj
      exact ⟨i, hi, alone_congr hij ▸ hu⟩
  · have hwildcard (l : List Item) : (l.reverse.findSome? fun i => (alone s i).set.wildcard) =
        ((l.map fun i => (alone s i).set.wildcard).reverse.findSome? id) := by
      rw [← List.map_reverse, List.findSome?_map]
      rfl
    rw [(readAttributes_ok hread).2, (readAttributes_ok hread').2, hwildcard, hwildcard, hfree.wildcards_eq h]

/-! ### Order that matters -/

/-- No attribute has different uses in two tables. -/
def AttributeSet.Agree (a b : AttributeSet) : Prop := ∀ name u v, a.use? name = some u → b.use? name = some v → u = v

theorem AttributeSet.Same.agree {a b : AttributeSet} (h : a.Same b) : a.Agree b := by
  intro name u v hu hv
  rw [h.use?, hv] at hu
  exact (Option.some.inj hu).symm

/-- Behind a wildcard stands nothing that can be moved. -/
theorem Accepts.not_isMovable (h : Accepts s {} (before ++ i :: behind))
    (hwildcard : (alone s i).set.wildcard.isSome = true) (hj : j ∈ behind) : j.isMovable = false :=
  not_isMovable_of_any ((List.pairwise_cons.1 (List.pairwise_append.1 h.last).2.1).1 j hj hwildcard)

theorem movable_eq_singleton (hall : ∀ items', Reordered items items' → Accepts s {} items') (hi : i ∈ movable items)
    (hwildcard : (alone s i).set.wildcard.isSome = true) : movable items = [i] := by
  obtain ⟨hi, himovable⟩ := mem_movable.1 hi
  obtain ⟨before, behind, rfl⟩ := List.append_of_mem hi
  have hbehind : movable behind = [] := List.filter_eq_nil_iff.2 fun j hj =>
    Bool.not_eq_true _ ▸ (hall _ (.refl _)).not_isMovable hwildcard hj
  have hbefore : movable before = [] := by
    refine List.filter_eq_nil_iff.2 fun m hm hmovable => ?_
    obtain ⟨first, between, rfl⟩ := List.append_of_mem hm
    rw [List.append_assoc, List.cons_append] at hall
    -- it would stand behind the wildcard if the two changed places
    have hm : m ∈ between ++ m :: behind := List.mem_append_right _ List.mem_cons_self
    simp [(hall _ (.swap hmovable himovable)).not_isMovable hwildcard hm] at hmovable
  rw [movable] at hbefore hbehind ⊢
  rw [List.filter_append, List.filter_cons, if_pos himovable, hbefore, hbehind, List.nil_append]

/-- If the last use of a name that is brought is not the only one, another one can be put in its place. -/
theorem exists_reordered (hi : i ∈ items) {u v : AttributeUse} (hu : (alone s i).set.use? name = some u)
    (hlast : (items.reverse.findSome? fun i => (alone s i).set.use? name) = some v) (hne : u ≠ v) :
    ∃ items', Reordered items items' ∧ (items'.reverse.findSome? fun i => (alone s i).set.use? name) = some u := by
  obtain ⟨behind, k, before, hsplit, hv, hnone⟩ := List.findSome?_eq_some_iff.1 hlast
  obtain rfl : items = before.reverse ++ k :: behind.reverse := by
    rw [← List.reverse_reverse items, hsplit, List.reverse_append, List.reverse_cons, List.append_assoc,
      List.singleton_append]
  have hbefore : i ∈ before.reverse := by
    rcases List.mem_append.1 hi with hi | hi
    · exact hi
    · rcases List.mem_cons.1 hi with rfl | hi
      · exact absurd (Option.some.inj (hu.symm.trans hv)) hne
      · simp [hnone i (List.mem_reverse.1 hi)] at hu
  obtain ⟨first, between, hbefore⟩ := List.append_of_mem hbefore
  rw [hbefore, List.append_assoc, List.cons_append]
  refine ⟨_, .swap (isMovable_of_use? hu) (isMovable_of_use? hv), ?_⟩
  rw [List.findSome?_eq_some_iff]
  refine ⟨behind, i, (first ++ k :: between).reverse, ?_, hu, hnone⟩
  simp

/-- If each order is read and no order gives another use of an attribute, the order does not matter. -/
theorem orderFree_of_forall_reordered (hread : readAttributes s parent items t = .ok (set, t'))
    (hall : ∀ items', Reordered items items' →
      ∃ set' t', readAttributes s parent items' t = .ok (set', t') ∧ set.Agree set') : OrderFree s items where
  wildcards := by
    intro i hi hwildcard
    refine movable_eq_singleton (fun items' h => ?_) hi hwildcard
    obtain ⟨set', t', hread', _⟩ := hall items' h
    exact readAttributes_accepts.1 ⟨_, hread'⟩
  uses := by
    -- each use that is brought is the one that is read
    have hlast (i : Item) (hi : i ∈ movable items) (name : Name) (u : AttributeUse)
        (hu : (alone s i).set.use? name = some u) : set.use? name = some u := by
      have hi := (mem_movable.1 hi).1
      rw [(readAttributes_ok hread).1]
      cases hv : items.reverse.findSome? fun i => (alone s i).set.use? name with
      | none => simp [List.findSome?_eq_none_iff.1 hv i (List.mem_reverse.2 hi)] at hu
      | some v =>
          by_contra hne
          obtain ⟨items', h, hu'⟩ := exists_reordered hi hu hv fun heq => hne (heq ▸ rfl)
          obtain ⟨set', t', hread', hagree⟩ := hall items' h
          have hfirst := (readAttributes_ok hread).1 name ▸ hv
          have hsame := hagree name v u hfirst ((readAttributes_ok hread').1 name ▸ hu')
          exact hne (congrArg some hsame)
    intro i hi j hj name u v hu hv
    exact Option.some.inj ((hlast i hi name u hu).symm.trans (hlast j hj name v hv))

end XmlSchema.Schema
