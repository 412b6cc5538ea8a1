import Mathlib.Data.List.Forall2
import XmlSchema.Proofs.Schema.Scopes
import XmlSchema.Proofs.Schema.Unplaced

/-!
The order of attributes. Each attribute and each group brings uses and perhaps a wildcard to the body that it stands
in, whatever stands there besides. A body is read if all of its items are, if no attribute comes twice and if behind
the first wildcard, also one that a group brings, stand only wildcards; of the uses of one name the last one counts.
-/

namespace XmlSchema.Schema

/-- The use of an attribute in a table. -/
def AttributeSet.use? (set : AttributeSet) (name : Name) : Option AttributeUse := set.uses.find? fun u => u.name = name

theorem find?_insert (u : AttributeUse) (uses : List AttributeUse) (name : Name) :
    (AttributeUse.insert u uses).find? (fun v => v.name = name) =
      if u.name = name then some u else uses.find? fun v => v.name = name := by
  induction uses with
  | nil => by_cases h : u.name = name <;> simp [AttributeUse.insert, h]
  | cons v uses ih =>
      rw [AttributeUse.insert]
      by_cases hv : v.name = u.name
      · rw [if_pos hv]
        by_cases h : u.name = name <;> simp [h, hv]
      · rw [if_neg hv, List.find?_cons, List.find?_cons, ih]
        by_cases h : u.name = name
        · simp [h, h ▸ hv]
        · simp [h]

/-- Of the uses that are put in the last one of a name is found. -/
theorem find?_insertAll (uses others : List AttributeUse) (name : Name) :
    (AttributeUse.insertAll uses others).find? (fun u => u.name = name) =
      (uses.reverse.find? fun u => u.name = name).or (others.find? fun u => u.name = name) := by
  rw [AttributeUse.insertAll]
  induction uses generalizing others with
  | nil => simp
  | cons u uses ih =>
      rw [List.foldl_cons, ih, find?_insert, List.reverse_cons, List.find?_append, Option.or_assoc]
      by_cases h : u.name = name <;> simp [h]

/-- No attribute comes twice in a table. -/
def AttributeSet.IsDistinct (set : AttributeSet) : Prop := (set.uses.map AttributeUse.name).Nodup

theorem map_name_insert (u : AttributeUse) (uses : List AttributeUse) :
    (AttributeUse.insert u uses).map AttributeUse.name =
      if u.name ∈ uses.map AttributeUse.name then uses.map AttributeUse.name
      else uses.map AttributeUse.name ++ [u.name] := by
  induction uses with
  | nil => rfl
  | cons v uses ih =>
      rw [AttributeUse.insert]
      by_cases hv : v.name = u.name
      · simp [hv]
      · rw [if_neg hv, List.map_cons, ih, List.map_cons]
        simp only [List.mem_cons, Ne.symm hv, false_or]
        split <;> rfl

theorem nodup_insertAll (uses : List AttributeUse) {others : List AttributeUse}
    (h : (others.map AttributeUse.name).Nodup) :
    ((AttributeUse.insertAll uses others).map AttributeUse.name).Nodup := by
  refine List.foldlRecOn (motive := fun acc : List AttributeUse => (acc.map AttributeUse.name).Nodup) uses _ h ?_
  intro acc hacc u _
  rw [map_name_insert]
  split
  · exact hacc
  · next hu => exact List.nodup_append.2 ⟨hacc, List.nodup_singleton _, by simpa using hu⟩

variable {s : Scope} {parent : Text} {i j : Item} {items items' : List Item} {r r' : AttributeReading} {t t' : Traces}

/-! ### One item -/

/-- What an item brings to a body: its own use, those of the group that it refers to, or a wildcard. -/
inductive AttributeItemRead (s : Scope) (i : Item) (t t' : Traces) : AttributeReading → Prop
  | own (hi : i.is "attribute" = true) (use : AttributeUse) (h : readAttributeUse s i t = .ok (use, t')) :
      AttributeItemRead s i t t' ⟨⟨[use], none⟩, [use.name]⟩
  | group (hi : i.is "attributeGroup" = true) (ref : Text) (href : i.getFull? "ref" = some ref) (name : Name)
      (hname : i.expandName ref = .ok name) (set : AttributeSet)
      (h : s.definition? ⟨.attributeGroup, name⟩ = .ok (some (.attributeGroup set))) (ht : t' = t) :
      AttributeItemRead s i t t' ⟨set, []⟩
  | wildcard (hi : i.is "anyAttribute" = true) (w : Wildcard) (h : readWildcard s i = .ok w) (ht : t' = t) :
      AttributeItemRead s i t t' ⟨⟨[], some w⟩, []⟩

/-- Puts what an item brings to what has been read before it. -/
def AttributeReading.add (r c : AttributeReading) : AttributeReading where
  set := ⟨AttributeUse.insertAll c.set.uses r.set.uses, c.set.wildcard.or r.set.wildcard⟩
  own := c.own ++ r.own

theorem not_is_of_is {kind kind' : Text} (hne : kind ≠ kind') (h : i.is kind = true) : i.is kind' = false := by
  rw [Item.is, decide_eq_true_eq] at h
  simpa [Item.is, h] using hne

theorem readAttributeItem_ok (h : readAttributeItem s parent r i t = .ok (r', t')) :
    (r.set.wildcard.isSome = true → i.is "anyAttribute" = true) ∧
      ∃ c, AttributeItemRead s i t t' c ∧ (∀ n ∈ c.own, n ∉ r.own) ∧ r' = r.add c := by
  rw [readAttributeItem] at h
  simp only [Reading.ite_eq_ok, Reading.bind_eq_ok, Reading.lift_eq_ok, Reading.pure_eq_ok, Item.fail_eq_ok,
    false_and, and_false, exists_false, false_or, or_false] at h
  obtain ⟨hguard, h⟩ := h
  have hguard : r.set.wildcard.isSome = true → i.is "anyAttribute" = true := by simpa using hguard
  refine ⟨hguard, ?_⟩
  rcases h with ⟨hi, use, _, hu, hown, rfl, rfl⟩ | ⟨_, ⟨hi, h⟩ | ⟨_, hi, w, _, ⟨hw, rfl⟩, rfl, rfl⟩⟩
  · exact ⟨_, .own hi use hu, List.forall_mem_singleton.2 (by simpa using hown), rfl⟩
  · -- there is no wildcard before a group
    have hnone : r.set.wildcard = none := by
      have hany : i.is "anyAttribute" = false := not_is_of_is (by decide) hi
      simpa [hany] using hguard
    cases href : i.getFull? "ref" with
    | none => simp [href] at h
    | some ref =>
        simp only [href, Reading.bind_eq_ok, Reading.lift_eq_ok] at h
        obtain ⟨name, _, ⟨hname, rfl⟩, c, _, ⟨hc, rfl⟩, h⟩ := h
        rcases c with _ | _ | _ | set
        · simp at h
        · simp at h
        · simp at h
        · simp only [Reading.pure_eq_ok] at h
          obtain ⟨rfl, rfl⟩ := h
          refine ⟨_, .group hi ref href name hname set hc rfl, by simp, ?_⟩
          simp [AttributeReading.add, hnone]
  · exact ⟨_, .wildcard hi w hw rfl, by simp, rfl⟩

theorem readAttributeItem_of_read {c : AttributeReading} (hc : AttributeItemRead s i t t' c)
    (hguard : r.set.wildcard.isSome = true → i.is "anyAttribute" = true) (hown : ∀ n ∈ c.own, n ∉ r.own) :
    readAttributeItem s parent r i t = .ok (r.add c, t') := by
  rw [readAttributeItem]
  simp only [Reading.ite_eq_ok, Reading.bind_eq_ok, Reading.lift_eq_ok, Reading.pure_eq_ok, Item.fail_eq_ok,
    false_and, and_false, exists_false, false_or, or_false]
  refine ⟨by simpa using hguard, ?_⟩
  cases hc with
  | own hi use h => exact .inl ⟨hi, use, t', h, by simpa using hown, rfl, rfl⟩
  | group hi ref href name hname set h ht =>
      have hnone : r.set.wildcard = none := by
        have hany : i.is "anyAttribute" = false := not_is_of_is (by decide) hi
        simpa [hany] using hguard
      have hattribute : i.is "attribute" = false := not_is_of_is (by decide) hi
      refine .inr ⟨by simp [hattribute], .inl ⟨hi, ?_⟩⟩
      simp [href, hname, h, ht, AttributeReading.add, hnone]
  | wildcard hi w h ht =>
      have hattribute : i.is "attribute" = false := not_is_of_is (by decide) hi
      have hgroup : i.is "attributeGroup" = false := not_is_of_is (by decide) hi
      refine .inr ⟨by simp [hattribute], .inr ⟨by simp [hgroup], hi, ?_⟩⟩
      exact ⟨w, t, ⟨h, rfl⟩, rfl, ht.symm⟩

/-- What is read if an item stands alone in a body. -/
def alone (s : Scope) (i : Item) : AttributeReading :=
  ((readAttributeItem s [] {} i {}).toOption.map Prod.fst).getD {}

/-- An item can be read, wherever it stands. -/
def ReadAlone (s : Scope) (i : Item) : Prop := ∃ x, readAttributeItem s [] {} i {} = .ok x

theorem readAlone_of_read {c : AttributeReading} (h : AttributeItemRead s i t t' c) :
    ReadAlone s i ∧ alone s i = AttributeReading.add {} c := by
  obtain ⟨left, _, hread⟩ := (readAttributeItem_le (.refl s) [] {} i).to_empty
    (readAttributeItem_of_read (r := {}) h (by simp) (by simp))
  exact ⟨⟨_, hread⟩, by rw [alone, hread]; rfl⟩

theorem exists_read (h : ReadAlone s i) (t : Traces) :
    ∃ c t', AttributeItemRead s i t t' c ∧ alone s i = AttributeReading.add {} c := by
  obtain ⟨⟨r, left⟩, hread⟩ := h
  obtain ⟨_, c, hc, _⟩ := readAttributeItem_ok ((readAttributeItem_le (.refl s) [] {} i).from_empty hread t)
  exact ⟨c, _, hc, (readAlone_of_read hc).2⟩

section

variable {c : AttributeReading} (h : AttributeItemRead s i t t' c)
include h

theorem own_alone : (alone s i).own = c.own := by
  rw [(readAlone_of_read h).2, AttributeReading.add, List.append_nil]

theorem wildcard_alone : (alone s i).set.wildcard = c.set.wildcard := by
  rw [(readAlone_of_read h).2, AttributeReading.add, Option.or_none]

theorem use?_add (name : Name) : (r.add c).set.use? name = ((alone s i).set.use? name).or (r.set.use? name) := by
  rw [(readAlone_of_read h).2, AttributeSet.use?, AttributeSet.use?, AttributeReading.add, AttributeReading.add,
    find?_insertAll, find?_insertAll, List.find?_nil, Option.or_none, AttributeSet.use?]

end

theorem nodup_own_alone (s : Scope) (i : Item) : (alone s i).own.Nodup := by
  by_cases h : ReadAlone s i
  · obtain ⟨c, _, hc, _⟩ := exists_read h {}
    rw [own_alone hc]
    cases hc with
    | own => exact List.nodup_singleton _
    | group | wildcard => exact List.nodup_nil
  · have hnone : alone s i = {} := by
      rw [alone]
      cases hread : readAttributeItem s [] {} i {} with
      | error => rfl
      | ok x => exact absurd ⟨x, hread⟩ h
    rw [hnone]
    exact List.nodup_nil

/-! ### All items of a body -/

/-- Whether items can be read behind others: each of them can, no attribute comes twice, and behind a wildcard stand
only wildcards. -/
structure Accepts (s : Scope) (r : AttributeReading) (items : List Item) : Prop where
  read : ∀ i ∈ items, ReadAlone s i
  fresh : ∀ n ∈ items.flatMap fun i => (alone s i).own, n ∉ r.own
  once : (items.flatMap fun i => (alone s i).own).Nodup
  closed : r.set.wildcard.isSome = true → ∀ i ∈ items, i.is "anyAttribute" = true
  last : items.Pairwise fun i j => (alone s i).set.wildcard.isSome = true → j.is "anyAttribute" = true

theorem accepts_nil (s : Scope) (r : AttributeReading) : Accepts s r [] := ⟨by simp, by simp, by simp, by simp, .nil⟩

theorem accepts_cons {c : AttributeReading} (hc : AttributeItemRead s i t t' c) : Accepts s r (i :: items) ↔
    (r.set.wildcard.isSome = true → i.is "anyAttribute" = true) ∧ (∀ n ∈ c.own, n ∉ r.own) ∧
      Accepts s (r.add c) items := by
  have hown : (i :: items).flatMap (fun i => (alone s i).own) = c.own ++ items.flatMap fun i => (alone s i).own := by
    rw [List.flatMap_cons, own_alone hc]
  have hnodup : c.own.Nodup := own_alone hc ▸ nodup_own_alone s i
  have hwildcard : (r.add c).set.wildcard.isSome = true ↔
      (alone s i).set.wildcard.isSome = true ∨ r.set.wildcard.isSome = true := by
    rw [wildcard_alone hc, AttributeReading.add, Option.isSome_or, Bool.or_eq_true]
  constructor
  · rintro ⟨hread, hfresh, honce, hclosed, hlast⟩
    rw [hown] at hfresh honce
    obtain ⟨hbehind, hlast⟩ := List.pairwise_cons.1 hlast
    obtain ⟨_, honce, hapart⟩ := List.nodup_append.1 honce
    obtain ⟨hfirst, hfresh⟩ := List.forall_mem_append.1 hfresh
    refine ⟨fun h => hclosed h i List.mem_cons_self, hfirst, ?_, ?_, honce, ?_, hlast⟩
    · exact fun j hj => hread j (List.mem_cons_of_mem i hj)
    · intro n hn hmem
      rcases List.mem_append.1 hmem with hmem | hmem
      · exact hapart n hmem n hn rfl
      · exact hfresh n hn hmem
    · intro h j hj
      rcases hwildcard.1 h with h | h
      · exact hbehind j hj h
      · exact hclosed h j (List.mem_cons_of_mem i hj)
  · rintro ⟨hguard, hfirst, hread, hfresh, honce, hclosed, hlast⟩
    refine ⟨List.forall_mem_cons.2 ⟨(readAlone_of_read hc).1, hread⟩, ?_, ?_, fun h => ?_, ?_⟩
    · rw [hown]
      exact List.forall_mem_append.2 ⟨hfirst, fun n hn hmem => hfresh n hn (List.mem_append_right _ hmem)⟩
    · rw [hown]
      refine List.nodup_append.2 ⟨hnodup, honce, ?_⟩
      rintro n hn _ hn' rfl
      exact hfresh n hn' (List.mem_append_left _ hn)
    · exact List.forall_mem_cons.2 ⟨hguard h, hclosed (hwildcard.2 (.inr h))⟩
    · exact List.pairwise_cons.2 ⟨fun j hj h => hclosed (hwildcard.2 (.inl h)) j hj, hlast⟩

theorem foldlM_readAttributeItem_accepts :
    (∃ p, items.foldlM (readAttributeItem s parent) r t = .ok p) ↔ Accepts s r items := by
  induction items generalizing r t with
  | nil =>
      rw [List.foldlM_nil]
      exact ⟨fun _ => accepts_nil s r, fun _ => ⟨_, rfl⟩⟩
  | cons i items ih =>
      rw [List.foldlM_cons]
      constructor
      · rintro ⟨p, h⟩
        obtain ⟨r₁, t₁, h₁, h⟩ := Reading.bind_eq_ok.1 h
        obtain ⟨hguard, c, hc, hown, rfl⟩ := readAttributeItem_ok h₁
        exact (accepts_cons hc).2 ⟨hguard, hown, ih.1 ⟨p, h⟩⟩
      · intro h
        obtain ⟨c, t₁, hc, _⟩ := exists_read (h.read i List.mem_cons_self) t
        obtain ⟨hguard, hown, h⟩ := (accepts_cons hc).1 h
        obtain ⟨p, hp⟩ := (ih (t := t₁)).2 h
        exact ⟨p, Reading.bind_eq_ok.2 ⟨_, t₁, readAttributeItem_of_read hc hguard hown, hp⟩⟩

/-- What has been read is what was there before, and of all that the items bring the last. -/
theorem foldlM_readAttributeItem_ok (h : items.foldlM (readAttributeItem s parent) r t = .ok (r', t')) :
    (∀ name, r'.set.use? name =
      (items.reverse.findSome? fun i => (alone s i).set.use? name).or (r.set.use? name)) ∧
    r'.set.wildcard = (items.reverse.findSome? fun i => (alone s i).set.wildcard).or r.set.wildcard := by
  induction items generalizing r t with
  | nil =>
      rw [List.foldlM_nil, Reading.pure_eq_ok] at h
      obtain ⟨rfl, _⟩ := h
      simp
  | cons i items ih =>
      rw [List.foldlM_cons, Reading.bind_eq_ok] at h
      obtain ⟨r₁, t₁, h₁, h⟩ := h
      obtain ⟨_, c, hc, _, rfl⟩ := readAttributeItem_ok h₁
      obtain ⟨huse, hwildcard⟩ := ih h
      refine ⟨fun name => ?_, ?_⟩
      · rw [huse, use?_add hc, List.reverse_cons, List.findSome?_append, Option.or_assoc, List.findSome?_singleton]
      · rw [hwildcard, AttributeReading.add, List.reverse_cons, List.findSome?_append, Option.or_assoc,
          List.findSome?_singleton, wildcard_alone hc]

theorem readAttributes_accepts : (∃ p, readAttributes s parent items t = .ok p) ↔ Accepts s {} items := by
  have hfold : (∃ p, items.foldlM (readAttributeItem s parent) {} t = .ok p) ↔ Accepts s {} items :=
    foldlM_readAttributeItem_accepts
  rw [← hfold]
  simp only [readAttributes, Prod.exists, Reading.bind_eq_ok, Reading.pure_eq_ok]
  constructor
  · rintro ⟨_, _, r, t', h, _⟩
    exact ⟨r, t', h⟩
  · rintro ⟨r, t', h⟩
    exact ⟨_, _, r, t', h, rfl, rfl⟩

theorem readAttributes_ok {set : AttributeSet} (h : readAttributes s parent items t = .ok (set, t')) :
    (∀ name, set.use? name = items.reverse.findSome? fun i => (alone s i).set.use? name) ∧
      set.wildcard = items.reverse.findSome? fun i => (alone s i).set.wildcard := by
  rw [readAttributes, Reading.bind_eq_ok] at h
  obtain ⟨r, t₁, h, hset⟩ := h
  obtain ⟨rfl, _⟩ := Reading.pure_eq_ok.1 hset
  obtain ⟨huse, hwildcard⟩ := foldlM_readAttributeItem_ok h
  exact ⟨fun name => (huse name).trans Option.or_none, hwildcard.trans Option.or_none⟩

theorem readAttributes_distinct {set : AttributeSet} (h : readAttributes s parent items t = .ok (set, t')) :
    set.IsDistinct := by
  rw [readAttributes, Reading.bind_eq_ok] at h
  obtain ⟨r, _, h, hset⟩ := h
  obtain ⟨rfl, _⟩ := Reading.pure_eq_ok.1 hset
  have hnone : ({} : AttributeReading).set.IsDistinct := List.nodup_nil
  refine Reading.foldlM_induct (P := fun r : AttributeReading => r.set.IsDistinct) hnone ?_ h
  intro r hr i _ t r' t' hi
  obtain ⟨_, c, _, _, rfl⟩ := readAttributeItem_ok hi
  exact nodup_insertAll _ hr

end XmlSchema.Schema
