import XmlSchema.Proofs.Content.Takers
import XmlSchema.Proofs.Content.TakenWords

/-!
Groups in any order. What fits such a group can be arranged: each name goes to a member of its own that accepts it, and
every member that has to occur gets one. The converse holds of all names exactly if it never matters that the first
member that accepts a name takes it.
-/

namespace XmlSchema

section

variable {α β : Type} {R : α → β → Prop}

theorem exists_of_forall₂ {as : List α} {bs : List β} (h : List.Forall₂ R as bs) {b : β} (hb : b ∈ bs) :
    ∃ a ∈ as, R a b := by
  induction h with
  | nil => cases hb
  | @cons a b' as bs hR _ ih =>
      rcases List.mem_cons.1 hb with rfl | hb
      · exact ⟨a, List.mem_cons_self, hR⟩
      · obtain ⟨a, ha, hR⟩ := ih hb
        exact ⟨a, List.mem_cons_of_mem _ ha, hR⟩

theorem exists_forall₂ {bs : List β} (h : ∀ b ∈ bs, ∃ a, R a b) : ∃ as, List.Forall₂ R as bs := by
  induction bs with
  | nil => exact ⟨[], .nil⟩
  | cons b bs ih =>
      obtain ⟨⟨a, ha⟩, hbs⟩ := List.forall_mem_cons.1 h
      obtain ⟨as, has⟩ := ih hbs
      exact ⟨a :: as, .cons ha has⟩

theorem countP_le_of_forall₂ {as : List α} {bs : List β} (h : List.Forall₂ R as bs) {p : α → Bool} {q : β → Bool}
    (hpq : ∀ a b, R a b → p a = true → q b = true) : as.countP p ≤ bs.countP q := by
  induction h with
  | nil => exact Nat.le_refl _
  | @cons a b _ _ hR _ ih =>
      rw [List.countP_cons, List.countP_cons]
      cases ha : p a with
      | false => simpa using Nat.le_add_right_of_le ih
      | true => simpa [hpq a b hR ha] using ih

theorem exists_map_of_perm_map {f : α → β} {as : List α} {l : List β} (h : l.Perm (as.map f)) :
    ∃ bs : List α, bs.Perm as ∧ bs.map f = l := by
  obtain ⟨bs, hbs, hperm⟩ := List.perm_comp_forall₂ (r := fun b a => b = f a) h
    (List.forall₂_map_left_iff.2 (List.forall₂_same.2 fun _ _ => rfl))
  refine ⟨bs, hperm, ?_⟩
  have := List.forall₂_map_right_iff.2 hbs
  rw [List.forall₂_eq_eq_eq] at this
  exact this.symm

end

namespace AllMember

/-- Each name goes to some member left that accepts it, and in the end none is left that has to occur. -/
inductive Arranges : List AllMember → List Name → Prop
  | nil {members : List AllMember} (h : ∀ m ∈ members, m.minimum = 0) : Arranges members []
  | cons {members later : List AllMember} {m : AllMember} {n : Name} {names : List Name}
      (hperm : members.Perm (m :: later)) (hn : n ∈ m.accepted) (h : Arranges later names) :
      Arranges members (n :: names)

/-- The one may stand in for the other: it accepts as much, and does not have to occur if the other does not. -/
structure Covers (m' m : AllMember) : Prop where
  accepted : ∀ n ∈ m.accepted, n ∈ m'.accepted
  minimum : m.minimum = 0 → m'.minimum = 0

theorem Covers.refl (m : AllMember) : m.Covers m := ⟨fun _ hn => hn, id⟩

/-- Among names that both members accept it does not matter that the first takes them. -/
def Precedes (m m' : AllMember) : Prop := ∀ n, n ∈ m.accepted → n ∈ m'.accepted → m'.Covers m

variable {members l rest : List AllMember} {m i j : AllMember} {n : Name} {names w : List Name}

/-! ### Arrangements -/

namespace Arranges

theorem of_perm (h : Arranges members names) (hl : members.Perm l) : Arranges l names := by
  cases h with
  | nil h => exact .nil fun m hm => h m (hl.mem_iff.2 hm)
  | cons hperm hn h => exact .cons (hl.symm.trans hperm) hn h

theorem of_forall₂ (h : List.Forall₂ (fun n m => n ∈ m.accepted) names members) (hrest : ∀ m ∈ rest, m.minimum = 0) :
    Arranges (members ++ rest) names := by
  induction h with
  | nil => exact .nil hrest
  | cons hn _ ih => exact .cons (.refl _) hn ih

/-- An arrangement is one for members that may stand in for the others, too. -/
theorem covered (h : Arranges members names) (hl : List.Forall₂ (fun m m' => m'.Covers m) members l) :
    Arranges l names := by
  induction h generalizing l with
  | nil h =>
      refine .nil fun m' hm' => ?_
      obtain ⟨m, hm, hcovers⟩ := exists_of_forall₂ hl hm'
      exact hcovers.minimum (h m hm)
  | cons hperm hn _ ih =>
      obtain ⟨_, hl, hperm⟩ := List.perm_comp_forall₂ hperm.symm hl
      cases hl with
      | cons hcovers hlater => exact .cons hperm.symm (hcovers.accepted _ hn) (ih hlater)

theorem exchange (h : Arranges (i :: rest) names) (hj : j.Covers i) : Arranges (j :: rest) names :=
  h.covered (.cons hj (List.forall₂_same.2 fun m _ => .refl m))

/-- If as many names as members accept only some names, these are as many as there are. -/
theorem countP_le (h : Arranges members names) {p : Name → Bool} {q : AllMember → Bool}
    (hpq : ∀ m n, n ∈ m.accepted → q m = true → p n = true) :
    members.countP q + names.length ≤ names.countP p + members.length := by
  induction h with
  | nil => simpa using List.countP_le_length
  | @cons members later m n names hperm hn _ ih =>
      rw [hperm.countP_eq, hperm.length_eq, List.countP_cons, List.countP_cons, List.length_cons, List.length_cons]
      have := hpq m n hn
      split <;> split <;> simp_all <;> omega

theorem countP_minimum_le (h : Arranges members names) : members.countP (0 < ·.minimum) ≤ names.length := by
  induction h with
  | nil h => simpa [List.countP_eq_zero] using h
  | cons hperm _ _ ih =>
      rw [hperm.countP_eq, List.countP_cons, List.length_cons]
      split <;> omega

end Arranges

/-! ### Taking in turn -/

theorem eraseP_append_cons {before behind : List AllMember} (hbefore : ∀ m ∈ before, n ∉ m.accepted)
    (hn : n ∈ m.accepted) : (before ++ m :: behind).eraseP (fun m => m.accepted.contains n) = before ++ behind := by
  rw [List.eraseP_append_right _ fun m hm hc => hbefore m hm (List.contains_iff_mem.1 hc),
    List.eraseP_cons_of_pos (p := fun m : AllMember => m.accepted.contains n) (List.contains_iff_mem.2 hn)]

theorem exists_first (h : ∃ m ∈ members, n ∈ m.accepted) :
    ∃ before m behind, members = before ++ m :: behind ∧ (∀ m ∈ before, n ∉ m.accepted) ∧ n ∈ m.accepted := by
  obtain ⟨m', hm', hn'⟩ := h
  obtain ⟨m, before, behind, hbefore, hn, rfl, _⟩ := List.exists_of_eraseP
    (p := fun m : AllMember => m.accepted.contains n) hm' (List.contains_iff_mem.2 hn')
  exact ⟨before, m, behind, rfl, fun m hm hn => hbefore m hm (List.contains_iff_mem.2 hn),
    List.contains_iff_mem.1 hn⟩

theorem takesInTurn_cons_iff {before behind : List AllMember} (hbefore : ∀ m ∈ before, n ∉ m.accepted)
    (hn : n ∈ m.accepted) :
    TakesInTurn (before ++ m :: behind) (n :: names) ↔ TakesInTurn (before ++ behind) names := by
  rw [TakesInTurn, eraseP_append_cons hbefore hn]
  exact and_iff_right ⟨m, List.mem_append_right _ List.mem_cons_self, hn⟩

theorem TakesInTurn.arranges (h : TakesInTurn members names) : Arranges members names := by
  induction names generalizing members with
  | nil => exact .nil h
  | cons n names ih =>
      obtain ⟨before, m, behind, rfl, hbefore, hn⟩ := exists_first h.1
      exact .cons List.perm_middle hn (ih ((takesInTurn_cons_iff hbefore hn).1 h))

/-- What can be arranged is taken in turn, if members that accept the same precede each other: whichever member a name
goes to in the arrangement may be exchanged for the first one. -/
theorem Arranges.takesInTurn (h : Arranges members names) (hmembers : members.Pairwise Precedes) :
    TakesInTurn members names := by
  induction names generalizing members with
  | nil =>
      cases h with
      | nil h => exact h
  | cons n names ih =>
      cases h with
      | @cons _ later c _ _ hperm hn h =>
          obtain ⟨before, m, behind, rfl, hbefore, hm⟩ :=
            exists_first ⟨c, hperm.mem_iff.2 List.mem_cons_self, hn⟩
          rw [takesInTurn_cons_iff hbefore hm]
          refine ih ?_ (hmembers.sublist ((List.sublist_cons_self m behind).append_left before))
          have hc : c ∈ m :: behind :=
            (List.mem_append.1 (hperm.mem_iff.2 List.mem_cons_self)).resolve_left fun hc => hbefore c hc hn
          have hperm : (m :: (before ++ behind)).Perm (c :: later) := List.perm_middle.symm.trans hperm
          rcases List.mem_cons.1 (hperm.mem_iff.1 List.mem_cons_self) with rfl | hlater
          · exact h.of_perm hperm.cons_inv.symm
          -- the first member has a name in the arrangement, or none: the chosen one stands in for it
          obtain ⟨u, v, rfl⟩ := List.append_of_mem hlater
          have hrest : (before ++ behind).Perm (c :: (u ++ v)) :=
            (hperm.trans ((List.perm_middle.cons c).trans (List.Perm.swap m c _))).cons_inv
          have hcovers : c.Covers m := by
            rcases List.mem_cons.1 hc with rfl | hc
            · exact .refl c
            · exact (List.pairwise_cons.1 (List.pairwise_append.1 hmembers).2.1).1 c hc n hm hn
          exact ((h.of_perm List.perm_middle).exchange hcovers).of_perm hrest.symm

/-! ### Members that do not precede each other -/

/-- A name that comes as often as there are members that accept it is taken by all of these. -/
theorem TakesInTurn.of_replicate {before : List AllMember}
    (h : TakesInTurn (before ++ l ++ rest)
      (List.replicate (l.countP fun m => m.accepted.contains n) n ++ names))
    (hbefore : ∀ m ∈ before, n ∉ m.accepted) :
    TakesInTurn (before ++ (l.filter fun m => !m.accepted.contains n) ++ rest) names := by
  -- no member in front of those that are looked at accepts the name
  induction l generalizing before with
  | nil => simpa using h
  | cons m l ih =>
      by_cases hm : n ∈ m.accepted
      · rw [List.countP_cons_of_pos (by simpa using hm), List.replicate_succ, List.cons_append, List.append_assoc,
          List.cons_append, takesInTurn_cons_iff hbefore hm, ← List.append_assoc] at h
        rw [List.filter_cons_of_neg (by simpa using hm)]
        exact ih h hbefore
      · rw [List.countP_cons_of_neg (by simpa using hm), ← List.singleton_append, ← List.append_assoc] at h
        rw [List.filter_cons_of_pos (by simpa using hm), ← List.singleton_append, ← List.append_assoc]
        exact ih h (List.forall_mem_append.2 ⟨hbefore, List.forall_mem_singleton.2 hm⟩)

/-- If one of two members accepts a name that the other does not, some names can be given to the rest with the one and
not with the other: each of the rest gets a name that the other of the two does not accept, if it accepts such a one. -/
theorem exists_arranges_of_not_accepted (hrest : ∀ m ∈ rest, m.accepted ≠ []) (hn : n ∈ i.accepted)
    (hj : n ∉ j.accepted) : ∃ names, Arranges (i :: rest) names ∧ ¬ Arranges (j :: rest) names := by
  let within (m : AllMember) : Bool := m.accepted.all (j.accepted.contains ·)
  have hfill : ∀ m ∈ rest, ∃ a, a ∈ m.accepted ∧ (a ∈ j.accepted → within m = true) := by
    intro m hm
    by_cases hw : within m = true
    · obtain ⟨a, ha⟩ := List.exists_mem_of_ne_nil _ (hrest m hm)
      exact ⟨a, ha, fun _ => hw⟩
    · simp only [within, List.all_eq_true, not_forall] at hw
      obtain ⟨a, ha, hno⟩ := hw
      exact ⟨a, ha, fun hyes => absurd (List.contains_iff_mem.2 hyes) hno⟩
  obtain ⟨w, hw⟩ := exists_forall₂ hfill
  refine ⟨n :: w, ?_, fun h => ?_⟩
  · have : Arranges (i :: rest ++ []) (n :: w) := .of_forall₂ (.cons hn (hw.imp fun _ _ h => h.1)) (by simp)
    rwa [List.append_nil] at this
  · -- every member gets a name, and more members than names are confined to what the other accepts
    have hmembers := h.countP_le (p := fun n => j.accepted.contains n) (q := within) fun m n hn hm =>
      List.all_eq_true.1 hm n hn
    have hnames := countP_le_of_forall₂ hw (p := fun n => j.accepted.contains n) (q := within)
      fun a m h ha => h.2 (List.contains_iff_mem.1 ha)
    have hself : within j = true := List.all_eq_true.2 fun a ha => List.contains_iff_mem.2 ha
    rw [List.countP_cons_of_pos hself, List.countP_cons_of_neg (by simpa using hj), List.length_cons, List.length_cons,
      hw.length_eq] at hmembers
    omega

/-- If one of two members has to occur and the other does not, some names can be given to the rest with the latter and
not with the former. -/
theorem exists_arranges_of_minimum (hrest : ∀ m ∈ rest, m.accepted ≠ []) (hi : i.minimum = 0) (hj : j.minimum ≠ 0) :
    ∃ names, Arranges (i :: rest) names ∧ ¬ Arranges (j :: rest) names := by
  have hfill : ∀ m ∈ rest.filter (0 < ·.minimum), ∃ a, a ∈ m.accepted := fun m hm =>
    List.exists_mem_of_ne_nil _ (hrest m (List.mem_of_mem_filter hm))
  obtain ⟨w, hw⟩ := exists_forall₂ hfill
  refine ⟨w, ?_, fun h => ?_⟩
  · have hleft : ∀ m ∈ i :: rest.filter fun m => !decide (0 < m.minimum), m.minimum = 0 := by
      simp [hi]
    refine (Arranges.of_forall₂ hw hleft).of_perm ?_
    exact List.perm_middle.trans ((List.filter_append_perm _ rest).cons i)
  · have := h.countP_minimum_le
    rw [List.countP_cons_of_pos (by simpa using Nat.pos_of_ne_zero hj), hw.length_eq,
      List.countP_eq_length_filter] at this
    omega

theorem Arranges.replicate (h : Arranges rest names) (hl : ∀ m ∈ l, n ∈ m.accepted) :
    Arranges (l ++ rest) (List.replicate l.length n ++ names) := by
  induction l with
  | nil => exact h
  | cons m l ih =>
      obtain ⟨hm, hl⟩ := List.forall_mem_cons.1 hl
      exact .cons (.refl _) hm (ih hl)

theorem exists_arranges_of_not_covers (hrest : ∀ m ∈ rest, m.accepted ≠ []) (h : ¬ j.Covers i) :
    ∃ names, Arranges (i :: rest) names ∧ ¬ Arranges (j :: rest) names := by
  by_cases haccepted : ∀ n ∈ i.accepted, n ∈ j.accepted
  · obtain ⟨hi, hj⟩ := Classical.not_imp.1 fun hminimum => h ⟨haccepted, hminimum⟩
    exact exists_arranges_of_minimum hrest hi hj
  · push Not at haccepted
    obtain ⟨n, hn, hj⟩ := haccepted
    exact exists_arranges_of_not_accepted hrest hn hj

/-- If two members accept the same and the later one may not stand in for the first, some names can be arranged that
are not taken in turn: the later one takes a name that both accept, but the first one is in front of it. -/
theorem exists_arranges_not_takesInTurn {before mid behind : List AllMember}
    (hmembers : ∀ m ∈ before ++ i :: (mid ++ j :: behind), m.accepted ≠ []) (hi : n ∈ i.accepted) (hj : n ∈ j.accepted)
    (hcovers : ¬ j.Covers i) : ∃ names, Arranges (before ++ i :: (mid ++ j :: behind)) names ∧
      ¬ TakesInTurn (before ++ i :: (mid ++ j :: behind)) names := by
  let taking := before.filter fun m => m.accepted.contains n
  let leaving := before.filter fun m => !m.accepted.contains n
  have hbefore : before.Perm (taking ++ leaving) := (List.filter_append_perm _ before).symm
  have hothers : ∀ m ∈ leaving ++ (mid ++ behind), m.accepted ≠ [] := fun m hm =>
    hmembers m (by simp [leaving] at hm ⊢; tauto)
  obtain ⟨names, hnames, hno⟩ := exists_arranges_of_not_covers hothers hcovers
  refine ⟨List.replicate (taking ++ [j]).length n ++ names, ?_, fun h => hno ?_⟩
  -- the name goes to the members in front that accept it and to the later one of the two
  · refine (hnames.replicate (l := taking ++ [j]) ?_).of_perm ?_
    · simpa [taking, or_imp, forall_and] using hj
    · classical
      refine List.perm_iff_count.2 fun m => ?_
      have := hbefore.count_eq m
      simp only [List.count_append, List.count_cons, List.count_nil] at this ⊢
      omega
  -- in turn, the first one takes the last of these names
  · have htaken : TakesInTurn ([] ++ (before ++ [i]) ++ (mid ++ j :: behind))
        (List.replicate ((before ++ [i]).countP fun m => m.accepted.contains n) n ++ names) := by
      rw [show (before ++ [i]).countP (fun m => m.accepted.contains n) = (taking ++ [j]).length by
        simp [taking, hi, List.countP_eq_length_filter]]
      simpa using h
    have hleaving : (before ++ [i]).filter (fun m => !m.accepted.contains n) = leaving := by
      simp [leaving, hi]
    have htaken := htaken.of_replicate (by simp)
    rw [hleaving, List.nil_append] at htaken
    refine htaken.arranges.of_perm ?_
    simp only [← List.append_assoc]
    exact List.perm_middle

theorem pairwise_precedes (hmembers : ∀ m ∈ members, m.accepted ≠ [])
    (h : ∀ names, Arranges members names → TakesInTurn members names) : members.Pairwise Precedes := by
  refine List.pairwise_iff_forall_sublist.2 fun {i j} hsublist n hi hj => ?_
  by_contra hcovers
  obtain ⟨first, second, rfl, hfirst, hsecond⟩ := List.cons_sublist_iff.1 hsublist
  obtain ⟨before, mid, rfl⟩ := List.append_of_mem hfirst
  obtain ⟨mid', behind, rfl⟩ := List.append_of_mem (List.singleton_sublist.1 hsecond)
  have hlist : (before ++ i :: mid) ++ (mid' ++ j :: behind) = before ++ i :: ((mid ++ mid') ++ j :: behind) := by simp
  rw [hlist] at hmembers h
  obtain ⟨names, harranged, hno⟩ := exists_arranges_not_takesInTurn hmembers hi hj hcovers
  exact hno (h names harranged)

/-! ### Places -/

theorem arranges_iff_exists_chosen : Arranges members names ↔ ∃ chosen left, (chosen ++ left).Perm members ∧
    List.Forall₂ (fun n m => n ∈ m.accepted) names chosen ∧ ∀ m ∈ left, m.minimum = 0 := by
  constructor
  · intro h
    induction h with
    | @nil members h => exact ⟨[], members, .refl _, .nil, h⟩
    | @cons _ _ m _ _ hperm hn _ ih =>
        obtain ⟨chosen, left, hlater, hchosen, hleft⟩ := ih
        exact ⟨m :: chosen, left, (hlater.cons m).trans hperm.symm, .cons hn hchosen, hleft⟩
  · rintro ⟨chosen, left, hperm, hchosen, hleft⟩
    exact (Arranges.of_forall₂ hchosen hleft).of_perm hperm

end AllMember

namespace Particle

variable {substitutes : Name → List Name} {members : List Particle} {names : List Name}

/-- Each name is given the place of a member that accepts it, no place is given twice, and the place of every member
that has to occur is given. -/
def Arranged (substitutes : Name → List Name) (members : List Particle) (names : List Name) : Prop :=
  ∃ places : List (Fin members.length), places.Nodup ∧
    List.Forall₂ (fun name place => members[place].takes substitutes name) names places ∧
    ∀ place, members[place].occurs.min = 1 → place ∈ places

theorem mem_accepted_ofSingle {m : Particle} (hm : m.isSingle = true) {name : Name} :
    name ∈ (AllMember.ofSingle substitutes m).accepted ↔ m.takes substitutes name := by
  obtain ⟨_, _, _, rfl, _⟩ := isSingle_iff.1 hm
  exact Iff.rfl

theorem accepted_ofSingle_ne_nil {m : Particle} (hm : m.isSingle = true) :
    (AllMember.ofSingle substitutes m).accepted ≠ [] := by
  obtain ⟨_, _, _, rfl, _⟩ := isSingle_iff.1 hm
  exact List.cons_ne_nil _ _

theorem minimum_ofSingle {m : Particle} : (AllMember.ofSingle substitutes m).minimum = m.occurs.min := by
  cases m <;> rfl

theorem arranged_iff (hmembers : ∀ m ∈ members, m.isSingle = true ∧ m.occurs.min ≤ 1) :
    Arranged substitutes members names ↔ AllMember.Arranges (members.map (AllMember.ofSingle substitutes)) names := by
  let member (place : Fin members.length) : AllMember := AllMember.ofSingle substitutes members[place]
  have hall : members.map (AllMember.ofSingle substitutes) = (List.finRange members.length).map member := by
    conv_lhs => rw [← List.map_getElem_finRange members, List.map_map]
    rfl
  have haccepted (name : Name) (place : Fin members.length) :
      name ∈ (member place).accepted ↔ members[place].takes substitutes name :=
    mem_accepted_ofSingle (hmembers _ (List.getElem_mem _)).1
  have hminimum (place : Fin members.length) : (member place).minimum ≠ 0 ↔ members[place].occurs.min = 1 := by
    have := (hmembers _ (List.getElem_mem place.isLt)).2
    rw [minimum_ofSingle]
    exact ⟨fun h => Nat.le_antisymm this (Nat.pos_of_ne_zero h), fun h => h ▸ Nat.one_ne_zero⟩
  rw [AllMember.arranges_iff_exists_chosen, hall]
  constructor
  · rintro ⟨places, hnodup, htakes, hmust⟩
    -- the members at the places that are not given are left
    let others := (List.finRange members.length).filter (· ∉ places)
    have hothers : others.Nodup := (List.nodup_finRange _).filter _
    refine ⟨places.map member, others.map member, ?_, ?_, List.forall_mem_map.2 fun place hplace => ?_⟩
    · rw [← List.map_append]
      refine .map _ ((List.perm_ext_iff_of_nodup ?_ (List.nodup_finRange _)).2 fun place => ?_)
      · exact hnodup.append hothers fun place h h' => by simp [others, h] at h'
      · simp [others, em]
    · exact List.forall₂_map_right_iff.2 (htakes.imp fun name place => (haccepted name place).2)
    · by_contra h
      simp [others, hmust place ((hminimum place).1 h)] at hplace
  · rintro ⟨chosen, left, hperm, hchosen, hleft⟩
    obtain ⟨all, hall, hmap⟩ := exists_map_of_perm_map hperm
    obtain ⟨places, others, rfl, rfl, rfl⟩ := List.map_eq_append_iff.1 hmap
    refine ⟨places, ?_, ?_, fun place hplace => ?_⟩
    · exact (hall.nodup_iff.2 (List.nodup_finRange _)).of_append_left
    · exact (List.forall₂_map_right_iff.1 hchosen).imp fun name place => (haccepted name place).1
    · refine (List.mem_append.1 (hall.mem_iff.2 (List.mem_finRange place))).resolve_right fun h => ?_
      exact (hminimum place).2 hplace (hleft _ (List.mem_map_of_mem h))

theorem hasRanges_of_isSingle {m : Particle} (hm : m.isSingle = true) (hmin : m.occurs.min ≤ 1) : m.HasRanges := by
  obtain ⟨name, key, occurs, rfl, hmax⟩ := isSingle_iff.1 hm
  refine List.forall_mem_singleton.2 fun k hk => ?_
  exact Option.some.inj (hmax.symm.trans hk) ▸ hmin

/-- Among names that both members accept it does not matter that the first takes them: the other accepts all that the
first does, and does not have to occur if the first does not. -/
def Precedes (substitutes : Name → List Name) (m m' : Particle) : Prop :=
  ∀ name, m.takes substitutes name → m'.takes substitutes name →
    (∀ other, m.takes substitutes other → m'.takes substitutes other) ∧ (m'.occurs.min = 1 → m.occurs.min = 1)

theorem precedes_iff {m m' : Particle} (hm : m.isSingle = true ∧ m.occurs.min ≤ 1)
    (hm' : m'.isSingle = true ∧ m'.occurs.min ≤ 1) : Precedes substitutes m m' ↔
      AllMember.Precedes (AllMember.ofSingle substitutes m) (AllMember.ofSingle substitutes m') := by
  refine forall_congr' fun name => ?_
  rw [mem_accepted_ofSingle hm.1, mem_accepted_ofSingle hm'.1]
  refine imp_congr_right fun _ => imp_congr_right fun _ => ?_
  have hminimum : (m'.occurs.min = 1 → m.occurs.min = 1) ↔ (m.occurs.min = 0 → m'.occurs.min = 0) := by
    have := hm.2
    have := hm'.2
    omega
  constructor
  · rintro ⟨htakes, hmust⟩
    refine ⟨fun n hn => (mem_accepted_ofSingle hm'.1).2 (htakes n ((mem_accepted_ofSingle hm.1).1 hn)), ?_⟩
    rw [minimum_ofSingle, minimum_ofSingle]
    exact hminimum.1 hmust
  · rintro ⟨haccepted, hmin⟩
    rw [minimum_ofSingle, minimum_ofSingle] at hmin
    exact ⟨fun n hn => (mem_accepted_ofSingle hm'.1).1 (haccepted n ((mem_accepted_ofSingle hm.1).2 hn)),
      hminimum.2 hmin⟩

end Particle

namespace Content

open Particle

variable {substitutes : Name → List Name} {members : List Particle} {source : Option Name} {names : List Name}

theorem mem_fitting_all_iff (hmembers : ∀ m ∈ members, m.isSingle = true ∧ m.occurs.min ≤ 1) :
    names ∈ fitting substitutes (some (.group .all members {} source)) ↔
      AllMember.TakesInTurn (members.map (AllMember.ofSingle substitutes)) names := by
  have hranges : (Particle.group .all members {} source).HasRanges :=
    hasRanges_group.2 ⟨by decide, fun m hm => (hmembers m hm).elim hasRanges_of_isSingle⟩
  rw [fitting_some hranges, taken, takenTerm, AllMember.allMembers_eq_map fun m hm => (hmembers m hm).1]
  exact iff_of_eq (congrArg (names ∈ ·) Occurs.repeated_once)

/-- Whatever fits a group in any order can be arranged. The converse holds exactly if members that accept the same name
precede each other: the first member left that accepts a name takes it, even if the names that follow need that member
or one that has to occur goes without. -/
theorem fitting_all_exact (substitutes : Name → List Name) {members : List Particle} (source : Option Name)
    (hmembers : ∀ m ∈ members, m.isSingle = true ∧ m.occurs.min ≤ 1) :
    (∀ names ∈ fitting substitutes (some (.group .all members {} source)), Arranged substitutes members names) ∧
    ((∀ names, names ∈ fitting substitutes (some (.group .all members {} source)) ↔
      Arranged substitutes members names) ↔ members.Pairwise (Precedes substitutes)) := by
  have hpairwise : members.Pairwise (Precedes substitutes) ↔
      (members.map (AllMember.ofSingle substitutes)).Pairwise AllMember.Precedes := by
    rw [List.pairwise_map]
    exact List.Pairwise.iff_of_mem fun hm hm' => precedes_iff (hmembers _ hm) (hmembers _ hm')
  simp only [mem_fitting_all_iff hmembers, arranged_iff hmembers]
  rw [hpairwise]
  refine ⟨fun names => AllMember.TakesInTurn.arranges, fun h => ?_, fun h names => ?_⟩
  · refine AllMember.pairwise_precedes (List.forall_mem_map.2 fun m hm => ?_) fun names => (h names).2
    exact accepted_ofSingle_ne_nil (hmembers m hm).1
  · exact ⟨AllMember.TakesInTurn.arranges, fun harranged => harranged.takesInTurn h⟩

/-- Two elements in any order, of which the one may stand in for the other: it does, if it is first among the children
and the other is first in the group. -/
theorem fitting_all_exact_headFirst :
    let head : Particle := .element ⟨[], "h"⟩ .named {}
    let stand : Particle := .element ⟨[], "m"⟩ .named {}
    let substitutes (name : Name) : List Name := if name = ⟨[], "h"⟩ then [⟨[], "m"⟩] else []
    (∀ m ∈ [head, stand], m.isSingle = true ∧ m.occurs.min ≤ 1) ∧
    [⟨[], "h"⟩, ⟨[], "m"⟩] ∈ fitting substitutes (some (.group .all [head, stand] {} none)) ∧
    Arranged substitutes [head, stand] [⟨[], "m"⟩, ⟨[], "h"⟩] ∧
    [⟨[], "m"⟩, ⟨[], "h"⟩] ∉ fitting substitutes (some (.group .all [head, stand] {} none)) ∧
    ¬ [head, stand].Pairwise (Precedes substitutes) ∧
    ∀ names, names ∈ fitting substitutes (some (.group .all [stand, head] {} none)) ↔
      Arranged substitutes [stand, head] names := by
  intro head stand substitutes
  have hmembers : ∀ m ∈ [head, stand], m.isSingle = true ∧ m.occurs.min ≤ 1 := by decide
  have hmembers' : ∀ m ∈ [stand, head], m.isSingle = true ∧ m.occurs.min ≤ 1 := by decide
  have harranged : Arranged substitutes [head, stand] [⟨[], "m"⟩, ⟨[], "h"⟩] := by
    refine ⟨[1, 0], by decide, .cons ?_ (.cons ?_ .nil), by decide⟩
    · exact List.mem_cons_self (a := (⟨[], "m"⟩ : Name))
    · exact List.mem_cons_self (a := (⟨[], "h"⟩ : Name))
  have hfits : [⟨[], "m"⟩, ⟨[], "h"⟩] ∉ fitting substitutes (some (.group .all [head, stand] {} none)) := by
    rw [mem_fitting_all_iff hmembers]
    decide
  refine ⟨hmembers, ?_, harranged, hfits, fun h => ?_, ?_⟩
  · rw [mem_fitting_all_iff hmembers]
    decide
  · exact hfits ((((fitting_all_exact substitutes none hmembers).2.2 h) _).2 harranged)
  · refine (fitting_all_exact substitutes none hmembers').2.2 (List.pairwise_pair.2 fun _ _ _ => ⟨fun other h => ?_, id⟩)
    obtain rfl : other = ⟨[], "m"⟩ := List.mem_singleton.1 h
    exact List.mem_cons_of_mem _ List.mem_cons_self

end Content

end XmlSchema
