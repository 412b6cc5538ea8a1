import XmlSchema.Proofs.Pattern.Reading

/-!
Atoms that stand for one code point. Such an atom is read alike whatever follows it, so that a pattern of one of them
and a quantifier is read as the atom on its own is.
-/

namespace XmlSchema.Pattern

/-- What an escape stands for, as an expression. -/
def Item.expression : Item → Expression
  | .point c => .point c
  | .set s => .set s

/-- The class behind its opening bracket is read alike whatever follows it, if there is fuel for its length. -/
def ClassSettles (room : Nat) (t : Text) : Prop :=
  ∃ x : Except Failure CodePointSet, ∀ fuel rest, 2 * t.length + 1 < fuel →
    readClass fuel room (t ++ rest) = x.map (·, rest)

/-- The same for the members of a class, added to those before. -/
def MembersSettle (room : Nat) (first : Bool) (members : CodePointSet) (t : Text) : Prop :=
  ∃ x : Except Failure (CodePointSet × Option CodePointSet), ∀ fuel rest, 2 * t.length < fuel →
    readMembers fuel room first members (t ++ rest) = x.map fun p => (p.1, p.2, rest)

variable {t t' rest : Text} {s removed : Set CodePoint} {room : Nat} {first : Bool}

/-! ### Classes -/

/-- What follows a member is looked at only to tell whether a range goes on. -/
theorem Member.exists_readRange (h : Member t s rest) :
    ∃ m, ∀ rest', rangeFollows rest' = rangeFollows rest → readRange (t ++ rest') = .ok (m, rest') := by
  cases h with
  | @point _ _ c h hr =>
      refine ⟨[⟨c.val, c.val⟩], fun rest' hrest => ?_⟩
      simp [readRange, h.readMember rest', hrest, hr, bind, Except.bind, pure, Except.pure]
  | @range _ _ _ lo hi h h' hb hle =>
      refine ⟨[⟨lo.val, hi.val⟩], fun rest' _ => ?_⟩
      have hlt : ¬ hi < lo := Nat.not_lt.2 hle
      rw [List.append_assoc, readRange, h.readMember]
      have hfollows : rangeFollows (('-' : CodePoint) :: (_ ++ rest')) = true := h'.rangeFollows hb rest'
      simp [hfollows, h'.readMember rest', hlt, bind, Except.bind, pure, Except.pure]
  | set h =>
      obtain ⟨p, hp⟩ := h.readMember
      refine ⟨p, fun rest' _ => ?_⟩
      rw [readRange, hp rest']
      rfl

theorem startsWith_circumflex_append {negated : Bool} (hn : Unmarked negated t) (hne : t ≠ []) (rest : Text) :
    Text.startsWith (circumflex negated ++ t ++ rest) "^" = negated := by
  cases negated with
  | true => exact startsWith_circumflex.2 ⟨_, rfl⟩
  | false =>
      refine Bool.eq_false_iff.2 fun h => hn rfl ?_
      obtain ⟨u, hu⟩ := startsWith_circumflex.1 h
      cases t with
      | nil => exact absurd rfl hne
      | cons c t => exact congrArg some (List.head_eq_of_cons_eq hu)

theorem MembersSettle.class {negated : Bool} (h : MembersSettle room true [] t) (hn : Unmarked negated t)
    (hne : t ≠ []) : ClassSettles room (circumflex negated ++ t) := by
  obtain ⟨x, hx⟩ := h
  refine ⟨x.map fun p =>
    let kept := if negated then CodePointSet.complement p.1 else p.1
    p.2.elim kept kept.subtract, fun fuel rest hfuel => ?_⟩
  rw [List.length_append] at hfuel
  obtain ⟨fuel, rfl⟩ := Nat.exists_eq_add_one_of_ne_zero (by omega : fuel ≠ 0)
  have hdrop : (if negated then (circumflex negated ++ t ++ rest).drop 1 else circumflex negated ++ t ++ rest) =
      t ++ rest := by
    cases negated <;> rfl
  rw [readClass]
  simp only [startsWith_circumflex_append hn hne rest, hdrop, hx fuel rest (by omega)]
  cases x with
  | error f => rfl
  | ok found =>
      obtain ⟨all, removed⟩ := found
      cases removed <;> rfl

/-- A class to take away settles the members, whether there is room for it or not. -/
theorem MembersSettle.of_subtract {members : CodePointSet} (h : ∀ room, ClassSettles room t) :
    MembersSettle room false members (('-' : CodePoint) :: ('[' : CodePoint) :: (t ++ [(']' : CodePoint)])) := by
  by_cases hroom : room = 0
  · refine ⟨.error .tooDeep, fun fuel rest hfuel => ?_⟩
    obtain ⟨fuel, rfl⟩ := Nat.exists_eq_add_one_of_ne_zero (by omega : fuel ≠ 0)
    rw [List.cons_append, List.cons_append, readMembers, if_neg (by decide), if_pos (by simp [startsWith_bracket]),
      if_pos hroom]
    rfl
  · obtain ⟨x, hx⟩ := h (room - 1)
    refine ⟨x.map fun s => (members, some s), fun fuel rest hfuel => ?_⟩
    obtain ⟨fuel, rfl⟩ := Nat.exists_eq_add_one_of_ne_zero (by omega : fuel ≠ 0)
    simp only [List.length_cons, List.length_append, List.length_nil] at hfuel
    have hclose : Text.dropPrefix? "]" ((']' : CodePoint) :: rest) = some rest := Text.dropPrefix?_eq_some.2 rfl
    rw [List.cons_append, List.cons_append, readMembers, if_neg (by decide), if_pos (by simp [startsWith_bracket]),
      if_neg hroom, List.drop_succ_cons, List.drop_zero, List.append_assoc, List.singleton_append, hx fuel _ (by omega)]
    cases x with
    | error f => rfl
    | ok s => simp [Except.map, bind, Except.bind, hclose, pure, Except.pure]

theorem readMembers_of_goesOn {fuel : Nat} {members : CodePointSet} (h : first = false → GoesOn t) (hne : t ≠ []) :
    readMembers (fuel + 1) room first members t =
      readRange t >>= fun p => readMembers fuel room false (p.1 ++ members) p.2 := by
  cases t with
  | nil => exact absurd rfl hne
  | cons c t =>
      refine readMembers_more (fun hc => ?_) fun hc => ?_
      · simp only [Bool.and_eq_true, decide_eq_true_eq, Bool.not_eq_true'] at hc
        exact (h hc.2).1 (congrArg some hc.1)
      · simp only [Bool.and_eq_true, decide_eq_true_eq, Bool.not_eq_true', startsWith_bracket] at hc
        obtain ⟨⟨rfl, u, rfl⟩, hf⟩ := hc
        exact (h hf).2 u rfl

/-- The induction is on the members, not on the fuel: a member takes one step and a class that is taken away two, so
twice the length of the text is enough for all of them. -/
theorem Members.settles (h : Members first t s removed) (room : Nat) (members : CodePointSet) :
    MembersSettle room first members t := by
  induction h generalizing room members with
  | close =>
      refine ⟨.ok (members, none), fun fuel rest hfuel => ?_⟩
      obtain ⟨fuel, rfl⟩ := Nat.exists_eq_add_one_of_ne_zero (by omega : fuel ≠ 0)
      rfl
  | subtract negated h hn ih => exact .of_subtract fun room => (ih room []).class hn h.ne_nil
  | @more first u t' s s' removed hfirst h h' ih =>
      obtain ⟨m, hm⟩ := h.exists_readRange
      obtain ⟨x, hx⟩ := ih room (m ++ members)
      refine ⟨x, fun fuel rest hfuel => ?_⟩
      have hlength := List.length_pos_iff.2 h.ne_nil
      rw [List.length_append] at hfuel
      obtain ⟨fuel, rfl⟩ := Nat.exists_eq_add_one_of_ne_zero (by omega : fuel ≠ 0)
      -- neither the mark that ends the class nor one that takes a class away comes from behind
      have hgoes : first = false → GoesOn (u ++ (t' ++ rest)) := fun hf =>
        List.append_assoc u t' rest ▸ (hfirst hf).append (two_le h h') rest
      have hread := hm (t' ++ rest) (h'.rangeFollows_append rest)
      rw [List.append_assoc, readMembers_of_goesOn hgoes (by simp [h.ne_nil]), hread, ← hx fuel rest (by omega)]
      rfl

theorem ClassBody.settles (h : ClassBody t s) (room : Nat) : ClassSettles room t := by
  cases h with
  | intro negated h hn => exact (h.settles room []).class hn h.ne_nil

/-! ### Atoms -/

theorem readAtom_backslash (fuel room : Nat) (t : Text) :
    readAtom (fuel + 1) room '\\' t = (readEscape t).map fun p => (p.1.expression, p.2) := by
  rw [readAtom, if_neg (by decide), if_neg (by decide), if_pos rfl]
  cases readEscape t with
  | error f => rfl
  | ok found =>
      obtain ⟨item, rest⟩ := found
      cases item <;> rfl

theorem readAtom_bracket (fuel room : Nat) (t : Text) :
    readAtom (fuel + 1) room '[' t = (readClass (2 * t.length + 2) room t).map fun p => (.set p.1, p.2) := by
  rw [readAtom, if_neg (by decide), if_pos rfl]

/-- What stands for one code point is read as one item, or fails, whatever follows it. -/
theorem Leaf.exists_readAtom (h : Leaf t s) (room : Nat) :
    ∃ (c : CodePoint) (u : Text) (x : Except Failure Item), t = c :: u ∧ c ∉ branchEnds ∧
      ∀ fuel rest, readAtom (fuel + 1) room c (u ++ rest) = x.map fun item => (item.expression, rest) := by
  cases h with
  | @literal c h =>
      simp only [metacharacters, List.mem_cons, List.not_mem_nil, not_or] at h
      refine ⟨c, [], .ok (.point c), rfl, by simp [branchEnds, h], fun fuel rest => ?_⟩
      simp [readAtom, h, Except.map, Item.expression]
  | any => exact ⟨'.', [], .ok (.set anySet), rfl, by decide, fun fuel rest => rfl⟩
  | @point c d h =>
      refine ⟨'\\', [c], .ok (.point d), rfl, by decide, fun fuel rest => ?_⟩
      rw [readAtom_backslash, List.singleton_append, readEscape_cons_point h]
      rfl
  | @set u _ h =>
      obtain ⟨p, _, hp⟩ := readEscape_set h
      refine ⟨'\\', u, .ok (.set p), rfl, by decide, fun fuel rest => ?_⟩
      rw [readAtom_backslash, hp rest]
      rfl
  | @bracketed u _ h =>
      obtain ⟨x, hx⟩ := h.settles room
      refine ⟨'[', u, x.map .set, rfl, by decide, fun fuel rest => ?_⟩
      rw [readAtom_bracket, hx _ rest (by rw [List.length_append]; omega)]
      cases x <;> rfl

/-- A pattern of what stands for one code point, and of a quantifier if there is one, is read as one piece. -/
theorem Leaf.exists_read (h : Leaf t s) :
    ∃ x : Except Failure Item, ∀ (tail : Text) (f : Expression → Except Failure Expression),
      (∀ e, readQuantifier e tail = (f e).map (·, [])) →
        read (t ++ tail) = x >>= fun item => f item.expression >>= fun piece => .ok [.sequence [piece]] := by
  obtain ⟨c, u, x, rfl, hc, hx⟩ := h.exists_readAtom maxRoom
  refine ⟨x, fun tail f hf => ?_⟩
  have hc : ¬ (c = '|' || c = ')') = true := by simpa [branchEnds] using hc
  have hpieces (fuel : Nat) : readPieces (fuel + 3) maxRoom (c :: (u ++ tail)) =
      x >>= fun item => f item.expression >>= fun piece => .ok ([piece], []) := by
    rw [readPieces, if_neg hc, hx]
    cases x with
    | error failure => rfl
    | ok item =>
        simp only [Except.map, bind, Except.bind, hf]
        cases f item.expression <;> rfl
  rw [List.cons_append, read, List.length_cons, Nat.mul_succ, readBranches, hpieces]
  cases x with
  | error failure => rfl
  | ok item =>
      simp only [bind, Except.bind]
      cases f item.expression <;> rfl

end XmlSchema.Pattern
