import XmlSchema.Pattern.Matching
import XmlSchema.Proofs.Outcome
import XmlSchema.Proofs.Pattern.Reading

/-!
How reading a pattern can fail other than by a flaw. Something in the text tells: bounds with more digits than a numeral
may have, bounds that no repetition can be asked for, or groups and classes that nest deeper than there is room for.
-/

namespace XmlSchema.Pattern

/-- A failure is a flaw of the text. -/
def IsFlaw (failure : Failure) : Prop := ∃ flaw, failure = .flaw flaw

/-- Bounds as they stand in a pattern. -/
def braced (body : Text) : Text := ('{' : CodePoint) :: (body ++ [('}' : CodePoint)])

/-- A text has bounds in it with a numeral that is longer than those that are read. -/
def HasLongNumeral (t : Text) : Prop := ∃ body, braced body <:+: t ∧ readBounds body = .error .numeralTooLong

/-- A text has bounds in it that no repetition can be asked for. -/
def HasLargeBounds (t : Text) : Prop :=
  ∃ body range, braced body <:+: t ∧ readBounds body = .ok range ∧ (Quantifier.counted body range).tooLarge = true

/-- The members of a class, without the circumflex in front of them. -/
def unmarked (t : Text) : Text := if Text.startsWith t "^" then t.drop 1 else t

/-- So many classes behind the members of a class stand inside each other, each to be taken away from the one around
it. -/
inductive Subtracts : (first : Bool) → Nat → Text → Prop
  | nothing (first : Bool) (t : Text) : Subtracts first 0 t
  | member {first : Bool} {n : Nat} {t rest : Text} {s : CodePointSet} (hfirst : first = false → GoesOn t)
      (hs : readRange t = .ok (s, rest)) (h : Subtracts false n rest) : Subtracts first n t
  | subtraction {n : Nat} {t : Text} (h : Subtracts true n (unmarked t)) :
      Subtracts false (n + 1) (('-' : CodePoint) :: ('[' : CodePoint) :: t)

/-- Groups, and a class in the innermost one, stand inside each other and take so much room. What stands in front of
each in the same group has been read. -/
inductive Opens : Nat → Text → Prop
  | nothing (t : Text) : Opens 0 t
  | alternative {n : Nat} {t : Text} (h : Opens n t) : Opens n (('|' : CodePoint) :: t)
  | piece {n fuel room : Nat} {c : CodePoint} {t t' rest : Text} {atom e : Expression} (hc : c ∉ branchEnds)
      (hatom : readAtom fuel room c t = .ok (atom, t')) (he : readQuantifier atom t' = .ok (e, rest))
      (h : Opens n rest) : Opens n (c :: t)
  | group {n : Nat} {t : Text} (h : Opens n t) : Opens (n + groupRoom) (('(' : CodePoint) :: t)
  | members {n : Nat} {t : Text} (h : Subtracts true n (unmarked t)) : Opens n (('[' : CodePoint) :: t)

/-- A text goes beyond what can be read, with nothing wrong in it. -/
inductive Exceeds (room : Nat) (t : Text) : Failure → Prop
  | numeral (h : HasLongNumeral t) : Exceeds room t .numeralTooLong
  | bounds (h : HasLargeBounds t) : Exceeds room t .boundTooLarge
  | nesting {n : Nat} (h : Opens n t) (hroom : room < n) : Exceeds room t .tooDeep

/-- A failure is a flaw, or the text goes beyond what can be read. -/
def Explained (room : Nat) (t : Text) (failure : Failure) : Prop := IsFlaw failure ∨ Exceeds room t failure

/-- The same for the members of a class. -/
def ExplainedClass (room : Nat) (first : Bool) (t : Text) (failure : Failure) : Prop :=
  IsFlaw failure ∨ failure = .tooDeep ∧ ∃ n, room < n ∧ Subtracts first n t

variable {room room' fuel : Nat} {first first' : Bool} {t t' rest : Text} {failure : Failure}

/-! ### Parts of a text -/

theorem HasLongNumeral.of_suffix (h : HasLongNumeral t') (ht : t' <:+ t) : HasLongNumeral t := by
  obtain ⟨body, hbody, h⟩ := h
  exact ⟨body, hbody.trans ht.isInfix, h⟩

theorem HasLargeBounds.of_suffix (h : HasLargeBounds t') (ht : t' <:+ t) : HasLargeBounds t := by
  obtain ⟨body, range, hbody, h⟩ := h
  exact ⟨body, range, hbody.trans ht.isInfix, h⟩

/-- What goes beyond the room behind some text goes beyond the room at its beginning, if it nests so much deeper there
as reading on takes room. -/
theorem Explained.behind (h : Explained room' t' failure) (ht : t' <:+ t)
    (hopens : ∀ n, room' < n → Opens n t' → ∃ m, room < m ∧ Opens m t) : Explained room t failure := by
  rcases h with hflaw | hexceeds
  · exact .inl hflaw
  refine .inr ?_
  cases hexceeds with
  | numeral h => exact .numeral (h.of_suffix ht)
  | bounds h => exact .bounds (h.of_suffix ht)
  | nesting h hroom =>
      obtain ⟨m, hroom, h⟩ := hopens _ hroom h
      exact .nesting h hroom

theorem ExplainedClass.behind (h : ExplainedClass room' first' t' failure)
    (hopens : ∀ n, room' < n → Subtracts first' n t' → ∃ m, room < m ∧ Subtracts first m t) :
    ExplainedClass room first t failure := by
  refine h.imp_right ?_
  rintro ⟨rfl, n, hroom, h⟩
  exact ⟨rfl, hopens n hroom h⟩

theorem ExplainedClass.explained (h : ExplainedClass room true (unmarked t) failure) :
    Explained room (('[' : CodePoint) :: t) failure := by
  refine h.imp_right ?_
  rintro ⟨rfl, n, hroom, h⟩
  exact .nesting (.members h) hroom

section

variable {α : Type} {P : α → Prop}

theorem ends_flaw (flaw : Flaw) : Ends P IsFlaw (.error (.flaw flaw)) := .error ⟨flaw, rfl⟩

theorem ends_explained {x : Except Failure α} (h : Ends P IsFlaw x) : Ends P (Explained room t) x :=
  h.mono (fun _ => id) fun _ => .inl

theorem ends_explainedClass {x : Except Failure α} (h : Ends P IsFlaw x) : Ends P (ExplainedClass room first t) x :=
  h.mono (fun _ => id) fun _ => .inl

end

/-! ### Escapes and classes -/

theorem propertySet?_ends (name : Text) : Ends (fun _ => True) IsFlaw (propertySet? name) := by
  rw [propertySet?]
  split
  · split
    · exact .ok trivial
    · exact ends_flaw _
  · split
    · exact .ok trivial
    · split
      · exact .ok trivial
      · exact ends_flaw _

theorem readProperty_ends (t : Text) : Ends (fun p => p.2 <:+ t) IsFlaw (readProperty t) := by
  rw [readProperty]
  split
  · exact ends_flaw _
  · next rest hrest =>
      obtain rfl := Text.dropPrefix?_eq_some.1 hrest
      split
      · exact ends_flaw _
      · next name after hafter =>
          obtain ⟨rfl, _⟩ := Text.splitAt?_eq_some.1 hafter
          refine (propertySet?_ends name).map fun _ _ => ?_
          exact ((List.suffix_cons _ after).trans (List.suffix_append name _)).trans (List.suffix_append _ _)

theorem readEscape_ends (t : Text) : Ends (fun p => p.2 <:+ t) IsFlaw (readEscape t) := by
  cases t with
  | nil => exact ends_flaw _
  | cons c t =>
      rw [readEscape]
      split
      · exact .ok (List.suffix_cons c t)
      split
      · exact (readProperty_ends t).map fun _ h => h.trans (List.suffix_cons c t)
      split
      · exact (readProperty_ends t).map fun _ h => h.trans (List.suffix_cons c t)
      split
      · exact .ok (List.suffix_cons c t)
      · exact ends_flaw _

theorem readMember_ends (t : Text) : Ends (fun p => p.2 <:+ t) IsFlaw (readMember t) := by
  cases t with
  | nil => exact ends_flaw _
  | cons c t =>
      rw [readMember]
      split
      · exact (readEscape_ends t).imp fun _ h => h.trans (List.suffix_cons c t)
      split
      · exact ends_flaw _
      · exact .ok (List.suffix_cons c t)

theorem readRange_ends (t : Text) : Ends (fun p => p.2 <:+ t) IsFlaw (readRange t) := by
  rw [readRange]
  refine (readMember_ends t).bind ?_
  rintro ⟨item, rest⟩ hrest
  cases item with
  | set s => exact .ok hrest
  | point lo =>
      dsimp only
      split
      · have hdrop := (List.drop_suffix 1 rest).trans hrest
        refine (readMember_ends _).bind ?_
        rintro ⟨item, _⟩ h
        cases item with
        | set s => exact ends_flaw _
        | point hi =>
            dsimp only
            split
            · exact ends_flaw _
            · exact .ok (h.trans hdrop)
      · exact .ok hrest

/-- What is known of reading classes, for some fuel. -/
def ClassesEnd (fuel : Nat) : Prop :=
  (∀ room t, Ends (fun p => p.2 <:+ t) (ExplainedClass room true (unmarked t)) (readClass fuel room t)) ∧
  ∀ room first members t,
    Ends (fun p => p.2.2 <:+ t) (ExplainedClass room first t) (readMembers fuel room first members t)

theorem readClass_ends (ih : ClassesEnd fuel) (room : Nat) (t : Text) :
    Ends (fun p => p.2 <:+ t) (ExplainedClass room true (unmarked t)) (readClass (fuel + 1) room t) := by
  have hunmarked : unmarked t <:+ t := by
    rw [unmarked]
    split
    · exact List.drop_suffix 1 t
    · exact List.suffix_rfl
  rw [readClass]
  refine (ih.2 room true [] (unmarked t)).bind ?_
  rintro ⟨members, removed, rest⟩ hrest
  cases removed with
  | none => exact .ok (hrest.trans hunmarked)
  | some s => exact .ok (hrest.trans hunmarked)

theorem readMembers_ends (ih : ClassesEnd fuel) (room : Nat) (first : Bool) (members : CodePointSet) (t : Text) :
    Ends (fun p => p.2.2 <:+ t) (ExplainedClass room first t) (readMembers (fuel + 1) room first members t) := by
  cases t with
  | nil => exact ends_explainedClass (ends_flaw _)
  | cons c t =>
      by_cases hclose : (c = ']' && !first) = true
      · rw [readMembers, if_pos hclose]
        exact .ok (List.suffix_cons c t)
      by_cases hsubtract : (c = '-' && Text.startsWith t "[" && !first) = true
      · rw [readMembers, if_neg hclose, if_pos hsubtract]
        simp only [Bool.and_eq_true, decide_eq_true_eq, Bool.not_eq_true', startsWith_bracket] at hsubtract
        obtain ⟨⟨rfl, u, rfl⟩, rfl⟩ := hsubtract
        have hu : u <:+ ('-' : CodePoint) :: ('[' : CodePoint) :: u := ⟨['-', '['], rfl⟩
        dsimp only
        split
        · next hroom => exact .error (.inr ⟨rfl, 1, by omega, .subtraction (.nothing true _)⟩)
        · next hroom =>
            -- the class that is taken away takes the room of its opening bracket
            refine Ends.bind ((ih.1 (room - 1) u).mono (fun _ => id) fun _ he => ?_) ?_
            · exact he.behind fun n hn h => ⟨n + 1, by omega, .subtraction h⟩
            rintro ⟨removed, rest⟩ hrest
            dsimp only
            split
            · next after hafter =>
                obtain rfl := Text.dropPrefix?_eq_some.1 hafter
                exact .ok (((List.suffix_append _ after).trans hrest).trans hu)
            · exact ends_explainedClass (ends_flaw _)
      · have hfirst : first = false → GoesOn (c :: t) := goesOn_cons hclose hsubtract
        rw [readMembers_more hclose hsubtract]
        refine (ends_explainedClass (readRange_ends (c :: t)).known).bind ?_
        rintro ⟨m, rest⟩ ⟨hm, hrest⟩
        refine (ih.2 room false _ rest).mono (fun _ h => h.trans hrest) fun _ he => ?_
        exact he.behind fun n hroom h => ⟨n, hroom, .member hfirst hm h⟩

theorem classesEnd (fuel : Nat) : ClassesEnd fuel := by
  induction fuel with
  | zero => exact ⟨fun _ _ => ends_explainedClass (ends_flaw _), fun _ _ _ _ => ends_explainedClass (ends_flaw _)⟩
  | succ fuel ih => exact ⟨readClass_ends ih, readMembers_ends ih⟩

/-! ### Quantifiers -/

theorem boundedNumber_ends (digits : Text) : Ends (fun _ => True) (· = .numeralTooLong) (boundedNumber digits) := by
  rw [boundedNumber]
  split
  · exact .ok trivial
  · exact .error rfl

/-- Bounds fail by a flaw or by the length of a numeral. -/
theorem readBounds_ends (body : Text) :
    Ends (fun _ => True) (fun failure => IsFlaw failure ∨ failure = .numeralTooLong) (readBounds body) := by
  have hnumber (digits : Text) := (boundedNumber_ends digits).mono (fun _ => id) fun failure h =>
    (.inr h : IsFlaw failure ∨ failure = .numeralTooLong)
  rw [readBounds]
  split
  · exact .error (.inl ⟨_, rfl⟩)
  · exact (hnumber _).bind fun _ _ => .ok trivial
  · exact (hnumber _).bind fun _ _ => .ok trivial
  · refine (hnumber _).bind fun _ _ => (hnumber _).bind fun _ _ => ?_
    split
    · exact .error (.inl ⟨_, rfl⟩)
    · exact .ok trivial

theorem readQuantifier_ends (atom : Expression) (t : Text) :
    Ends (fun p => p.2 <:+ t ∧ (p.1.tooLarge = true → atom.tooLarge = true ∨ HasLargeBounds t))
      (fun failure => IsFlaw failure ∨ failure = .numeralTooLong ∧ HasLongNumeral t) (readQuantifier atom t) := by
  cases t with
  | nil => exact .ok ⟨List.suffix_rfl, .inl⟩
  | cons c t =>
      have hplain (q : Quantifier) (hq : q.tooLarge = false) :
          (Expression.repeated atom q).tooLarge = true → atom.tooLarge = true ∨ HasLargeBounds (c :: t) := by
        rw [Expression.tooLarge, hq, Bool.or_false]
        exact .inl
      rw [readQuantifier]
      split
      · exact .ok ⟨List.suffix_cons c t, hplain .optional rfl⟩
      split
      · exact .ok ⟨List.suffix_cons c t, hplain .star rfl⟩
      split
      · exact .ok ⟨List.suffix_cons c t, hplain .plus rfl⟩
      split
      · next hc =>
          split
          · exact .error (.inl ⟨_, rfl⟩)
          · next body after hafter =>
              obtain ⟨rfl, _⟩ := Text.splitAt?_eq_some.1 hafter
              have hsplit : braced body ++ after = c :: (body ++ ('}' : CodePoint) :: after) := by simp [braced, hc]
              have hbraced : braced body <:+: c :: (body ++ ('}' : CodePoint) :: after) := ⟨[], after, hsplit⟩
              have hbounds := readBounds_ends body
              generalize hread : readBounds body = x at hbounds ⊢
              cases hbounds with
              | ok =>
                  refine .ok ⟨⟨braced body, hsplit⟩, fun h => ?_⟩
                  rw [Expression.tooLarge, Bool.or_eq_true] at h
                  exact h.imp_right fun h => ⟨body, _, hbraced, hread, h⟩
              | error h => exact .error (h.imp_right fun h => ⟨h, body, hbraced, h ▸ hread⟩)
      · exact .ok ⟨List.suffix_rfl, .inl⟩

/-! ### Patterns -/

/-- Reading goes on behind some of a text. What is too large in what has been read stands there, and every failure is
explained. -/
def Reads {α : Type} (room : Nat) (t : Text) (large : α → Bool) (x : Except Failure (α × Text)) : Prop :=
  Ends (fun p => p.2 <:+ t ∧ (large p.1 = true → HasLargeBounds t)) (Explained room t) x

/-- What is known of reading patterns, for some fuel. -/
structure PatternsEnd (fuel : Nat) : Prop where
  branches : ∀ room t, Reads room t anyTooLarge (readBranches fuel room t)
  pieces : ∀ room t, Reads room t anyTooLarge (readPieces fuel room t)
  atom : ∀ room c t, Reads room (c :: t) Expression.tooLarge (readAtom fuel room c t)

/-- What opens behind the pieces of a branch opens in the branch. -/
theorem Opens.of_readPieces {n : Nat} {pieces : List Expression} (h : readPieces fuel room t = .ok (pieces, rest))
    (ho : Opens n rest) : Opens n t := by
  induction fuel generalizing t pieces with
  | zero => cases h
  | succ fuel ih =>
      cases t with
      | nil =>
          cases h
          exact ho
      | cons c t =>
          rw [readPieces] at h
          split at h
          · cases h
            exact ho
          · next hc =>
              simp only [bind_eq_ok, pure_eq_ok] at h
              obtain ⟨⟨atom, t'⟩, hatom, ⟨e, t''⟩, he, ⟨later, _⟩, hlater, h⟩ := h
              cases h
              exact .piece (by simpa [branchEnds] using hc) hatom he (ih hlater)

theorem readBranches_ends (ih : PatternsEnd fuel) (room : Nat) (t : Text) :
    Reads room t anyTooLarge (readBranches (fuel + 1) room t) := by
  rw [readBranches]
  refine (ih.pieces room t).known.bind ?_
  rintro ⟨pieces, rest⟩ ⟨hread, hrest, hlarge⟩
  dsimp only at hrest hlarge ⊢
  split
  · next after hafter =>
      obtain rfl := Text.dropPrefix?_eq_some.1 hafter
      have hafter := (List.suffix_append _ after).trans hrest
      refine Ends.bind ((ih.branches room after).mono (fun _ => id) fun _ he => ?_) ?_
      · exact he.behind hafter fun n hroom h => ⟨n, hroom, .of_readPieces hread (.alternative h)⟩
      rintro ⟨branches, rest⟩ ⟨hrest, hlarge'⟩
      refine .ok ⟨hrest.trans hafter, fun h => ?_⟩
      rw [anyTooLarge, Expression.tooLarge, Bool.or_eq_true] at h
      exact h.elim hlarge fun h => (hlarge' h).of_suffix hafter
  · refine .ok ⟨hrest, fun h => hlarge ?_⟩
    rwa [anyTooLarge, anyTooLarge, Expression.tooLarge, Bool.or_false] at h

theorem readPieces_ends (ih : PatternsEnd fuel) (room : Nat) (t : Text) :
    Reads room t anyTooLarge (readPieces (fuel + 1) room t) := by
  cases t with
  | nil => exact .ok ⟨List.suffix_rfl, (absurd · Bool.false_ne_true)⟩
  | cons c t =>
      rw [readPieces]
      split
      · exact .ok ⟨List.suffix_rfl, (absurd · Bool.false_ne_true)⟩
      next hc =>
      have hc : c ∉ branchEnds := by simpa [branchEnds] using hc
      refine (ih.atom room c t).known.bind ?_
      rintro ⟨atom, rest⟩ ⟨hreadAtom, hrest, hatom⟩
      dsimp only at hrest hatom ⊢
      refine Ends.bind ((readQuantifier_ends atom rest).known.mono (fun _ => id) fun _ he => ?_) ?_
      · refine he.imp_right ?_
        rintro ⟨rfl, h⟩
        exact .numeral (h.of_suffix hrest)
      rintro ⟨piece, rest'⟩ ⟨hreadPiece, hrest', hpiece⟩
      dsimp only at hrest' hpiece ⊢
      have hsuffix := hrest'.trans hrest
      refine Ends.bind ((ih.pieces room rest').mono (fun _ => id) fun _ he => ?_) ?_
      · exact he.behind hsuffix fun n hroom h => ⟨n, hroom, .piece hc hreadAtom hreadPiece h⟩
      rintro ⟨pieces, _⟩ ⟨hlast, hpieces⟩
      refine .ok ⟨hlast.trans hsuffix, fun h => ?_⟩
      rw [anyTooLarge, Bool.or_eq_true] at h
      rcases h with h | h
      · exact (hpiece h).elim hatom fun h => h.of_suffix hrest
      · exact (hpieces h).of_suffix hsuffix

theorem readAtom_ends (ih : PatternsEnd fuel) (room : Nat) (c : CodePoint) (t : Text) :
    Reads room (c :: t) Expression.tooLarge (readAtom (fuel + 1) room c t) := by
  have ht := List.suffix_cons c t
  rw [readAtom]
  split
  · next hc =>
      subst hc
      dsimp only
      split
      · next hroom => exact .error (.inr (.nesting (.group (.nothing t)) (by omega)))
      · next hroom =>
          -- what stands in the group is read with less room
          refine Ends.bind ((ih.branches (room - groupRoom) t).mono (fun _ => id) fun _ he => ?_) ?_
          · exact he.behind ht fun n hn h => ⟨n + groupRoom, by omega, .group h⟩
          rintro ⟨branches, rest⟩ ⟨hrest, hlarge⟩
          dsimp only at hrest hlarge ⊢
          split
          · next after hafter =>
              obtain rfl := Text.dropPrefix?_eq_some.1 hafter
              exact .ok ⟨((List.suffix_append _ after).trans hrest).trans ht, fun h => (hlarge h).of_suffix ht⟩
          · exact ends_explained (ends_flaw _)
  split
  · next hc =>
      subst hc
      refine Ends.map ((classesEnd _).1 room t |>.mono (fun _ => id) fun _ he => he.explained) fun _ h => ?_
      exact ⟨h.trans ht, (absurd · Bool.false_ne_true)⟩
  split
  · refine (ends_explained (readEscape_ends t)).map ?_
    rintro ⟨item, _⟩ h
    cases item with
    | point d => exact ⟨h.trans ht, (absurd · Bool.false_ne_true)⟩
    | set s => exact ⟨h.trans ht, (absurd · Bool.false_ne_true)⟩
  split
  · exact .ok ⟨ht, (absurd · Bool.false_ne_true)⟩
  split
  · exact ends_explained (ends_flaw _)
  · exact .ok ⟨ht, (absurd · Bool.false_ne_true)⟩

theorem patternsEnd (fuel : Nat) : PatternsEnd fuel := by
  induction fuel with
  | zero =>
      have hflaw {α : Type} {room : Nat} {t : Text} {large : α → Bool} :
          Reads room t large (.error (.flaw .unexpectedEnd)) := ends_explained (ends_flaw _)
      exact ⟨fun _ _ => hflaw, fun _ _ => hflaw, fun _ _ _ => hflaw⟩
  | succ fuel ih => exact ⟨readBranches_ends ih, readPieces_ends ih, readAtom_ends ih⟩

/-- A text is a pattern, has a flaw, or goes beyond what can be read. -/
theorem compile_ends (source : Text) : Ends (fun _ => True) (Explained maxRoom source) (compile source) := by
  rw [compile, read]
  refine Ends.bind (P := fun branches => anyTooLarge branches = true → HasLargeBounds source) ?_ ?_
  · refine ((patternsEnd _).branches maxRoom source).bind ?_
    rintro ⟨branches, rest⟩ ⟨_, hlarge⟩
    dsimp only
    split
    · exact .ok hlarge
    · exact ends_explained (ends_flaw _)
  · intro branches hlarge
    split
    · next h => exact .error (.inr (.bounds (hlarge h)))
    · exact .ok trivial

end XmlSchema.Pattern
