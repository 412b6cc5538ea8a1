import XmlSchema.Proofs.Pattern.Expressions
import XmlSchema.Proofs.Pattern.Source

/-!
What a pattern is read as: the text that a reader has taken off stands, in the dialect of the schema language, for what
the expression that it gives stands for.
-/

namespace XmlSchema.Pattern

section

variable {α β : Type}

theorem bind_eq_ok {x : Except Failure α} {f : α → Except Failure β} {b : β} :
    (x >>= f) = .ok b ↔ ∃ a, x = .ok a ∧ f a = .ok b := by
  cases x <;> simp [bind, Except.bind]

theorem map_eq_ok {x : Except Failure α} {f : α → β} {b : β} : x.map f = .ok b ↔ ∃ a, x = .ok a ∧ f a = b := by
  cases x <;> simp [Except.map]

theorem pure_eq_ok {a b : α} : (pure a : Except Failure α) = .ok b ↔ a = b := by
  simp [pure, Except.pure]

theorem throw_eq_ok {f : Failure} {a : α} : (throw f : Except Failure α) = .ok a ↔ False := by
  simp [throw, throwThe, MonadExceptOf.throw]

end

open CodePointSet

variable {t u rest : Text}

/-! ### Classes -/

theorem readMember_point {c : CodePoint} (h : readMember t = .ok (.point c, rest)) :
    ∃ u, t = u ++ rest ∧ PointText u c := by
  cases t with
  | nil => cases h
  | cons d t =>
      rw [readMember] at h
      split at h
      · next hd =>
          obtain ⟨e, rfl, he⟩ := readEscape_point_iff.1 h
          exact ⟨_, by rw [hd]; rfl, .escaped he⟩
      · next hd =>
          split at h
          · cases h
          · next hd' =>
              cases h
              exact ⟨_, rfl, .literal hd hd'⟩

theorem readMember_set {p : CodePointSet} (h : readMember t = .ok (.set p, rest)) :
    p.IsProper ∧ ∃ u, t = ('\\' : CodePoint) :: u ++ rest ∧ SetEscape u p.elements := by
  cases t with
  | nil => cases h
  | cons d t =>
      rw [readMember] at h
      split at h
      · next hd =>
          obtain ⟨hp, u, rfl, hu⟩ := readEscape_set_sound h
          exact ⟨hp, u, by rw [hd]; rfl, hu⟩
      · split at h <;> cases h

/-- The set that is taken away, or no code point. -/
def removedElements : Option CodePointSet → Set CodePoint
  | none => ∅
  | some s => s.elements

/-- The text in front of `rest` is a class, and the set is what it stands for. -/
def TakesClass (t : Text) (s : CodePointSet) (rest : Text) : Prop :=
  s.IsProper ∧ ∃ u, t = u ++ rest ∧ ClassBody u s.elements

/-- The text in front of `rest` holds members that together with those before make up `all`, and `removed` is the class
that is taken away. -/
structure TakesMembers (first : Bool) (members : CodePointSet) (t : Text) (all : CodePointSet)
    (removed : Option CodePointSet) (rest : Text) : Prop where
  proper : all.IsProper
  removed_proper : ∀ p ∈ removed, p.IsProper
  text : ∃ u s, t = u ++ rest ∧ all.elements = members.elements ∪ s ∧ Members first u s (removedElements removed)

theorem elements_point (c : CodePoint) : elements [⟨c.val, c.val⟩] = {c} := by
  rw [elements_singleton]
  ext d
  exact ⟨fun h => CodePoint.ext_val (Nat.le_antisymm h.2 h.1), fun h => h ▸ ⟨Nat.le_refl _, Nat.le_refl _⟩⟩

theorem isProper_lineEnds : IsProper [⟨0xA, 0xA⟩, ⟨0xD, 0xD⟩] := by
  decide

theorem isProper_anySet : anySet.IsProper := isProper_lineEnds.complement

theorem elements_anySet : anySet.elements = {c : CodePoint | c ≠ '\n' ∧ c ≠ '\r'} := by
  have hr : elements [⟨0xD, 0xD⟩] = {('\r' : CodePoint)} := elements_point '\r'
  have hn : {c : CodePoint | 0xA ≤ c.val ∧ c.val ≤ 0xA} = {('\n' : CodePoint)} := by
    rw [← elements_point '\n', elements_singleton]
    rfl
  rw [anySet, elements_complement isProper_lineEnds, elements_cons, hn, hr]
  ext c
  simp [and_comm]

theorem isProper_range {lo hi : CodePoint} (h : lo.val ≤ hi.val) : IsProper [⟨lo.val, hi.val⟩] := by
  intro r hr
  obtain rfl := List.mem_singleton.1 hr
  exact ⟨h, hi.val_le⟩

theorem startsWith_circumflex : Text.startsWith t "^" = true ↔ ∃ u, t = ('^' : CodePoint) :: u := by
  rw [Text.startsWith, Option.isSome_iff_exists]
  simp only [Text.dropPrefix?_eq_some]
  rfl

theorem startsWith_bracket : Text.startsWith t "[" = true ↔ ∃ u, t = ('[' : CodePoint) :: u := by
  rw [Text.startsWith, Option.isSome_iff_exists]
  simp only [Text.dropPrefix?_eq_some]
  rfl

theorem rangeFollows_of_append (h : rangeFollows (t ++ rest) = false) : rangeFollows t = false := by
  match t with
  | [] | [_] => rfl
  | _ :: _ :: _ => exact h

theorem rangeFollows_eq_true (h : rangeFollows t = true) :
    ∃ d u, t = ('-' : CodePoint) :: d :: u ∧ d ≠ ']' ∧ d ≠ '[' := by
  match t with
  | [] | [_] => exact nomatch h
  | c :: d :: u =>
      simp only [rangeFollows, Bool.and_eq_true, decide_eq_true_eq, decide_not, Bool.not_eq_true',
        decide_eq_false_iff_not] at h
      obtain ⟨⟨rfl, hd⟩, hd'⟩ := h
      exact ⟨d, u, rfl, hd, hd'⟩

theorem GoesOn.of_append (h : GoesOn (t ++ rest)) (hne : t ≠ []) : GoesOn t := by
  constructor
  · have := h.1
    rwa [List.head?_append_of_ne_nil _ hne] at this
  · rintro u rfl
    exact h.2 (u ++ rest) rfl

theorem TakesMembers.more {first : Bool} {members m all : CodePointSet} {removed : Option CodePointSet} {rest' : Text}
    (h : TakesMembers false (m ++ members) t all removed rest) (hfirst : first = false → GoesOn (rest' ++ t))
    (hmember : ∀ u, t = u ++ rest → Member rest' m.elements u) :
    TakesMembers first members (rest' ++ t) all removed rest := by
  refine ⟨h.proper, h.removed_proper, ?_⟩
  obtain ⟨u, s, rfl, hall, hmembers⟩ := h.text
  have hm := hmember u rfl
  refine ⟨rest' ++ u, m.elements ∪ s, (List.append_assoc _ _ _).symm, ?_, .more ?_ hm hmembers⟩
  · rw [hall, elements_append, ← Set.union_assoc, Set.union_comm m.elements]
  · intro hf
    have := hfirst hf
    rw [← List.append_assoc] at this
    exact this.of_append (by simp [hm.ne_nil])

/-- Reads one member of a class, which may be a range. -/
def readRange (t : Text) : Except Failure (CodePointSet × Text) := do
  let (item, rest) ← readMember t
  match item with
  | .set s => return (s, rest)
  | .point lo =>
    if rangeFollows rest then do
      let (item, rest) ← readMember (rest.drop 1)
      match item with
      | .set _ => .error (.flaw .invalidRange)
      | .point hi => if hi < lo then .error (.flaw .invalidRange) else return ([⟨lo.val, hi.val⟩], rest)
    else return ([⟨lo.val, lo.val⟩], rest)

/-- Where neither the class ends nor another one is taken away from it, its members go on. -/
theorem goesOn_cons {first : Bool} {c : CodePoint} (hclose : ¬ (c = ']' && !first) = true)
    (hsubtract : ¬ (c = '-' && Text.startsWith t "[" && !first) = true) (hf : first = false) : GoesOn (c :: t) := by
  simp only [Bool.and_eq_true, decide_eq_true_eq, Bool.not_eq_true', startsWith_bracket] at hclose hsubtract
  refine ⟨fun hc => hclose ⟨Option.some.inj hc, hf⟩, ?_⟩
  rintro u hu
  obtain ⟨rfl, rfl⟩ := List.cons.inj hu
  exact hsubtract ⟨⟨rfl, u, rfl⟩, hf⟩

theorem readMembers_more {fuel room : Nat} {first : Bool} {members : CodePointSet} {c : CodePoint}
    (hclose : ¬ (c = ']' && !first) = true) (hsubtract : ¬ (c = '-' && Text.startsWith t "[" && !first) = true) :
    readMembers (fuel + 1) room first members (c :: t) =
      readRange (c :: t) >>= fun p => readMembers fuel room false (p.1 ++ members) p.2 := by
  rw [readMembers, if_neg hclose, if_neg hsubtract, readRange]
  cases readMember (c :: t) with
  | error f => rfl
  | ok found =>
      obtain ⟨item, rest⟩ := found
      cases item with
      | set s => rfl
      | point lo =>
          cases hr : rangeFollows rest with
          | false => simp [hr, bind, Except.bind, pure, Except.pure]
          | true =>
              simp only [hr, bind, Except.bind]
              cases readMember (rest.drop 1) with
              | error f => rfl
              | ok found =>
                  obtain ⟨item, rest⟩ := found
                  cases item with
                  | set s => rfl
                  | point hi => by_cases hlt : hi < lo <;> simp [hlt, pure, Except.pure]

theorem readRange_sound {m : CodePointSet} (h : readRange t = .ok (m, rest)) :
    m.IsProper ∧ ∃ u, t = u ++ rest ∧ ∀ w after, rest = w ++ after → Member u m.elements w := by
  simp only [readRange, bind_eq_ok] at h
  obtain ⟨⟨item, rest'⟩, hitem, h⟩ := h
  cases item with
  | set s =>
      cases h
      obtain ⟨hs, u, ht, hu⟩ := readMember_set hitem
      exact ⟨hs, _, ht, fun _ _ _ => .set hu⟩
  | point lo =>
      obtain ⟨u, ht, hu⟩ := readMember_point hitem
      dsimp only at h
      split at h
      · next hrange =>
          obtain ⟨d, w, rfl, hd⟩ := rangeFollows_eq_true hrange
          simp only [bind_eq_ok] at h
          obtain ⟨⟨item, rest'⟩, hitem, h⟩ := h
          cases item with
          | set s => exact nomatch h
          | point hi =>
              obtain ⟨u', ht', hu'⟩ := readMember_point hitem
              dsimp only at h
              split at h
              · exact nomatch h
              · next hle =>
                  cases h
                  have hle : lo.val ≤ hi.val := Nat.le_of_not_lt hle
                  refine ⟨isProper_range hle, u ++ ('-' : CodePoint) :: u', ?_, fun _ _ _ => ?_⟩
                  · rw [ht, List.append_assoc, List.cons_append, ← ht']
                    rfl
                  · rw [elements_singleton]
                    refine .range hu hu' ?_ hle
                    cases u' with
                    | nil => exact absurd rfl hu'.ne_nil
                    | cons e u' =>
                        obtain rfl := List.head_eq_of_cons_eq ht'
                        exact fun he => hd.1 (Option.some.inj he)
      · next hrange =>
          cases h
          refine ⟨isProper_range (Nat.le_refl _), u, ht, fun w after hw => ?_⟩
          rw [elements_point]
          have hfollows : rangeFollows (w ++ after) = false := by
            rw [← hw]
            exact Bool.eq_false_iff.2 hrange
          exact .point hu (rangeFollows_of_append hfollows)

theorem readClass_sound {fuel room : Nat} {s : CodePointSet}
    (ih : ∀ {room first members t all removed rest}, readMembers fuel room first members t = .ok (all, removed, rest) →
      IsProper members → TakesMembers first members t all removed rest)
    (h : readClass (fuel + 1) room t = .ok (s, rest)) : TakesClass t s rest := by
  simp only [readClass, bind_eq_ok] at h
  obtain ⟨⟨all, removed, rest'⟩, hm, h⟩ := h
  have hall := ih hm fun _ hr => absurd hr List.not_mem_nil
  obtain ⟨u, s', ht, hs', hmembers⟩ := hall.text
  obtain rfl : s' = all.elements := by
    rw [hs']
    simp [elements]
  generalize hn : Text.startsWith t "^" = negated at h ht
  have hclass : t = circumflex negated ++ u ++ rest' ∧ Unmarked negated u := by
    cases negated with
    | true =>
        obtain ⟨w, rfl⟩ := startsWith_circumflex.1 hn
        exact ⟨congrArg (List.cons _) ht, (absurd ·.symm Bool.false_ne_true)⟩
    | false =>
        refine ⟨ht, fun _ hu => ?_⟩
        obtain ⟨w, rfl⟩ := List.head?_eq_some_iff.1 hu
        exact absurd (startsWith_circumflex.2 ⟨_, ht⟩) (Bool.eq_false_iff.1 hn)
  have hkept : (if negated then complement all else all).IsProper ∧
      (if negated then complement all else all).elements = kept negated all.elements := by
    cases negated with
    | true => exact ⟨hall.proper.complement, elements_complement hall.proper⟩
    | false => exact ⟨hall.proper, rfl⟩
  cases removed with
  | none =>
      cases h
      refine ⟨hkept.1, _, hclass.1, ?_⟩
      rw [hkept.2, ← Set.sdiff_empty (s := kept negated all.elements)]
      exact .intro negated hmembers hclass.2
  | some p =>
      cases h
      have hp := hall.removed_proper p rfl
      refine ⟨hkept.1.subtract hp, _, hclass.1, ?_⟩
      rw [elements_subtract hp, hkept.2]
      exact .intro negated hmembers hclass.2

theorem readMembers_sound {fuel room : Nat} {first : Bool} {members all : CodePointSet} {removed : Option CodePointSet}
    (ih : ∀ {room t s rest}, readClass fuel room t = .ok (s, rest) → TakesClass t s rest)
    (ih' : ∀ {room first members t all removed rest}, readMembers fuel room first members t = .ok (all, removed, rest) →
      IsProper members → TakesMembers first members t all removed rest)
    (h : readMembers (fuel + 1) room first members t = .ok (all, removed, rest)) (hm : members.IsProper) :
    TakesMembers first members t all removed rest := by
  cases t with
  | nil => exact nomatch h
  | cons c t =>
      by_cases hclose : (c = ']' && !first) = true
      · rw [readMembers, if_pos hclose] at h
        simp only [Bool.and_eq_true, decide_eq_true_eq, Bool.not_eq_true'] at hclose
        obtain ⟨rfl, rfl⟩ := hclose
        cases h
        exact ⟨hm, (fun _ h => nomatch h), [(']' : CodePoint)], ∅, rfl, by simp, .close⟩
      · by_cases hsubtract : (c = '-' && Text.startsWith t "[" && !first) = true
        · rw [readMembers, if_neg hclose, if_pos hsubtract] at h
          simp only [Bool.and_eq_true, decide_eq_true_eq, Bool.not_eq_true', startsWith_bracket] at hsubtract
          obtain ⟨⟨rfl, u, rfl⟩, rfl⟩ := hsubtract
          dsimp only at h
          split at h
          · simp only [bind_eq_ok, throw_eq_ok, false_and, exists_false] at h
          · simp only [bind_eq_ok] at h
            obtain ⟨⟨s, rest'⟩, hs, h⟩ := h
            dsimp only at h
            split at h
            · next after hafter =>
                cases h
                rw [Text.dropPrefix?_eq_some] at hafter
                obtain ⟨hp, w, hw, hbody⟩ := ih hs
                have hu : u = w ++ ([(']' : CodePoint)] ++ rest) := hw.trans (congrArg (w ++ ·) hafter)
                refine ⟨hm, fun p hp' => Option.some.inj hp' ▸ hp,
                  ('-' : CodePoint) :: ('[' : CodePoint) :: (w ++ [(']' : CodePoint)]), ∅, by simp [hu], by simp, ?_⟩
                rw [removedElements]
                generalize s.elements = e at hbody
                cases hbody with
                | intro negated h hn => exact .subtract negated h hn
            · exact nomatch h
        · have hfirst : first = false → GoesOn (c :: t) := goesOn_cons hclose hsubtract
          rw [readMembers_more hclose hsubtract, bind_eq_ok] at h
          obtain ⟨⟨m, rest'⟩, hrange, h⟩ := h
          obtain ⟨hmp, u, ht, hu⟩ := readRange_sound hrange
          rw [ht] at hfirst ⊢
          exact (ih' h (isProper_append.2 ⟨hmp, hm⟩)).more hfirst fun w hw => hu w _ hw

theorem readClasses_sound (fuel : Nat) :
    (∀ {room t s rest}, readClass fuel room t = .ok (s, rest) → TakesClass t s rest) ∧
    ∀ {room first members t all removed rest}, readMembers fuel room first members t = .ok (all, removed, rest) →
      IsProper members → TakesMembers first members t all removed rest := by
  induction fuel with
  | zero => exact ⟨(nomatch ·), (nomatch ·)⟩
  | succ fuel ih => exact ⟨readClass_sound ih.2, readMembers_sound ih.1 ih.2⟩

/-! ### Quantifiers -/

/-- A numeral in digits of any script. -/
def IsDecimal (t : Text) : Prop := t ≠ [] ∧ ∀ c ∈ t, c.isDigit = true

/-- What may stand between the braces of a quantifier to be read as bounds. -/
inductive DecimalBounds : Text → Occurs → Prop
  | exactly {t : Text} (h : IsDecimal t) : DecimalBounds t ⟨Text.digitsValue t, some (Text.digitsValue t)⟩
  | atLeast {t : Text} (h : IsDecimal t) : DecimalBounds (t ++ [(',' : CodePoint)]) ⟨Text.digitsValue t, none⟩
  | between {t t' : Text} (h : IsDecimal t) (h' : IsDecimal t') (hle : Text.digitsValue t ≤ Text.digitsValue t') :
      DecimalBounds (t ++ (',' : CodePoint) :: t') ⟨Text.digitsValue t, some (Text.digitsValue t')⟩

theorem isDigit_of_ascii {c : CodePoint} (h : c.val < 0x80) : c.isDigit = c.isAsciiDigit := by
  rw [CodePoint.isDigit, CodePoint.digitValue?, if_pos h]
  cases c.isAsciiDigit <;> rfl

theorem IsDecimal.isNumeral {t : Text} (h : IsDecimal t) (hascii : ∀ c ∈ t, c.val < 0x80) : IsNumeral t :=
  ⟨h.1, fun c hc => (isDigit_of_ascii (hascii c hc)).symm.trans (h.2 c hc)⟩

theorem DecimalBounds.bounds {body : Text} {o : Occurs} (h : DecimalBounds body o)
    (hascii : ∀ c ∈ body, c.val < 0x80) : Bounds body o := by
  cases h with
  | exactly h => exact .exactly (h.isNumeral hascii)
  | atLeast h => exact .atLeast (h.isNumeral fun c hc => hascii c (List.mem_append_left _ hc))
  | between h h' hle =>
      refine .between (h.isNumeral fun c hc => hascii c (List.mem_append_left _ hc)) (h'.isNumeral fun c hc => ?_) hle
      exact hascii c (List.mem_append_right _ (List.mem_cons_of_mem _ hc))

theorem boundedNumber_eq_ok {digits : Text} {n : Nat} (h : boundedNumber digits = .ok n) :
    n = Text.digitsValue digits := by
  rw [boundedNumber, Text.boundedValue?] at h
  split at h
  · next m hm =>
      split at hm
      · cases hm
        cases h
        rfl
      · exact nomatch hm
  · exact nomatch h

/-- The numerals of a bound stand in it, with a comma between them if there is one. -/
theorem boundParts?_sound {body low : Text} {high : Option Text} (h : boundParts? body = some (low, high)) :
    IsDecimal low ∧ (high = none ∧ body = low ∨ ∃ t, high = some t ∧ body = low ++ (',' : CodePoint) :: t ∧
      ∀ c ∈ t, c.isDigit = true) := by
  have hbody := List.takeWhile_append_dropWhile (p := CodePoint.isDigit) (l := body)
  rw [boundParts?, List.span_eq_takeWhile_dropWhile] at h
  have hlow : ∀ c ∈ body.takeWhile CodePoint.isDigit, c.isDigit = true := fun c hc => List.mem_takeWhile_imp hc
  dsimp only at h
  split at h
  · exact nomatch h
  · next hne =>
      rw [List.isEmpty_iff] at hne
      split at h
      · next hrest =>
          cases h
          rw [hrest, List.append_nil] at hbody
          exact ⟨⟨hne, hlow⟩, .inl ⟨rfl, hbody.symm⟩⟩
      · next c t hrest =>
          split at h
          · next hc =>
              cases h
              simp only [Bool.and_eq_true, decide_eq_true_eq, List.all_eq_true] at hc
              rw [hrest] at hbody
              obtain ⟨rfl, ht⟩ := hc
              exact ⟨⟨hne, hlow⟩, .inr ⟨t, rfl, hbody.symm, ht⟩⟩
          · exact nomatch h

theorem readBounds_decimal {body : Text} {o : Occurs} (h : readBounds body = .ok o) : DecimalBounds body o := by
  rw [readBounds] at h
  split at h
  · exact nomatch h
  · next low hparts =>
      obtain ⟨hlow, ⟨_, rfl⟩ | ⟨_, ht, _⟩⟩ := boundParts?_sound hparts
      · simp only [bind_eq_ok, pure_eq_ok] at h
        obtain ⟨n, hn, rfl⟩ := h
        rw [boundedNumber_eq_ok hn]
        exact .exactly hlow
      · exact nomatch ht
  · next low hparts =>
      obtain ⟨hlow, ⟨ht, _⟩ | ⟨t, ht, rfl, _⟩⟩ := boundParts?_sound hparts
      · exact nomatch ht
      · cases ht
        simp only [bind_eq_ok, pure_eq_ok] at h
        obtain ⟨n, hn, rfl⟩ := h
        rw [boundedNumber_eq_ok hn]
        exact .atLeast hlow
  · next low high hne hparts =>
      obtain ⟨hlow, ⟨ht, _⟩ | ⟨t, ht, rfl, hhigh⟩⟩ := boundParts?_sound hparts
      · exact nomatch ht
      · cases ht
        simp only [bind_eq_ok] at h
        obtain ⟨n, hn, m, hm, h⟩ := h
        split at h
        · exact nomatch h
        · next hle =>
            cases h
            rw [boundedNumber_eq_ok hn, boundedNumber_eq_ok hm] at hle ⊢
            exact .between hlow ⟨fun hnil => hne hnil, hhigh⟩ (Nat.le_of_not_lt hle)

theorem readQuantifier_eq_ok {atom e : Expression} (h : readQuantifier atom t = .ok (e, rest)) :
    e = atom ∧ t = rest ∨ ∃ q, e = .repeated atom q ∧ t = q.text ++ rest ∧
      (q.isLiteral = false → Quantity q.text q.range) := by
  cases t with
  | nil =>
      cases h
      exact .inl ⟨rfl, rfl⟩
  | cons c t =>
      rw [readQuantifier] at h
      split at h
      · next hc =>
          cases h
          exact .inr ⟨.optional, rfl, hc ▸ rfl, fun _ => .optional⟩
      split at h
      · next hc =>
          cases h
          exact .inr ⟨.star, rfl, hc ▸ rfl, fun _ => .star⟩
      split at h
      · next hc =>
          cases h
          exact .inr ⟨.plus, rfl, hc ▸ rfl, fun _ => .plus⟩
      split at h
      · next hc =>
          split at h
          · exact nomatch h
          · next body after hsplit =>
              simp only [bind_eq_ok, pure_eq_ok] at h
              obtain ⟨o, ho, h⟩ := h
              cases h
              obtain ⟨rfl, _⟩ := Text.splitAt?_eq_some.1 hsplit
              refine .inr ⟨.counted body o, rfl, ?_, fun hliteral => .counted ((readBounds_decimal ho).bounds ?_)⟩
              · rw [hc, Quantifier.text, List.append_assoc, List.append_assoc]
                rfl
              · simpa [Quantifier.isLiteral] using hliteral
      · cases h
        exact .inl ⟨rfl, rfl⟩

/-- The text in front of `rest` is a part of a pattern that stands for what the expression stands for, if its
quantifiers are quantifiers. -/
def Takes (k : Construct) (t : Text) (e : Expression) (rest : Text) : Prop :=
  AreAscii e.quantifiers → e.Fits k ∧ ∃ u, t = u ++ rest ∧ Denotes schemaDialect k u e.language

/-- The same for the branches of a pattern or a group. -/
def TakesBranches (t : Text) (branches : List Expression) (rest : Text) : Prop :=
  AreAscii (quantifiersOfAll branches) → (branches ≠ [] ∧ ∀ b ∈ branches, b.Fits .branch) ∧
    ∃ u, t = u ++ rest ∧ Denotes schemaDialect .branches u (languages branches).sum

theorem readQuantifier_sound {atom e : Expression} {t' : Text} (h : readQuantifier atom t' = .ok (e, rest))
    (hatom : Takes .atom t atom t') : Takes .piece t e rest := by
  intro hascii
  rcases readQuantifier_eq_ok h with ⟨rfl, rfl⟩ | ⟨q, rfl, rfl, hq⟩
  · obtain ⟨hf, u, ht, hu⟩ := hatom hascii
    exact ⟨.once hf, u, ht, .once hu⟩
  · obtain ⟨hl, ha⟩ := areAscii_cons.1 hascii
    obtain ⟨hf, u, ht, hu⟩ := hatom ha
    exact ⟨.repeated hf hl (hq hl), u ++ q.text, by rw [ht, List.append_assoc], .repeated hu (hq hl)⟩

theorem readBranches_sound {fuel room : Nat} {branches : List Expression}
    (ih : ∀ {room t branches rest}, readBranches fuel room t = .ok (branches, rest) → TakesBranches t branches rest)
    (ih' : ∀ {room t pieces rest}, readPieces fuel room t = .ok (pieces, rest) →
      Takes .branch t (.sequence pieces) rest)
    (h : readBranches (fuel + 1) room t = .ok (branches, rest)) : TakesBranches t branches rest := by
  intro hascii
  simp only [readBranches, bind_eq_ok] at h
  obtain ⟨⟨pieces, rest'⟩, hpieces, h⟩ := h
  dsimp only at h
  split at h
  · next after hafter =>
      simp only [bind_eq_ok, pure_eq_ok] at h
      obtain ⟨⟨branches, rest₂⟩, hbranches, h⟩ := h
      cases h
      obtain ⟨ha, ha'⟩ := areAscii_append.1 hascii
      obtain ⟨hf, u, rfl, hu⟩ := ih' hpieces ha
      obtain ⟨⟨_, hf'⟩, u', rfl, hu'⟩ := ih hbranches ha'
      rw [Text.dropPrefix?_eq_some] at hafter
      refine ⟨⟨List.cons_ne_nil _ _, List.forall_mem_cons.2 ⟨hf, hf'⟩⟩, u ++ ('|' : CodePoint) :: u', ?_, ?_⟩
      · rw [hafter, List.append_assoc]
        rfl
      · rw [languages, List.sum_cons]
        exact .alternative hu hu'
  · rw [pure_eq_ok] at h
    cases h
    obtain ⟨hf, u, rfl, hu⟩ := ih' hpieces (areAscii_append.1 hascii).1
    refine ⟨⟨List.cons_ne_nil _ _, List.forall_mem_singleton.2 hf⟩, u, rfl, ?_⟩
    rw [languages, languages, List.sum_singleton]
    exact .last hu

theorem readPieces_sound {fuel room : Nat} {pieces : List Expression}
    (ih : ∀ {room t pieces rest}, readPieces fuel room t = .ok (pieces, rest) → Takes .branch t (.sequence pieces) rest)
    (ih' : ∀ {room c t atom rest}, c ∉ branchEnds → readAtom fuel room c t = .ok (atom, rest) →
      Takes .atom (c :: t) atom rest)
    (h : readPieces (fuel + 1) room t = .ok (pieces, rest)) : Takes .branch t (.sequence pieces) rest := by
  intro hascii
  cases t with
  | nil =>
      cases h
      exact ⟨.sequence (fun _ hp => nomatch hp), [], rfl, .empty⟩
  | cons c t =>
      rw [readPieces] at h
      split at h
      · cases h
        exact ⟨.sequence (fun _ hp => nomatch hp), [], rfl, .empty⟩
      · next hc =>
          simp only [bind_eq_ok, pure_eq_ok] at h
          obtain ⟨⟨atom, t₁⟩, hatom, ⟨piece, t₂⟩, hpiece, ⟨pieces, t₃⟩, hpieces, h⟩ := h
          cases h
          have hc' : c ∉ branchEnds := by simpa [branchEnds] using hc
          obtain ⟨ha, ha'⟩ := areAscii_append.1 hascii
          obtain ⟨hf, u, ht, hu⟩ := readQuantifier_sound hpiece (ih' hc' hatom) ha
          obtain ⟨hf', u', rfl, hu'⟩ := ih hpieces ha'
          cases hf' with
          | sequence hf' =>
              refine ⟨.sequence (List.forall_mem_cons.2 ⟨hf, hf'⟩), u ++ u', by rw [ht, List.append_assoc], ?_⟩
              rw [Expression.language, languages, List.prod_cons]
              exact .piece hu hu'

theorem readAtom_sound {fuel room : Nat} {c : CodePoint} {atom : Expression}
    (ih : ∀ {room t branches rest}, readBranches fuel room t = .ok (branches, rest) → TakesBranches t branches rest)
    (hc : c ∉ branchEnds) (h : readAtom (fuel + 1) room c t = .ok (atom, rest)) : Takes .atom (c :: t) atom rest := by
  intro hascii
  rw [readAtom] at h
  split at h
  · next hopen =>
      dsimp only at h
      split at h
      · simp only [bind_eq_ok, throw_eq_ok, false_and, exists_false] at h
      · simp only [bind_eq_ok] at h
        obtain ⟨⟨branches, rest'⟩, hbranches, h⟩ := h
        dsimp only at h
        split at h
        · next after hafter =>
            cases h
            obtain ⟨⟨hne, hf⟩, u, rfl, hu⟩ := ih hbranches hascii
            rw [Text.dropPrefix?_eq_some] at hafter
            refine ⟨.choice hne hf, _, ?_, .group hu⟩
            rw [hopen, hafter]
            simp [schemaDialect]
            rfl
        · exact nomatch h
  split at h
  · next hopen =>
      rw [map_eq_ok] at h
      obtain ⟨⟨s, rest'⟩, hs, h⟩ := h
      cases h
      obtain ⟨hp, u, rfl, hu⟩ := (readClasses_sound _).1 hs
      exact ⟨.set hp, _, hopen ▸ rfl, .leaf (.bracketed hu)⟩
  split at h
  · next hbackslash =>
      rw [map_eq_ok] at h
      obtain ⟨⟨item, rest'⟩, hitem, h⟩ := h
      cases item with
      | point d =>
          cases h
          obtain ⟨e, rfl, he⟩ := readEscape_point_iff.1 hitem
          exact ⟨.point d, _, hbackslash ▸ rfl, .leaf (.point he)⟩
      | set s =>
          cases h
          obtain ⟨hp, u, rfl, hu⟩ := readEscape_set_sound hitem
          exact ⟨.set hp, _, hbackslash ▸ rfl, .leaf (.set hu)⟩
  split at h
  · next hdot =>
      cases h
      refine ⟨.set isProper_anySet, ['.'], hdot ▸ rfl, ?_⟩
      rw [Expression.language, elements_anySet]
      exact .leaf .any
  split at h
  · exact nomatch h
  · next hopen hbracket hbackslash hdot hmark =>
      cases h
      have hliteral : c ∉ metacharacters := by
        simp only [Bool.or_eq_true, decide_eq_true_eq, not_or] at hmark
        simp only [branchEnds, metacharacters, List.mem_cons, List.not_mem_nil] at hc ⊢
        tauto
      exact ⟨.point c, _, rfl, .leaf (.literal hliteral)⟩

theorem readPatterns_sound (fuel : Nat) :
    (∀ {room t branches rest}, readBranches fuel room t = .ok (branches, rest) → TakesBranches t branches rest) ∧
    (∀ {room t pieces rest}, readPieces fuel room t = .ok (pieces, rest) → Takes .branch t (.sequence pieces) rest) ∧
    ∀ {room c t atom rest}, c ∉ branchEnds → readAtom fuel room c t = .ok (atom, rest) →
      Takes .atom (c :: t) atom rest := by
  induction fuel with
  | zero => exact ⟨(nomatch ·), (nomatch ·), (fun _ h => nomatch h)⟩
  | succ fuel ih =>
      exact ⟨readBranches_sound ih.1 ih.2.1, readPieces_sound ih.2.1 ih.2.2, readAtom_sound ih.1⟩

/-- A pattern that is read stands for what its branches stand for. -/
theorem read_sound {t : Text} {branches : List Expression} (h : read t = .ok branches)
    (hascii : AreAscii (quantifiersOfAll branches)) :
    (branches ≠ [] ∧ ∀ b ∈ branches, b.Fits .branch) ∧ Denotes schemaDialect .branches t (languages branches).sum := by
  simp only [read, bind_eq_ok] at h
  obtain ⟨⟨branches, rest⟩, hbranches, h⟩ := h
  dsimp only at h
  split at h
  · next hrest =>
      cases h
      obtain ⟨hf, u, rfl, hu⟩ := (readPatterns_sound _).1 hbranches hascii
      rw [List.isEmpty_iff.1 hrest, List.append_nil]
      exact ⟨hf, hu⟩
  · exact nomatch h

end XmlSchema.Pattern
