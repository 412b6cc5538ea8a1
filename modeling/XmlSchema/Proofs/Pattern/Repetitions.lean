import XmlSchema.Proofs.Pattern.Failures
import XmlSchema.Proofs.Pattern.Leaves
import XmlSchema.Proofs.Pattern.Matching

/-!
Atoms for one code point with bounds behind them. The bounds may be written in digits of any script, and are read as the
numbers that those stand for. A matcher counts by them only if every digit is an ASCII one: else the braces and what
stands between them have to stand in the text behind one occurrence.
-/

namespace XmlSchema.Pattern

variable {atom body source t : Text} {s : Set CodePoint} {e : Expression} {pos q : Nat}

/-! ### Matching -/

theorem mem_literalEnd_iff {literal : Text} :
    q ∈ literalEnd t.toArray literal pos ↔ literal <+: t.drop pos ∧ q = pos + literal.length := by
  induction literal generalizing pos with
  | nil => simp [literalEnd]
  | cons c literal ih =>
      have hsplit : c :: literal <+: t.drop pos ↔ t[pos]? = some c ∧ literal <+: t.drop (pos + 1) := by
        rw [← List.singleton_append, Spells.append_prefix_drop, Spells.singleton_prefix_drop]
        rfl
      rw [literalEnd, List.getElem?_toArray, hsplit, List.length_cons]
      split
      · next hc => rw [ih, and_iff_right hc, Nat.add_assoc, Nat.add_comm 1]
      · next hc => simp [hc]

/-- Braces that are no bounds are ordinary characters behind the atom. -/
theorem isExact_literal {quantifier : Quantifier} (h : IsExact t e) (hl : quantifier.isLiteral = true) :
    ∀ q, q ∈ (ends t.toArray (.repeated e quantifier)).get 0 ↔ Spells t (e.language * {quantifier.text}) 0 q := by
  intro q
  rw [ends, if_pos hl, get_tabulate (Nat.zero_le _), Positions.mem_bind, Spells.mul_iff]
  refine exists_congr fun r => and_congr (h 0 (Nat.zero_le _) r) ?_
  rw [mem_literalEnd_iff]
  constructor
  · rintro ⟨hp, hq⟩
    exact ⟨quantifier.text, rfl, hp, hq⟩
  · rintro ⟨_, rfl, hp, hq⟩
    exact ⟨hp, hq⟩

/-- A pattern of one piece matches what its piece stands for. -/
theorem isMatch_piece {l : Language CodePoint} (h : ∀ q, q ∈ (ends t.toArray e).get 0 ↔ Spells t l 0 q) :
    (⟨source, [.sequence [e]]⟩ : Pattern).isMatch t = true ↔ t ∈ l := by
  have hends : t.length ∈ (ends t.toArray (.choice [.sequence [e]])).get 0 ↔ t.length ∈ (ends t.toArray e).get 0 := by
    simp [ends, endsOfEach]
  rw [isMatch, Positions.contains_iff, List.size_toArray, hends, h, Spells.iff_extract (Nat.zero_le _)]
  simp

/-! ### Reading -/

theorem readQuantifier_braced (e : Expression) (hbody : ('}' : CodePoint) ∉ body) :
    readQuantifier e (braced body) =
      ((readBounds body).map fun range => Expression.repeated e (.counted body range)).map (·, []) := by
  have hsplit : Text.splitAt? "\x7d" (body ++ [('}' : CodePoint)]) = some (body, []) :=
    Text.splitAt?_eq_some.2 ⟨rfl, hbody⟩
  rw [braced, readQuantifier, if_neg (by decide), if_neg (by decide), if_neg (by decide), if_pos rfl, hsplit]
  dsimp only
  cases readBounds body <;> rfl

/-- An item that makes a pattern on its own can be taken for an atom. -/
theorem fits_item {item : Item} (h : compile atom = .ok ⟨source, [.sequence [item.expression]]⟩) :
    item.expression.Fits .atom := by
  have hascii : AreAscii (quantifiersOfAll [.sequence [item.expression]]) := by
    cases item <;> exact fun _ hq => nomatch hq
  obtain ⟨branches, hread, h⟩ := bind_eq_ok.1 h
  split at h
  · exact nomatch h
  cases h
  have hbranch := (read_sound hread hascii).1.2 _ List.mem_cons_self
  cases hbranch with
  | sequence hpieces =>
      have hpiece := hpieces _ List.mem_cons_self
      generalize he : item.expression = e at hpiece ⊢
      cases hpiece with
      | once hatom => exact hatom
      | repeated => cases item <;> exact nomatch he

/-- An atom for one code point and bounds behind it make a pattern if the atom alone does, and the bounds are read and
not too large. -/
theorem exists_compile_counted (hatom : Leaf atom s) (hbody : ('}' : CodePoint) ∉ body) :
    ∃ x : Except Failure Item, compile atom = x.map (fun item => ⟨atom, [.sequence [item.expression]]⟩) ∧
      compile (atom ++ braced body) = x >>= fun item => readBounds body >>= fun range =>
        if (Quantifier.counted body range).tooLarge then .error .boundTooLarge
        else .ok ⟨atom ++ braced body, [.sequence [.repeated item.expression (.counted body range)]]⟩ := by
  obtain ⟨x, hx⟩ := hatom.exists_read
  have halone := hx [] .ok fun e => rfl
  rw [List.append_nil] at halone
  refine ⟨x, ?_, ?_⟩
  · rw [compile, halone]
    cases x with
    | error failure => rfl
    | ok item => cases item <;> rfl
  · rw [compile, hx (braced body) _ fun e => readQuantifier_braced e hbody]
    cases x with
    | error failure => rfl
    | ok item =>
        cases readBounds body with
        | error failure => rfl
        | ok range =>
            have hitem : item.expression.tooLarge = false := by cases item <;> rfl
            simp [Except.map, bind, Except.bind, pure, Except.pure, anyTooLarge, Expression.tooLarge, hitem]

theorem compile_counted (hatom : Leaf atom s) (hbody : ('}' : CodePoint) ∉ body) {p : Pattern}
    (h : compile (atom ++ braced body) = .ok p) :
    ∃ (range : Occurs) (item : Item), readBounds body = .ok range ∧
      p = ⟨atom ++ braced body, [.sequence [.repeated item.expression (.counted body range)]]⟩ ∧
      item.expression.Fits .atom ∧ compile atom = .ok ⟨atom, [.sequence [item.expression]]⟩ := by
  obtain ⟨x, halone, hcounted⟩ := exists_compile_counted hatom hbody
  rw [hcounted] at h
  simp only [bind_eq_ok] at h
  obtain ⟨item, rfl, range, hrange, h⟩ := h
  split at h
  · exact nomatch h
  · exact ⟨range, item, hrange, (Except.ok.inj h).symm, fits_item halone, halone⟩

theorem readBounds_numeral (h : IsDecimal body) (hl : body.length ≤ Text.maxDigits) :
    readBounds body = .ok ⟨Text.digitsValue body, some (Text.digitsValue body)⟩ := by
  have hparts : boundParts? body = some (body, none) := by
    rw [boundParts?, List.span_eq_takeWhile_dropWhile, List.takeWhile_eq_self_iff.2 h.2,
      List.dropWhile_eq_nil_iff.2 h.2]
    simp [h.1]
  rw [readBounds, hparts]
  simp only [boundedNumber, Text.boundedValue?, if_pos hl]
  rfl

/-- The run of the Arabic-Indic digits is among those at the beginning of the table. -/
theorem digitValue?_arabicIndicThree : ('\u0663' : CodePoint).digitValue? = some 3 := by
  obtain ⟨later, hlater⟩ := Category.exists_runs_eq 20
  rw [CodePoint.digitValue?, if_neg (by decide), CodePoint.digitRuns, Category.rangesWhere, hlater,
    List.filterMap_append, List.find?_append, Option.or_of_isSome]
  all_goals
    rw [Category.runTexts]
    simp only [List.take_succ_cons, List.take_zero, List.flatMap_cons, List.flatMap_nil]
    repeat rw [String.toList_ofList]
    decide +kernel

theorem readBounds_arabicIndicThree : readBounds "\u0663" = .ok ⟨3, some 3⟩ := by
  have htext : Text.ofString "\u0663" = [('\u0663' : CodePoint)] := rfl
  have hdecimal : IsDecimal [('\u0663' : CodePoint)] := by
    refine ⟨List.cons_ne_nil _ _, List.forall_mem_singleton.2 ?_⟩
    rw [CodePoint.isDigit, digitValue?_arabicIndicThree, Option.isSome_some]
  have hvalue : Text.digitsValue [('\u0663' : CodePoint)] = 3 := by
    rw [← List.nil_append [_], Text.digitsValue_concat, digitValue?_arabicIndicThree]
    rfl
  rw [htext, readBounds_numeral hdecimal (by decide), hvalue]

/-! ### Copies -/

/-- The letter a, with bounds behind it. -/
def counted (body : Text) (range : Occurs) : Pattern :=
  ⟨"a" ++ braced body, [.sequence [.repeated (.point 'a') (.counted body range)]]⟩

/-- An atom for one code point with bounds behind it matches the texts put together from an allowed number of texts that
the atom alone matches, if the bounds are written in ASCII digits. With any other digit among them, it matches one such
text with the braces behind it as they are written. -/
theorem isMatch_counted (hatom : Leaf atom s) (hbody : ('}' : CodePoint) ∉ body) {p : Pattern}
    (h : compile (atom ++ braced body) = .ok p) :
    ∃ (range : Occurs) (q : Pattern), readBounds body = .ok range ∧ DecimalBounds body range ∧ compile atom = .ok q ∧
      ((∀ c ∈ body, c.val < 0x80) → ∀ t, p.isMatch t = true ↔ ∃ parts : List Text,
        range.allows parts.length ∧ (∀ u ∈ parts, q.isMatch u = true) ∧ t = parts.flatten) ∧
      ((∃ c ∈ body, 0x80 ≤ c.val) → ∀ t, p.isMatch t = true ↔ ∃ u, q.isMatch u = true ∧ t = u ++ braced body) := by
  obtain ⟨range, item, hrange, rfl, hfits, halone⟩ := compile_counted hatom hbody h
  have hitem (u : Text) :
      (⟨atom, [.sequence [item.expression]]⟩ : Pattern).isMatch u = true ↔ u ∈ item.expression.language :=
    isMatch_piece (isExact_of_fits hfits 0 (Nat.zero_le _))
  have hbounds := readBounds_decimal hrange
  refine ⟨range, _, hrange, hbounds, halone, fun hascii t => ?_, fun hother t => ?_⟩
  · -- the words of a power are the texts put together from so many words
    have hliteral : (Quantifier.counted body range).isLiteral = false := by
      simpa [Quantifier.isLiteral] using hascii
    have hpiece : (Expression.repeated item.expression (.counted body range)).Fits .piece :=
      .repeated hfits hliteral (.counted (hbounds.bounds hascii))
    rw [isMatch_piece (isExact_of_fits hpiece 0 (Nat.zero_le _))]
    simp only [hitem]
    constructor
    · rintro ⟨k, hk, hw⟩
      obtain ⟨parts, rfl, rfl, hparts⟩ := Language.mem_pow.1 hw
      exact ⟨parts, hk, hparts, rfl⟩
    · rintro ⟨parts, hk, hparts, rfl⟩
      exact ⟨parts.length, hk, Language.mem_pow.2 ⟨parts, rfl, rfl, hparts⟩⟩
  · have hliteral : (Quantifier.counted body range).isLiteral = true := by
      simpa [Quantifier.isLiteral] using hother
    rw [isMatch_piece (isExact_literal (fun pos hpos => isExact_of_fits hfits pos hpos) hliteral)]
    simp only [hitem]
    constructor
    · intro hw
      obtain ⟨u, hu, _, rfl, rfl⟩ := Language.mem_mul.1 hw
      exact ⟨u, hu, rfl⟩
    · rintro ⟨u, hu, rfl⟩
      exact Language.append_mem_mul hu rfl

/-- In ASCII digits a three counts, and in Arabic-Indic ones the braces have to stand in the text. -/
theorem isMatch_counted_three :
    compile ("a" ++ braced "3") = .ok (counted "3" ⟨3, some 3⟩) ∧
      compile ("a" ++ braced "\u0663") = .ok (counted "\u0663" ⟨3, some 3⟩) ∧
      (counted "3" ⟨3, some 3⟩).isMatch "aaa" = true ∧ (counted "\u0663" ⟨3, some 3⟩).isMatch "aaa" = false ∧
      (counted "\u0663" ⟨3, some 3⟩).isMatch "a\x7b\u0663\x7d" = true := by
  have hletter : Leaf "a" {('a' : CodePoint)} := .literal (by decide)
  have halone : compile "a" = .ok ⟨"a", [.sequence [.point 'a']]⟩ := by cbv
  have hmatch : (⟨"a", [.sequence [.point 'a']]⟩ : Pattern).isMatch "a" = true := by cbv
  have hascii : compile ("a" ++ braced "3") = .ok (counted "3" ⟨3, some 3⟩) := by cbv
  have hother : compile ("a" ++ braced "\u0663") = .ok (counted "\u0663" ⟨3, some 3⟩) := by
    obtain ⟨x, hx, hcounted⟩ := exists_compile_counted hletter (by decide : ('}' : CodePoint) ∉ Text.ofString "\u0663")
    obtain ⟨item, rfl, hitem⟩ := map_eq_ok.1 (hx.symm.trans halone)
    have hpoint : item.expression = .point 'a' := by simpa using hitem
    rw [hcounted, readBounds_arabicIndicThree, counted, ← hpoint]
    rfl
  refine ⟨hascii, hother, ?_, ?_⟩
  · obtain ⟨range, q, hrange, -, hq, hcounts, -⟩ := isMatch_counted hletter (by decide) hascii
    cases hq.symm.trans halone
    obtain rfl : range = ⟨3, some 3⟩ := Except.ok.inj (hrange.symm.trans (by cbv))
    refine (hcounts (by decide) _).2 ⟨["a", "a", "a"], ⟨by decide, by simp⟩, ?_, rfl⟩
    simpa using hmatch
  · obtain ⟨_, q, -, -, hq, -, hliteral⟩ := isMatch_counted hletter (by decide) hother
    cases hq.symm.trans halone
    have hliteral := hliteral ⟨_, List.mem_cons_self, by decide⟩
    refine ⟨Bool.eq_false_iff.2 fun h => ?_, (hliteral _).2 ⟨_, hmatch, rfl⟩⟩
    obtain ⟨u, -, hu⟩ := (hliteral _).1 h
    have hsuffix : braced "\u0663" <:+ "aaa" := ⟨u, hu.symm⟩
    exact absurd hsuffix (by decide)

end XmlSchema.Pattern
