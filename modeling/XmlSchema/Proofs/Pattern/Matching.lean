import XmlSchema.Pattern.Matching
import XmlSchema.Proofs.Content.Language
import XmlSchema.Proofs.Pattern.Reading
import XmlSchema.Proofs.Pattern.Writing

/-!
A pattern matches exactly the texts of the language that it stands for.
-/

namespace XmlSchema.Pattern

variable {t : Text} {pos q : Nat}

theorem mem_literalEnd {input : Array CodePoint} {c : CodePoint} :
    q ∈ literalEnd input [c] pos ↔ input[pos]? = some c ∧ q = pos + 1 := by
  rw [literalEnd]
  split
  · next h => simp [literalEnd, h]
  · next h => simp [h]

theorem mem_setEnd {input : Array CodePoint} {s : CodePointSet} :
    q ∈ setEnd input s pos ↔ ∃ c, input[pos]? = some c ∧ c ∈ s.elements ∧ q = pos + 1 := by
  rw [setEnd]
  cases input[pos]? with
  | none => simp
  | some c =>
      by_cases hc : s.contains c.val = true <;> simp [hc, CodePointSet.elements]

theorem endsOfEach_eq_map (input : Array CodePoint) (es : List Expression) :
    endsOfEach input es = es.map (ends input) := by
  induction es with
  | nil => rfl
  | cons e es ih => rw [endsOfEach, ih, List.map_cons]

theorem get_tabulate {f : Nat → Positions} (hpos : pos ≤ t.length) :
    (Table.tabulate t.toArray.size f).get pos = f pos :=
  Table.get_tabulate _ f pos hpos

/-- The table of an expression gives the ends of its words. -/
def IsExact (t : Text) (e : Expression) : Prop :=
  ∀ pos ≤ t.length, ∀ q, q ∈ (ends t.toArray e).get pos ↔ Spells t e.language pos q

theorem mem_foldr_union {tables : List (Table Positions)} :
    q ∈ tables.foldr (fun table acc => table.get pos ∪ acc) .empty ↔ ∃ table ∈ tables, q ∈ table.get pos := by
  induction tables with
  | nil => simp
  | cons table tables ih => simp [ih]

theorem mem_foldl_bind {pieces : List Expression} (h : ∀ p ∈ pieces, IsExact t p) {starts : Positions}
    (hstarts : ∀ p ∈ starts, p ≤ t.length) :
    q ∈ (endsOfEach t.toArray pieces).foldl (fun acc table => acc.bind table.get) starts ↔
      ∃ p ∈ starts, Spells t (languages pieces).prod p q := by
  induction pieces generalizing starts with
  | nil => simp [endsOfEach, languages, Spells.one_iff]
  | cons piece pieces ih =>
      obtain ⟨hp, hpieces⟩ := List.forall_mem_cons.1 h
      have hnext : ∀ r ∈ starts.bind (ends t.toArray piece).get, r ≤ t.length := by
        intro r hr
        obtain ⟨p, hps, hr⟩ := Positions.mem_bind.1 hr
        exact (((hp p (hstarts p hps) r).1 hr).le_length (hstarts p hps)).2
      rw [endsOfEach, List.foldl_cons, ih hpieces hnext, languages, List.prod_cons]
      constructor
      · rintro ⟨r, hr, hq⟩
        obtain ⟨p, hps, hr⟩ := Positions.mem_bind.1 hr
        exact ⟨p, hps, Spells.mul_iff.2 ⟨r, (hp p (hstarts p hps) r).1 hr, hq⟩⟩
      · rintro ⟨p, hps, hq⟩
        obtain ⟨r, hr, hq⟩ := Spells.mul_iff.1 hq
        exact ⟨r, Positions.mem_bind.2 ⟨p, hps, (hp p (hstarts p hps) r).2 hr⟩, hq⟩

theorem isExact_of_fits {k : Construct} {e : Expression} (h : e.Fits k) : IsExact t e := by
  induction h with
  | point c =>
      intro pos hpos q
      rw [ends, get_tabulate hpos, mem_literalEnd, Expression.language, single, Spells.singleton_iff,
        List.getElem?_toArray]
      simp
  | set _ =>
      intro pos hpos q
      rw [ends, get_tabulate hpos, mem_setEnd, Expression.language, single, Spells.singleton_iff,
        List.getElem?_toArray]
  | choice _ _ ih =>
      intro pos hpos q
      rw [ends, get_tabulate hpos, mem_foldr_union, Expression.language, languages_eq_map, Spells.sum_iff,
        endsOfEach_eq_map]
      simp only [List.mem_map, exists_exists_and_eq_and]
      exact exists_congr fun b => and_congr_right fun hb => ih b hb pos hpos q
  | sequence _ ih =>
      intro pos hpos q
      have hstart : ∀ p ∈ Positions.single pos, p ≤ t.length := fun p hp => Positions.mem_single.1 hp ▸ hpos
      rw [ends, get_tabulate hpos, mem_foldl_bind ih hstart, Expression.language]
      simp
  | once _ ih => exact ih
  | @repeated e quantifier _ hl hq ih =>
      intro pos hpos q
      have hstep : Sweep.Advances (ends t.toArray e).get t.toArray.size := by
        intro p hp r hr
        exact ((ih p hp r).1 hr).le_length hp
      have hafter {k : Nat} : q ∈ Sweep.after (ends t.toArray e).get pos k ↔ Spells t (e.language ^ k) pos q :=
        Matcher.mem_after_iff hstep ih hpos
      rw [ends, if_neg (Bool.eq_false_iff.1 hl), get_tabulate hpos,
        mem_reached_sweep hstep hpos hq.isRange]
      simp only [hafter]
      constructor
      · rintro ⟨k, hk, w, hw, hspells⟩
        exact ⟨w, ⟨k, hk, hw⟩, hspells⟩
      · rintro ⟨w, ⟨k, hk, hw⟩, hspells⟩
        exact ⟨k, hk, w, hw, hspells⟩

theorem isMatch_iff {p : Pattern} (hne : p.branches ≠ []) (h : ∀ b ∈ p.branches, b.Fits .branch) :
    p.isMatch t = true ↔ t ∈ (languages p.branches).sum := by
  rw [isMatch, Positions.contains_iff, isExact_of_fits (.choice hne h) 0 (Nat.zero_le _),
    Spells.iff_extract (Nat.zero_le _), Expression.language]
  simp

/-- A pattern stands for exactly one language, in the dialect of the schema language as it is written and in the dialect
of common engines as it is written there, and it matches exactly the texts of that language. -/
theorem isMatch_exact {source : Text} {p : Pattern} (h : compile source = .ok p)
    (hascii : AreAscii (quantifiersOfAll p.branches)) :
    ∃ (language : Language CodePoint) (regex : Text),
      (∀ l, Denotes schemaDialect .branches source l ↔ l = language) ∧ regexText source = .ok regex ∧
      (∀ l, Denotes engineDialect .branches regex l ↔ l = language) ∧ ∀ t, p.isMatch t = true ↔ t ∈ language := by
  obtain ⟨branches, hread, h⟩ := bind_eq_ok.1 h
  split at h
  · exact nomatch h
  · cases h
    obtain ⟨⟨hne, hfits⟩, hsource⟩ := read_sound hread hascii
    refine ⟨(languages branches).sum, alternativesText branches, fun l => hsource.iff_eq, ?_, fun l => ?_, fun t => ?_⟩
    · rw [regexText, hread]
      rfl
    · exact (Engine.denotes_alternativesText hne fun b hb => Engine.denotes_text (hfits b hb)).iff_eq
    · exact isMatch_iff hne hfits

/-- One or two letters of three, less the one in the middle, or a circumflex. -/
def subtraction : Pattern :=
  ⟨"[a-c-[b]]\x7b1,2\x7d|^", [.sequence [.repeated (.set [⟨0x61, 0x61⟩, ⟨0x63, 0x63⟩]) (.counted "1,2" ⟨1, some 2⟩)],
    .sequence [.point '^']]⟩

theorem isMatch_exact_subtraction : compile subtraction.source = .ok subtraction ∧
    AreAscii (quantifiersOfAll subtraction.branches) ∧ ∃ language : Language CodePoint,
      (∀ l, Denotes schemaDialect .branches subtraction.source l ↔ l = language) ∧
      (∀ l, Denotes engineDialect .branches "[ac]\x7b1,2\x7d|\\^" l ↔ l = language) ∧
      Text.ofString "ca" ∈ language ∧ Text.ofString "b" ∉ language ∧ Text.ofString "^" ∈ language := by
  have h : compile subtraction.source = .ok subtraction := by cbv
  have hascii : AreAscii (quantifiersOfAll subtraction.branches) := by
    intro q hq
    obtain rfl := List.mem_singleton.1 hq
    rfl
  have hregex : regexText subtraction.source = .ok "[ac]\x7b1,2\x7d|\\^" := by cbv
  obtain ⟨language, regex, hsource, hr, hengine, hmatch⟩ := isMatch_exact h hascii
  obtain rfl := Except.ok.inj (hr.symm.trans hregex)
  refine ⟨h, hascii, language, hsource, hengine, (hmatch _).1 (by cbv), fun hb => ?_, (hmatch _).1 (by cbv)⟩
  exact absurd ((hmatch _).2 hb) (Bool.eq_false_iff.1 (by cbv))

end XmlSchema.Pattern
