import XmlSchema.Proofs.Pattern.Expressions

/-!
The dialect of common regular expression engines, as far as expressions are written in it. What is written for an
expression stands, in that dialect, for what the expression stands for.
-/

namespace XmlSchema.Pattern

open CodePointSet

namespace Engine

/-- The characters that do not stand for themselves. -/
def marks : Text := ['.', '^', '$', '*', '+', '?', '{', '[', '\\', '|', '(', ')']

/-- The number that digits to the base sixteen denote. -/
def hexNumber (t : Text) : Nat := t.foldl (fun n c => 16 * n + c.hexValue?.getD 0) 0

/-- A code point in a class, as itself or by the eight digits of its number. -/
inductive ClassPoint : Text → CodePoint → Prop
  | alnum {c : CodePoint} (h : c.isAsciiAlnum = true) : ClassPoint [c] c
  | numbered {digits : Text} {c : CodePoint} (hl : digits.length = 8) (h : ∀ d ∈ digits, d.hexValue?.isSome = true)
      (hc : hexNumber digits = c.val) : ClassPoint ('\\' :: 'U' :: digits) c

/-- The members of a class and the set that they make up. -/
inductive ClassMembers : Text → Set CodePoint → Prop
  | nil : ClassMembers [] ∅
  | point {t t' : Text} {c : CodePoint} {s : Set CodePoint} (h : ClassPoint t c) (h' : ClassMembers t' s) :
      ClassMembers (t ++ t') ({c} ∪ s)
  | range {t t' t'' : Text} {lo hi : CodePoint} {s : Set CodePoint} (h : ClassPoint t lo) (h' : ClassPoint t' hi)
      (hle : lo.val ≤ hi.val) (h'' : ClassMembers t'' s) :
      ClassMembers (t ++ ('-' : CodePoint) :: (t' ++ t'')) ({c | lo.val ≤ c.val ∧ c.val ≤ hi.val} ∪ s)

/-- Matches nowhere: it asks that nothing can be read where it stands, and nothing always can be. -/
def nowhere : Text := ['(', '?', '!', ')']

/-- What stands for one code point. -/
inductive Leaf : Text → Set CodePoint → Prop
  | literal {c : CodePoint} (h : c ∉ marks) : Leaf [c] {c}
  | escaped {c : CodePoint} (h : c.isAsciiAlnum = false) : Leaf ['\\', c] {c}
  | never : Leaf nowhere ∅
  | bracketed {t : Text} {s : Set CodePoint} (hne : t ≠ []) (h : ClassMembers t s) :
      Leaf ('[' :: (t ++ [(']' : CodePoint)])) s

variable {t t' rest rest' : Text} {s s' : Set CodePoint} {c c' : CodePoint}

/-! ### Unique reading -/

theorem ClassPoint.head (h : ClassPoint t c) : ∃ d u, t = d :: u ∧ d ≠ ']' ∧ d ≠ '-' := by
  cases h with
  | alnum h =>
      refine ⟨c, [], rfl, ?_, ?_⟩
      · rintro rfl
        exact nomatch h
      · rintro rfl
        exact nomatch h
  | numbered => exact ⟨_, _, rfl, by decide⟩

theorem ClassPoint.unique (h : ClassPoint t c) (h' : ClassPoint t' c') (he : t ++ rest = t' ++ rest') :
    t = t' ∧ c = c' ∧ rest = rest' := by
  cases h with
  | alnum h =>
      cases h' with
      | alnum _ =>
          obtain ⟨rfl, rfl⟩ := List.cons.inj he
          exact ⟨rfl, rfl, rfl⟩
      | numbered =>
          obtain rfl := List.head_eq_of_cons_eq he
          exact nomatch h
  | numbered hl _ hc =>
      cases h' with
      | alnum h' =>
          obtain rfl := List.head_eq_of_cons_eq he
          exact nomatch h'
      | numbered hl' _ hc' =>
          have he := List.tail_eq_of_cons_eq (List.tail_eq_of_cons_eq he)
          obtain ⟨rfl, rfl⟩ := List.append_inj he (hl.trans hl'.symm)
          exact ⟨rfl, CodePoint.ext_val (hc.symm.trans hc'), rfl⟩

theorem ClassMembers.head (h : ClassMembers t s) (hne : t ≠ []) : ∃ d u, t = d :: u ∧ d ≠ ']' ∧ d ≠ '-' := by
  cases h with
  | nil => exact absurd rfl hne
  | point h _ | range h _ _ _ =>
      obtain ⟨d, u, rfl, hd⟩ := h.head
      exact ⟨d, _, rfl, hd⟩

theorem ClassMembers.unique (h : ClassMembers t s) (h' : ClassMembers t' s')
    (he : t ++ (']' : CodePoint) :: rest = t' ++ (']' : CodePoint) :: rest') : t = t' ∧ s = s' := by
  have hhyphen {u v w w' : Text} {r : Set CodePoint} (h : ClassMembers u r) :
      u ++ (']' : CodePoint) :: v ≠ ('-' : CodePoint) :: w ++ w' := by
    intro he
    cases u with
    | nil => exact absurd (List.head_eq_of_cons_eq he) (by decide)
    | cons d u =>
        obtain ⟨_, _, hd, _, hd'⟩ := h.head (List.cons_ne_nil _ _)
        exact hd' ((List.head_eq_of_cons_eq hd).symm.trans (List.head_eq_of_cons_eq he))
  induction h generalizing t' s' with
  | nil =>
      generalize hu : t' = u at h' he
      cases h' with
      | nil => exact ⟨rfl, rfl⟩
      | point h' _ | range h' _ _ _ =>
          obtain ⟨d, u, rfl, hd, -⟩ := h'.head
          exact absurd (List.head_eq_of_cons_eq he).symm hd
  | point h h₂ ih =>
      cases h' with
      | nil =>
          obtain ⟨d, u, rfl, hd, -⟩ := h.head
          exact absurd (List.head_eq_of_cons_eq he) hd
      | point h' h₂' =>
          rw [List.append_assoc, List.append_assoc] at he
          obtain ⟨rfl, rfl, he'⟩ := h.unique h' he
          obtain ⟨rfl, rfl⟩ := ih h₂' he'
          exact ⟨rfl, rfl⟩
      | range h' _ _ _ =>
          rw [List.append_assoc, List.append_assoc] at he
          obtain ⟨rfl, rfl, he'⟩ := h.unique h' he
          exact absurd he' (hhyphen h₂)
  | range h h₂ _ h₃ ih =>
      cases h' with
      | nil =>
          obtain ⟨d, u, rfl, hd, -⟩ := h.head
          exact absurd (List.head_eq_of_cons_eq he) hd
      | point h' h₂' =>
          rw [List.append_assoc, List.append_assoc] at he
          obtain ⟨rfl, rfl, he'⟩ := h.unique h' he
          exact absurd he'.symm (hhyphen h₂')
      | range h' h₂' _ h₃' =>
          rw [List.append_assoc, List.append_assoc] at he
          obtain ⟨rfl, rfl, he'⟩ := h.unique h' he
          simp only [List.cons_append, List.append_assoc, List.cons.injEq, true_and] at he'
          obtain ⟨rfl, rfl, he''⟩ := h₂.unique h₂' he'
          obtain ⟨rfl, rfl⟩ := ih h₃' he''
          exact ⟨rfl, rfl⟩

theorem Leaf.unique (h : Leaf t s) (h' : Leaf t' s') (he : t ++ rest = t' ++ rest') : t = t' ∧ s = s' := by
  have hmark {c d : CodePoint} {u v : Text} (hc : c ∉ marks) (hd : d ∈ marks) : c :: u ≠ d :: v :=
    fun he => hc (List.head_eq_of_cons_eq he ▸ hd)
  cases h with
  | literal h =>
      cases h' with
      | literal h' =>
          obtain ⟨rfl, -⟩ := List.cons.inj he
          exact ⟨rfl, rfl⟩
      | escaped | never | bracketed => exact absurd he (hmark h (by decide))
  | escaped h =>
      cases h' with
      | literal h' => exact absurd he.symm (hmark h' (by decide))
      | escaped h' =>
          obtain ⟨rfl, -⟩ := List.cons.inj (List.tail_eq_of_cons_eq he)
          exact ⟨rfl, rfl⟩
      | never | bracketed => exact absurd (List.head_eq_of_cons_eq he) (by decide)
  | never =>
      cases h' with
      | literal h' => exact absurd he.symm (hmark h' (by decide))
      | never => exact ⟨rfl, rfl⟩
      | escaped | bracketed => exact absurd (List.head_eq_of_cons_eq he) (by decide)
  | bracketed hne h =>
      cases h' with
      | literal h' => exact absurd he.symm (hmark h' (by decide))
      | escaped | never => exact absurd (List.head_eq_of_cons_eq he) (by decide)
      | bracketed _ h' =>
          simp only [List.cons_append, List.append_assoc, List.cons.injEq, true_and] at he
          obtain ⟨rfl, rfl⟩ := h.unique h' he
          exact ⟨rfl, rfl⟩

theorem Leaf.head (h : Leaf t s) :
    ∃ c u, t = c :: u ∧ c ∉ quantifierMarks ∧ c ∉ branchEnds ∧ (c = '(' → t = nowhere) := by
  cases h with
  | @literal c h =>
      refine ⟨c, [], rfl, ?_⟩
      simp only [marks, quantifierMarks, branchEnds, List.mem_cons, List.not_mem_nil] at h ⊢
      tauto
  | never => exact ⟨_, _, rfl, by decide, by decide, fun _ => rfl⟩
  | escaped | bracketed => exact ⟨_, _, rfl, by decide, by decide, fun he => absurd he (by decide)⟩

end Engine

/-- The dialect that expressions are written in. -/
def engineDialect : Dialect where
  opening := ['(', '?', ':']
  Leaf := Engine.Leaf
  opening_head := rfl
  leaf_head h := by
    obtain ⟨c, u, ht, hc, hc', _⟩ := h.head
    exact ⟨c, u, ht, hc, hc'⟩
  leaf_opening h he := by
    obtain ⟨c, u, rfl, _, _, hnever⟩ := h.head
    rw [hnever (List.head_eq_of_cons_eq he)] at he
    exact absurd (Option.some.inj (congrArg (·[2]?) he)) (by decide)
  leaf_unique := Engine.Leaf.unique

namespace Engine

/-! ### Writing -/

theorem hexNumber_concat (t : Text) (c : CodePoint) :
    hexNumber (t ++ [c]) = 16 * hexNumber t + c.hexValue?.getD 0 := by
  simp [hexNumber]

theorem hexValue?_digitChar {n : Nat} (h : n < 16) : (n.digitChar : CodePoint).hexValue? = some n := by
  interval_cases n <;> rfl

theorem hexNumber_toDigits (n : Nat) :
    hexNumber ((Nat.toDigits 16 n).map CodePoint.ofChar) = n ∧
      ∀ d ∈ (Nat.toDigits 16 n).map CodePoint.ofChar, d.hexValue?.isSome = true := by
  induction n using Nat.strongRecOn with
  | ind n ih =>
      by_cases h : n < 16
      · rw [Nat.toDigits_of_lt_base h]
        simp [hexNumber, hexValue?_digitChar h]
      · have hmod : n % 16 < 16 := Nat.mod_lt n (by decide)
        obtain ⟨hvalue, hdigits⟩ := ih (n / 16) (by omega)
        rw [Nat.toDigits_of_base_le (by decide) (Nat.le_of_not_lt h), List.map_append, List.map_singleton]
        refine ⟨?_, ?_⟩
        · rw [hexNumber_concat, hvalue, hexValue?_digitChar hmod, Option.getD_some]
          omega
        · rw [List.forall_mem_append, List.forall_mem_singleton, hexValue?_digitChar hmod]
          exact ⟨hdigits, rfl⟩

theorem hexNumber_zeros (k : Nat) (t : Text) :
    hexNumber ((List.replicate k '0').map CodePoint.ofChar ++ t) = hexNumber t := by
  induction k with
  | zero => rfl
  | succ k ih => exact ih

theorem classPoint_pointText {n : Nat} (h : n ≤ 0x10FFFF) : ClassPoint (pointText n) ⟨n, h⟩ := by
  have hclamp : CodePoint.clamp n = ⟨n, h⟩ := CodePoint.ext_val (Nat.min_eq_left h)
  simp only [pointText, hclamp]
  split
  · next halnum => exact .alnum halnum
  · obtain ⟨hvalue, hdigits⟩ := hexNumber_toDigits n
    have hlength : (Nat.toDigits 16 n).length ≤ 8 :=
      (Nat.length_toDigits_le_iff (by decide) (by decide)).2 (Nat.lt_of_le_of_lt h (by decide))
    change ClassPoint (('\\' : CodePoint) :: ('U' : CodePoint) :: hexDigits n) _
    rw [hexDigits, List.map_append]
    refine .numbered ?_ ?_ ?_
    · simp [hlength]
    · refine List.forall_mem_append.2 ⟨?_, hdigits⟩
      simp only [List.map_replicate, List.mem_replicate]
      rintro d ⟨_, rfl⟩
      rfl
    · rw [hexNumber_zeros, hvalue]

theorem classMembers_flatMap {ranges : CodePointSet} (h : ranges.IsProper) :
    ClassMembers (ranges.flatMap rangeText) ranges.elements := by
  induction ranges with
  | nil =>
      rw [List.flatMap_nil, elements_nil]
      exact .nil
  | cons r ranges ih =>
      obtain ⟨⟨hle, hmax⟩, hranges⟩ := isProper_cons.1 h
      have hlo := classPoint_pointText (Nat.le_trans hle hmax)
      rw [List.flatMap_cons, rangeText, elements_cons]
      split
      · next heq =>
          have hset : {c : CodePoint | r.lo ≤ c.val ∧ c.val ≤ r.hi} = {⟨r.lo, Nat.le_trans hle hmax⟩} := by
            ext c
            rw [Set.mem_ofPred_eq, Set.mem_singleton_iff]
            constructor
            · exact fun hc => CodePoint.ext_val (Nat.le_antisymm (Nat.le_trans hc.2 heq.ge) hc.1)
            · rintro rfl
              exact ⟨Nat.le_refl _, hle⟩
          rw [hset]
          exact .point hlo (ih hranges)
      · rw [List.append_assoc, List.append_assoc]
        exact .range hlo (classPoint_pointText hmax) hle (ih hranges)

theorem rangeText_ne_nil (r : CodePointRange) (h : r.IsProper) : rangeText r ≠ [] := by
  obtain ⟨d, u, hd, -⟩ := (classPoint_pointText (Nat.le_trans h.1 h.2)).head
  rw [rangeText, hd]
  split <;> exact List.cons_ne_nil _ _

theorem denotes_set {p : CodePointSet} (h : p.IsProper) : Denotes engineDialect .atom p.text (single p.elements) := by
  have hproper := h.normalize
  rw [CodePointSet.text, ← elements_normalize]
  generalize p.normalize = ranges at hproper
  cases ranges with
  | nil =>
      rw [elements_nil]
      exact .leaf .never
  | cons r ranges =>
      have hne : (r :: ranges).flatMap rangeText ≠ [] := by
        simp [rangeText_ne_nil r (hproper r List.mem_cons_self)]
      exact .leaf (.bracketed hne (classMembers_flatMap hproper))

theorem denotes_escaped (c : CodePoint) : Denotes engineDialect .atom (escaped c) (single {c}) := by
  have hspecial : ∀ d ∈ special, d.isAsciiAlnum = false := by decide
  have hmarks : ∀ d ∈ marks, d ∈ special := by decide
  rw [escaped]
  split
  · next h => exact .leaf (.escaped (hspecial c (List.contains_iff_mem.1 h)))
  · next h => exact .leaf (.literal fun hc => h (List.contains_iff_mem.2 (hmarks c hc)))

theorem denotes_piecesText {pieces : List Expression}
    (h : ∀ p ∈ pieces, Denotes engineDialect .piece p.text p.language) :
    Denotes engineDialect .branch (piecesText pieces) (languages pieces).prod := by
  induction pieces with
  | nil => exact .empty
  | cons p pieces ih =>
      obtain ⟨hp, hpieces⟩ := List.forall_mem_cons.1 h
      rw [piecesText, languages, List.prod_cons]
      exact .piece hp (ih hpieces)

theorem denotes_alternativesText {branches : List Expression} (hne : branches ≠ [])
    (h : ∀ b ∈ branches, Denotes engineDialect .branch b.text b.language) :
    Denotes engineDialect .branches (alternativesText branches) (languages branches).sum := by
  induction branches with
  | nil => exact absurd rfl hne
  | cons b branches ih =>
      obtain ⟨hb, hbranches⟩ := List.forall_mem_cons.1 h
      cases branches with
      | nil =>
          rw [alternativesText, languages, languages, List.sum_singleton]
          exact .last hb
      | cons b' branches =>
          rw [alternativesText, languages, List.sum_cons, List.append_assoc]
          exact .alternative hb (ih (List.cons_ne_nil _ _) hbranches)

theorem denotes_text {k : Construct} {e : Expression} (h : e.Fits k) : Denotes engineDialect k e.text e.language := by
  induction h with
  | point c => exact denotes_escaped c
  | set h => exact denotes_set h
  | choice hne _ ih =>
      rw [Expression.text, Expression.language]
      exact .group (denotes_alternativesText hne ih)
  | sequence _ ih =>
      rw [Expression.text, Expression.language]
      exact denotes_piecesText ih
  | once _ ih => exact .once ih
  | repeated _ _ hq ih =>
      rw [Expression.text, Expression.language]
      exact .repeated ih hq

end Engine

end XmlSchema.Pattern
