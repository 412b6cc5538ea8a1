import XmlSchema.Proofs.Text.Occurrences
import XmlSchema.Xml.Document

/-!
What stands in front of the first element of a document. A document type declaration is found there exactly if it comes
behind text without markup, whole instructions and whole comments, and nothing else is taken for one.
-/

namespace XmlSchema.Xml

open Text

/-- How instructions and comments begin, and the marks that they end with. -/
inductive IsPassed : (opening closing : Text) → Prop
  | instruction : IsPassed "<?" "?>"
  | comment : IsPassed "<!--" "-->"

/-- Text without markup, instructions and comments, each of which ends with the next of its marks. -/
inductive IsProlog : Text → Prop
  | nil : IsProlog []
  | plain {c : CodePoint} {t : Text} (hc : c ≠ '<') (h : IsProlog t) : IsProlog (c :: t)
  | passed {opening closing inside t : Text} (hp : IsPassed opening closing) (hinside : EndsAtNext closing inside)
      (h : IsProlog t) : IsProlog (opening ++ inside ++ t)

/-- A character of the mark, or the small letter for one of its capitals. -/
def IsCaseOf (c mark : CodePoint) : Prop := c = mark ∨ mark.isAsciiUpper = true ∧ c.val = mark.val + 32

/-- The mark of a document type declaration, each letter in either case. -/
def IsDocumentType (t : Text) : Prop := List.Forall₂ IsCaseOf t documentTypeMark

/-- A document type declaration starts behind a prolog. -/
def Declares (t : Text) : Prop :=
  ∃ prolog mark rest, t = prolog ++ mark ++ rest ∧ IsProlog prolog ∧ IsDocumentType mark

variable {t inside rest opening closing opening' closing' mark : Text} {c : CodePoint}

/-! ### Openings -/

theorem isCaseOf_iff {m : CodePoint} (hm : m.isAsciiLower = false) : IsCaseOf c m ↔ c.toAsciiUpper = m := by
  rw [CodePoint.toAsciiUpper, IsCaseOf]
  simp only [CodePoint.isAsciiLower, CodePoint.isAsciiUpper, Bool.and_eq_true, Bool.and_eq_false_iff,
    decide_eq_true_eq, decide_eq_false_iff_not] at hm ⊢
  have hmax := c.val_le
  split
  · next hc =>
      constructor
      · rintro (rfl | ⟨hupper, hval⟩)
        · omega
        · exact CodePoint.ext_val (by simp only [CodePoint.clamp]; omega)
      · rintro rfl
        simp only [CodePoint.clamp]
        exact .inr (by omega)
  · next hc =>
      refine ⟨fun h => h.resolve_right ?_, .inl⟩
      omega

theorem isDocumentType_iff : IsDocumentType mark ↔ mark.map CodePoint.toAsciiUpper = documentTypeMark := by
  have hmarks : ∀ m ∈ documentTypeMark, m.isAsciiLower = false := by decide
  rw [IsDocumentType]
  generalize documentTypeMark = marks at hmarks
  induction marks generalizing mark with
  | nil => simp
  | cons m marks ih =>
      obtain ⟨hm, hmarks⟩ := List.forall_mem_cons.1 hmarks
      cases mark with
      | nil => simp
      | cons c mark =>
          rw [List.forall₂_cons, List.map_cons, List.cons.injEq]
          exact and_congr (isCaseOf_iff hm) (ih hmarks)

theorem IsDocumentType.eq_cons (h : IsDocumentType mark) : ∃ (d : CodePoint) (u : Text),
    mark = ('<' : CodePoint) :: ('!' : CodePoint) :: d :: u ∧ d ≠ '-' := by
  have hself {a m : CodePoint} (hm : m.isAsciiUpper = false) (ha : IsCaseOf a m) : a = m :=
    ha.resolve_right fun h => Bool.false_ne_true (hm.symm.trans h.1)
  have hmark : documentTypeMark = ['<', '!', 'D', 'O', 'C', 'T', 'Y', 'P', 'E'] := rfl
  rw [IsDocumentType, hmark] at h
  obtain ⟨a, l₁, ha, h₁, rfl⟩ := List.forall₂_cons_right_iff.1 h
  obtain ⟨b, l₂, hb, h₂, rfl⟩ := List.forall₂_cons_right_iff.1 h₁
  obtain ⟨d, l₃, hd, -, rfl⟩ := List.forall₂_cons_right_iff.1 h₂
  obtain rfl := hself rfl ha
  obtain rfl := hself rfl hb
  refine ⟨d, l₃, rfl, ?_⟩
  rintro rfl
  rcases hd with hd | ⟨-, hd⟩
  · exact absurd hd (by decide)
  · exact absurd hd (by decide)

theorem IsPassed.unique {u v : Text} (h : IsPassed opening closing) (h' : IsPassed opening' closing')
    (he : opening ++ u = opening' ++ v) : opening = opening' ∧ closing = closing' := by
  cases h <;> cases h'
  · exact ⟨rfl, rfl⟩
  · exact absurd (List.head_eq_of_cons_eq (List.tail_eq_of_cons_eq he)) (by decide)
  · exact absurd (List.head_eq_of_cons_eq (List.tail_eq_of_cons_eq he)) (by decide)
  · exact ⟨rfl, rfl⟩

theorem IsPassed.ne_plain {u v : Text} (h : IsPassed opening closing) (hc : c ≠ '<') : opening ++ u ≠ c :: v := by
  cases h <;> exact fun he => hc (List.head_eq_of_cons_eq he).symm

theorem IsPassed.ne_documentType {u v : Text} (h : IsPassed opening closing) (hmark : IsDocumentType mark) :
    opening ++ u ≠ mark ++ v := by
  obtain ⟨d, w, rfl, hd⟩ := hmark.eq_cons
  cases h with
  | instruction => exact fun he => absurd (List.head_eq_of_cons_eq (List.tail_eq_of_cons_eq he)) (by decide)
  | comment =>
      intro he
      exact hd (List.head_eq_of_cons_eq (List.tail_eq_of_cons_eq (List.tail_eq_of_cons_eq he))).symm

/-! ### What a declaration stands behind -/

theorem declares_iff : Declares t ↔ (∃ mark rest, t = mark ++ rest ∧ IsDocumentType mark) ∨
    (∃ c u, t = c :: u ∧ c ≠ '<' ∧ Declares u) ∨
    ∃ opening closing inside u, t = opening ++ inside ++ u ∧ IsPassed opening closing ∧ EndsAtNext closing inside ∧
      Declares u := by
  constructor
  · rintro ⟨prolog, mark, rest, rfl, hprolog, hmark⟩
    cases hprolog with
    | nil => exact .inl ⟨mark, rest, rfl, hmark⟩
    | plain hc h => exact .inr (.inl ⟨_, _, rfl, hc, _, mark, rest, rfl, h, hmark⟩)
    | passed hp hinside h =>
        exact .inr (.inr ⟨_, _, _, _, by simp only [List.append_assoc], hp, hinside, _, mark, rest, rfl, h, hmark⟩)
  · rintro (⟨mark, rest, rfl, hmark⟩ | ⟨c, _, rfl, hc, prolog, mark, rest, rfl, h, hmark⟩ |
      ⟨opening, closing, inside, _, rfl, hp, hinside, prolog, mark, rest, rfl, h, hmark⟩)
    · exact ⟨[], mark, rest, rfl, .nil, hmark⟩
    · exact ⟨_, mark, rest, rfl, .plain hc h, hmark⟩
    · exact ⟨_, mark, rest, by simp only [List.append_assoc], .passed hp hinside h, hmark⟩

theorem declares_plain (hc : c ≠ '<') : Declares (c :: t) ↔ Declares t := by
  rw [declares_iff]
  constructor
  · rintro (⟨mark, rest, ht, hmark⟩ | ⟨c, u, ht, _, h⟩ | ⟨opening, closing, inside, u, ht, hp, _, _⟩)
    · obtain ⟨d, w, rfl, _⟩ := hmark.eq_cons
      exact absurd (List.head_eq_of_cons_eq ht) hc
    · exact List.tail_eq_of_cons_eq ht ▸ h
    · rw [List.append_assoc] at ht
      exact absurd ht.symm (hp.ne_plain hc)
  · exact fun h => .inr (.inl ⟨c, t, rfl, hc, h⟩)

theorem declares_passed (hp : IsPassed opening closing) (hinside : EndsAtNext closing inside) :
    Declares (opening ++ inside ++ t) ↔ Declares t := by
  rw [declares_iff]
  constructor
  · rw [List.append_assoc]
    rintro (⟨mark, rest, ht, hmark⟩ | ⟨c, u, ht, hc, h⟩ | ⟨opening', closing', inside', u, ht, hp', hinside', h⟩)
    · exact absurd ht (hp.ne_documentType hmark)
    · exact absurd ht (hp.ne_plain hc)
    · rw [List.append_assoc] at ht
      obtain ⟨rfl, rfl⟩ := hp.unique hp' ht
      obtain ⟨rfl, rfl⟩ := hinside.unique hinside' (List.append_cancel_left ht)
      exact h
  · exact fun h => .inr (.inr ⟨opening, closing, inside, t, rfl, hp, hinside, h⟩)

/-- What does not end hides all that follows. -/
theorem not_declares_unended (hp : IsPassed opening closing) (h : ¬ closing <:+: t) : ¬ Declares (opening ++ t) := by
  rw [declares_iff]
  rintro (⟨mark, rest, ht, hmark⟩ | ⟨c, u, ht, hc, _⟩ | ⟨opening', closing', inside, u, ht, hp', hinside, _⟩)
  · exact hp.ne_documentType hmark ht
  · exact hp.ne_plain hc ht
  · rw [List.append_assoc] at ht
    obtain ⟨rfl, rfl⟩ := hp.unique hp' ht
    rw [List.append_cancel_left ht] at h
    exact h (hinside.1.isInfix.trans (List.prefix_append inside u).isInfix)

theorem declares_prolog (h : IsProlog t) : Declares (t ++ rest) ↔ Declares rest := by
  induction h with
  | nil => rfl
  | plain hc _ ih => rw [List.cons_append, declares_plain hc, ih]
  | passed hp hinside _ ih => rw [List.append_assoc, declares_passed hp hinside, ih]

/-- Behind the beginning of an element nothing is declared. -/
theorem not_declares_element (hc : c ≠ '!') (hc' : c ≠ '?') : ¬ Declares (('<' : CodePoint) :: c :: t) := by
  rw [declares_iff]
  rintro (⟨mark, rest, ht, hmark⟩ | ⟨d, u, ht, hd, _⟩ | ⟨opening, closing, inside, u, ht, hp, _, _⟩)
  · obtain ⟨d, w, rfl, _⟩ := hmark.eq_cons
    exact hc (List.head_eq_of_cons_eq (List.tail_eq_of_cons_eq ht))
  · exact hd (List.head_eq_of_cons_eq ht).symm
  · rw [List.append_assoc] at ht
    cases hp with
    | instruction => exact hc' (List.head_eq_of_cons_eq (List.tail_eq_of_cons_eq ht))
    | comment => exact hc (List.head_eq_of_cons_eq (List.tail_eq_of_cons_eq ht))

theorem declares_markup (hpassed : ∀ opening closing, IsPassed opening closing → ¬ opening <+: t)
    (hhead : ∀ c ∈ t.head?, c = '<') :
    Declares t ↔ (t.take documentTypeMark.length).map CodePoint.toAsciiUpper = documentTypeMark := by
  rw [declares_iff, ← isDocumentType_iff]
  constructor
  · rintro (⟨mark, rest, rfl, hmark⟩ | ⟨c, u, rfl, hc, _⟩ | ⟨opening, closing, inside, u, rfl, hp, _, _⟩)
    · rwa [← List.Forall₂.length_eq hmark, List.take_left]
    · exact absurd (hhead c rfl) hc
    · exact absurd ⟨inside ++ u, (List.append_assoc ..).symm⟩ (hpassed _ _ hp)
  · exact fun h => .inl ⟨_, _, (List.take_append_drop documentTypeMark.length t).symm, h⟩

/-! ### The scan -/

theorem passed?_eq_none : passed? opening closing t = none ↔ ¬ opening <+: t := by
  rw [passed?, Option.map_eq_none_iff, dropPrefix?_eq_none]

theorem passed?_eq_some_none : passed? opening closing t = some none ↔
    ∃ u, t = opening ++ u ∧ ¬ closing <:+: u := by
  rw [passed?]
  simp only [Option.map_eq_some_iff, Option.map_eq_none_iff, dropPrefix?_eq_some, splitAt?_eq_none]

theorem passed?_eq_some_some {next : Text} (h : passed? opening closing t = some (some next)) :
    ∃ inside after, t = opening ++ inside ++ after ∧ EndsAtNext closing inside ∧ next = closing.drop 2 ++ after := by
  simp only [passed?, Option.map_eq_some_iff, dropPrefix?_eq_some] at h
  obtain ⟨_, rfl, ⟨before, after⟩, hsplit, rfl⟩ := h
  obtain ⟨rfl, hends⟩ := splitAt?_eq_some_iff.1 hsplit
  exact ⟨before ++ closing, after, (List.append_assoc ..).symm, hends, rfl⟩

/-- The scan goes on with the last character of a comment, which opens no markup. -/
theorem declares_next {next : Text} (hp : IsPassed opening closing) (h : passed? opening closing t = some (some next)) :
    Declares t ↔ Declares next := by
  obtain ⟨inside, after, rfl, hinside, rfl⟩ := passed?_eq_some_some h
  rw [declares_passed hp hinside]
  cases hp with
  | instruction => rfl
  | comment => exact (declares_plain (by decide)).symm

theorem declares_fromMarkup (t : Text) : Declares (fromMarkup t) ↔ Declares t := by
  induction t with
  | nil => rfl
  | cons c t ih =>
      by_cases hc : c = '<'
      · rw [fromMarkup, List.dropWhile_cons_of_neg (by simp [hc]; decide)]
      · rw [fromMarkup, List.dropWhile_cons_of_pos ?_, ← fromMarkup, ih, declares_plain hc]
        exact decide_eq_true fun hval => hc (CodePoint.ext_val hval)

theorem head_fromMarkup (t : Text) : ∀ c ∈ (fromMarkup t).head?, c = '<' := by
  intro c hc
  have hstop := List.head?_dropWhile_not (fun c : CodePoint => decide (c.val ≠ 0x3C)) t
  rw [← fromMarkup, hc] at hstop
  simp only [ne_eq, decide_not, Bool.not_eq_eq_eq_not, Bool.not_false, decide_eq_true_eq] at hstop
  exact CodePoint.ext_val hstop

theorem declaresType_iff (t : Text) : declaresType t = true ↔ Declares t := by
  rw [← declares_fromMarkup]
  fun_induction declaresType t with
  | case1 t next hi ih => rw [declares_next .instruction hi, ← declares_fromMarkup, ih]
  | case2 t hi =>
      obtain ⟨u, hu, hclosing⟩ := passed?_eq_some_none.1 hi
      exact iff_of_false Bool.false_ne_true (hu ▸ not_declares_unended .instruction hclosing)
  | case3 t hi next hc ih => rw [declares_next .comment hc, ← declares_fromMarkup, ih]
  | case4 t hi hc =>
      obtain ⟨u, hu, hclosing⟩ := passed?_eq_some_none.1 hc
      exact iff_of_false Bool.false_ne_true (hu ▸ not_declares_unended .comment hclosing)
  | case5 t hi hc =>
      rw [decide_eq_true_iff, declares_markup ?_ (head_fromMarkup t)]
      rintro opening closing (_ | _)
      · exact passed?_eq_none.1 hi
      · exact passed?_eq_none.1 hc

theorem load_eq_documentType_iff (limits : Limits) (t : Text) :
    load limits t = .error .documentType ↔ (t.length : Int) ≤ limits.maxSize ∧ declaresType t = true := by
  rw [load, ← Int.not_lt]
  by_cases hsize : limits.maxSize < (t.length : Int)
  · simp [hsize, throw, throwThe, MonadExceptOf.throw, bind, Except.bind]
  by_cases hdeclares : declaresType t = true
  · simp [hsize, hdeclares, throw, throwThe, MonadExceptOf.throw, bind, Except.bind]
  -- what is left to fail is Unicode, the markup and the number of nodes
  refine iff_of_false (fun h => ?_) fun h => hdeclares h.2
  simp only [if_neg hsize, if_neg hdeclares, throw, throwThe, MonadExceptOf.throw, bind, Except.bind, pure, Except.pure]
    at h
  split at h
  · exact nomatch h
  split at h
  · exact nomatch h
  · split at h <;> exact nomatch h

/-- A document type declaration is found exactly where one stands behind a prolog, and a text within the limit of size
is refused for one, whatever else may be wrong with it, exactly if one is found; so never for what stands in a comment
or an instruction of the prolog, or behind the beginning of the first element. -/
theorem prolog_scanned (t : Text) : (declaresType t = true ↔ Declares t) ∧ ∀ limits : Limits,
    (load limits t = .error .documentType ↔ (t.length : Int) ≤ limits.maxSize ∧ Declares t) ∧
    ∀ (prolog rest : Text) (c : CodePoint), t = prolog ++ ('<' : CodePoint) :: c :: rest → IsProlog prolog →
      c ≠ '!' → c ≠ '?' → load limits t ≠ .error .documentType := by
  refine ⟨declaresType_iff t, fun limits => ?_⟩
  have hload := load_eq_documentType_iff limits t
  rw [declaresType_iff] at hload
  refine ⟨hload, ?_⟩
  rintro prolog rest c rfl hprolog hc hc' h
  exact not_declares_element hc hc' ((declares_prolog hprolog).1 (hload.1 h).2)

/-- An instruction, and a comment that holds a declaration. -/
def commentedOut : Text := "<?xml version='1.0'?><!-- <!DOCTYPE r> -->"

theorem prolog_scanned_commentedOut : IsProlog commentedOut ∧
    load {} (commentedOut ++ "<r><![CDATA[<!DOCTYPE r>]]></r>") ≠ .error .documentType ∧
    load {} (commentedOut ++ "<!docType r><r/>") = .error .documentType := by
  have hinstruction : splitAt? "?>" "xml version='1.0'?>" = some (ofString "xml version='1.0'", []) := by decide
  have hcomment : splitAt? "-->" " <!DOCTYPE r> -->" = some (ofString " <!DOCTYPE r> ", []) := by decide
  have hprolog : IsProlog commentedOut :=
    .passed .instruction (splitAt?_eq_some_iff.1 hinstruction).2
      (.passed .comment (splitAt?_eq_some_iff.1 hcomment).2 .nil)
  have hmark : IsDocumentType "<!docType" := isDocumentType_iff.2 (by decide)
  refine ⟨hprolog, ?_, ?_⟩
  · exact ((prolog_scanned _).2 {}).2 commentedOut "><![CDATA[<!DOCTYPE r>]]></r>" 'r' rfl hprolog (by decide)
      (by decide)
  · exact ((prolog_scanned _).2 {}).1.2 ⟨by decide, commentedOut, "<!docType", " r><r/>", rfl, hprolog, hmark⟩

end XmlSchema.Xml
