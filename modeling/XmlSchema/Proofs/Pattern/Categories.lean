import XmlSchema.Pattern.Escape
import XmlSchema.Proofs.Pattern.CodePointSets

/-!
What the sets of escapes hold. The table of categories gives every run at least one code point and ends with the last
code point, so that all sets made from it are proper.
-/

namespace XmlSchema

namespace Category

def letters : Category → Char × Char
  | lu => ('L', 'u') | ll => ('L', 'l') | lt => ('L', 't') | lm => ('L', 'm') | lo => ('L', 'o')
  | mn => ('M', 'n') | mc => ('M', 'c') | me => ('M', 'e')
  | nd => ('N', 'd') | nl => ('N', 'l') | no => ('N', 'o')
  | pc => ('P', 'c') | pd => ('P', 'd') | ps => ('P', 's') | pe => ('P', 'e') | pi => ('P', 'i') | pf => ('P', 'f')
  | po => ('P', 'o')
  | zs => ('Z', 's') | zl => ('Z', 'l') | zp => ('Z', 'p')
  | sm => ('S', 'm') | sc => ('S', 'c') | sk => ('S', 'k') | so => ('S', 'o')
  | cc => ('C', 'c') | cf => ('C', 'f') | co => ('C', 'o') | cn => ('C', 'n') | cs => ('C', 's')

theorem name_eq (c : Category) : c.name = String.ofList [c.letters.1, c.letters.2] := by
  cases c <;> rfl

theorem mem_all (c : Category) : c ∈ all := by
  cases c <;> decide

/-- Whether what is left of a table is read as runs that each have a category and hold a code point, with the last code
point in the last one. -/
def covers : (start count : Nat) → (letter : Option Char) → List Char → Bool
  | start, _, letter, [] => letter.isNone && start = 0x110000
  | start, count, letter, c :: chars =>
    if c.isDigit then covers start (10 * count + (c.toNat - '0'.toNat)) letter chars
    else match letter with
      | none => covers start count (some c) chars
      | some first =>
        count ≠ 0 && (all.map letters).contains (first, c) && covers (start + count) 0 none chars

theorem le_of_covers {chars : List Char} {start count : Nat} {letter : Option Char}
    (h : covers start count letter chars = true) : start ≤ 0x110000 := by
  induction chars generalizing start count letter with
  | nil =>
      simp only [covers, Bool.and_eq_true, decide_eq_true_eq] at h
      omega
  | cons c chars ih =>
      unfold covers at h
      split at h
      · exact ih h
      · split at h
        · exact ih h
        · simp only [Bool.and_eq_true] at h
          have := ih h.2
          omega

/-- The runs that what is left of a table is read as. -/
def runsIn : (start count : Nat) → (letter : Option Char) → List Char → List (Category × Nat × Nat)
  | _, _, _, [] => []
  | start, count, letter, c :: chars =>
    if c.isDigit then runsIn start (10 * count + (c.toNat - '0'.toNat)) letter chars
    else match letter with
      | none => runsIn start count (some c) chars
      | some first =>
        match all.find? (·.letters = (first, c)) with
        | none => runsIn start count none chars
        | some category => (category, start, start + count - 1) :: runsIn (start + count) 0 none chars

theorem runs_foldl (chars : List Char) (start count : Nat) (letter : Option Char) (runs : List (Category × Nat × Nat)) :
    (chars.foldl Reading.step ⟨start, count, letter, runs⟩).runs =
      (runsIn start count letter chars).reverse ++ runs := by
  induction chars generalizing start count letter runs with
  | nil => rfl
  | cons c chars ih =>
      unfold runsIn
      rw [List.foldl_cons, Reading.step]
      split
      · exact ih ..
      · cases letter with
        | none => exact ih ..
        | some first =>
            have hname : (fun k : Category => decide (k.name = String.ofList [first, c])) =
                fun k => decide (k.letters = (first, c)) := by
              funext k
              simp [name_eq, Prod.ext_iff]
            dsimp only
            rw [hname]
            cases all.find? fun k => decide (k.letters = (first, c)) with
            | none => exact ih ..
            | some k => simp [ih]

theorem runs_eq : runs = runsIn 0 0 none (runTexts.flatMap String.toList) := by
  rw [runs]
  rw [runs_foldl, List.append_nil, List.reverse_reverse]

/-- The runs are ranges of code points. -/
def HasRanges (runs : List (Category × Nat × Nat)) : Prop := ∀ run ∈ runs, run.2.1 ≤ run.2.2 ∧ run.2.2 ≤ 0x10FFFF

theorem hasRanges_runsIn {chars : List Char} {start count : Nat} {letter : Option Char}
    (h : covers start count letter chars = true) : HasRanges (runsIn start count letter chars) := by
  induction chars generalizing start count letter with
  | nil => exact fun _ hrun => absurd hrun List.not_mem_nil
  | cons c chars ih =>
      unfold covers at h
      unfold runsIn
      cases hdigit : c.isDigit with
      | true =>
          rw [hdigit, if_pos rfl] at h
          rw [if_pos rfl]
          exact ih h
      | false =>
          rw [hdigit, if_neg Bool.false_ne_true] at h
          rw [if_neg Bool.false_ne_true]
          cases letter with
          | none => exact ih h
          | some first =>
              simp only [Bool.and_eq_true, decide_eq_true_eq, List.contains_iff_mem, List.mem_map] at h
              obtain ⟨⟨hcount, k, _, hk⟩, hrest⟩ := h
              have hfound : (all.find? fun k => k.letters = (first, c)).isSome = true :=
                List.find?_isSome.2 ⟨k, mem_all k, decide_eq_true hk⟩
              obtain ⟨k', hk'⟩ := Option.isSome_iff_exists.1 hfound
              simp only [hk']
              have hle := le_of_covers hrest
              exact List.forall_mem_cons.2 ⟨by simp only; omega, ih hrest⟩

theorem covers_runTexts : covers 0 0 none (runTexts.flatMap String.toList) = true := by
  rw [runTexts]
  simp only [List.flatMap_cons, List.flatMap_nil]
  repeat rw [String.toList_ofList]
  decide +kernel

theorem hasRanges_runs : HasRanges runs := by
  rw [runs_eq]
  exact hasRanges_runsIn covers_runTexts

/-- The runs at the beginning of the table are those of the texts there. -/
theorem exists_runs_eq (n : Nat) :
    ∃ later, runs = runsIn 0 0 none ((runTexts.take n).flatMap String.toList) ++ later := by
  have happend (chars chars' : List Char) (start count : Nat) (letter : Option Char) :
      ∃ later, runsIn start count letter (chars ++ chars') = runsIn start count letter chars ++ later := by
    induction chars generalizing start count letter with
    | nil => exact ⟨_, rfl⟩
    | cons c chars ih =>
        rw [List.cons_append]
        unfold runsIn
        split
        · exact ih ..
        · cases letter with
          | none => exact ih ..
          | some first =>
              dsimp only
              split
              · exact ih ..
              · obtain ⟨later, hlater⟩ := ih (start + count) 0 none
                exact ⟨later, by rw [hlater, List.cons_append]⟩
  obtain ⟨later, hlater⟩ := happend ((runTexts.take n).flatMap String.toList)
    ((runTexts.drop n).flatMap String.toList) 0 0 none
  refine ⟨later, ?_⟩
  rw [runs_eq, ← hlater, ← List.flatMap_append, List.take_append_drop]

end Category

/-- The code point has a category that `p` holds of. -/
def CodePoint.HasCategory (p : Category → Bool) (c : CodePoint) : Prop :=
  ∃ run ∈ Category.runs, p run.1 = true ∧ run.2.1 ≤ c.val ∧ c.val ≤ run.2.2

namespace Pattern

open CodePointSet

theorem isProper_categorySet (p : Category → Bool) : (categorySet p).IsProper := by
  intro r hr
  obtain ⟨_, hrange, rfl⟩ := List.mem_map.1 hr
  obtain ⟨⟨k, first, last⟩, hrun, h⟩ := List.mem_filterMap.1 hrange
  simp only [Option.ite_none_right_eq_some, Option.some.injEq] at h
  obtain ⟨_, rfl⟩ := h
  exact Category.hasRanges_runs _ hrun

theorem elements_categorySet (p : Category → Bool) : (categorySet p).elements = {c | c.HasCategory p} := by
  ext c
  simp only [elements, Set.mem_ofPred_eq, contains_iff, categorySet, Category.rangesWhere, List.mem_map,
    List.mem_filterMap, CodePoint.HasCategory]
  constructor
  · rintro ⟨_, ⟨_, ⟨⟨k, first, last⟩, hrun, h⟩, rfl⟩, hc⟩
    simp only [Option.ite_none_right_eq_some, Option.some.injEq] at h
    obtain ⟨hp, rfl⟩ := h
    exact ⟨_, hrun, hp, CodePointRange.contains_iff.1 hc⟩
  · rintro ⟨⟨k, first, last⟩, hrun, hp, hc⟩
    exact ⟨⟨first, last⟩, ⟨_, ⟨_, hrun, if_pos hp⟩, rfl⟩, CodePointRange.contains_iff.2 hc⟩

end Pattern

end XmlSchema
