import Mathlib.Data.List.Nodup
import XmlSchema.Proofs.Validation.Visits
import XmlSchema.Proofs.Value.QualifiedNames

/-!
The paths of the children of one element. They show local names, while children are counted by their full names: so two
children of one local name in different namespaces have the same path if neither has a number, or both have the same.
All other children are told apart, with everything below them.
-/

namespace XmlSchema

/-! ### Written numbers -/

namespace Text

theorem ofChar_injective : Function.Injective CodePoint.ofChar := fun _ _ h =>
  Char.ext (UInt32.toNat_inj.1 (congrArg CodePoint.val h))

theorem ofNat_injective : Function.Injective ofNat := by
  intro m n h
  have hdigits : Nat.toDigits 10 m = Nat.toDigits 10 n := List.map_injective_iff.2 ofChar_injective h
  rw [← Nat.ofDigitChars_ten_toDigits (n := m), hdigits, Nat.ofDigitChars_ten_toDigits]

theorem notMem_ofNat {c : Char} (h : c.isDigit = false) (n : Nat) : CodePoint.ofChar c ∉ ofNat n := by
  intro hmem
  obtain ⟨d, hd, he⟩ := List.mem_map.1 hmem
  have hdigit : d.isDigit = true := Nat.isDigit_of_mem_toDigits (by decide) (by decide) hd
  rw [ofChar_injective he, h] at hdigit
  exact nomatch hdigit

end Text

namespace Validation

/-! ### Counts of names -/

theorem countOf_cons (other : Name) (k : Nat) (c : List (Name × Nat)) (n : Name) :
    countOf ((other, k) :: c) n = if other = n then k else countOf c n := by
  rw [countOf, countOf, List.lookup_cons]
  by_cases h : n = other
  · simp [h]
  · simp [beq_false_of_ne h, Ne.symm h]

theorem countOf_countOne (c : List (Name × Nat)) (n m : Name) :
    countOf (countOne c n) m = countOf c m + if n = m then 1 else 0 := by
  induction c with
  | nil => rw [countOne, countOf_cons]; simp [countOf]
  | cons entry c ih =>
      obtain ⟨other, k⟩ := entry
      rw [countOne, countOf_cons]
      by_cases hn : other = n
      · rw [if_pos hn, countOf_cons, hn]
        split <;> rfl
      · rw [if_neg hn, countOf_cons, ih]
        by_cases hm : other = m
        · rw [if_pos hm, if_pos hm, if_neg fun h => hn (hm.trans h.symm), Nat.add_zero]
        · rw [if_neg hm, if_neg hm]

theorem countOf_counts (names : List Name) (n : Name) : countOf (counts names) n = names.count n := by
  have hfold (c : List (Name × Nat)) : countOf (names.foldl countOne c) n = countOf c n + names.count n := by
    induction names generalizing c with
    | nil => simp
    | cons m names ih =>
        rw [List.foldl_cons, ih, countOf_countOne, List.count_cons, Nat.add_assoc, Nat.add_comm (names.count n)]
        simp
  rw [counts, hfold]
  exact Nat.zero_add _

/-! ### Paths of children -/

theorem fst_childPathsFrom (path : Text) (total : List (Name × Nat)) (names : List Name) :
    (childPathsFrom path total names).1 = counts names := by
  induction names using List.reverseRecOn with
  | nil => rfl
  | append_singleton names n ih =>
      rw [childPathsFrom, List.foldl_concat, ← childPathsFrom, counts, List.foldl_concat, ← counts, ← ih]

theorem getElem?_childPathsFrom (path : Text) (total : List (Name × Nat)) (names : List Name) (i : Nat) :
    (childPathsFrom path total names).2.reverse[i]? =
      names[i]?.map (childPath path total (counts (names.take (i + 1)))) := by
  induction names using List.reverseRecOn with
  | nil => rfl
  | append_singleton names n ih =>
      have hlength : (childPathsFrom path total names).2.reverse.length = names.length := by
        rw [List.length_reverse, childPathsFrom, length_foldl_snd fun _ _ => rfl, List.length_nil, Nat.zero_add]
      have hlast : (childPathsFrom path total (names ++ [n])).2.reverse =
          (childPathsFrom path total names).2.reverse ++ [childPath path total (counts (names ++ [n])) n] := by
        rw [← fst_childPathsFrom path total, childPathsFrom, List.foldl_concat, ← childPathsFrom, List.reverse_cons]
      rw [hlast, List.getElem?_append, List.getElem?_append, hlength]
      split
      · next hi => rw [ih, List.take_append_of_le_length hi]
      · next hi =>
          by_cases he : i = names.length
          · have htake : (names ++ [n]).take (i + 1) = names ++ [n] := List.take_of_length_le (by simp [he])
            rw [htake, he, Nat.sub_self]
            rfl
          · rw [List.getElem?_eq_none, List.getElem?_eq_none] <;> simp <;> omega

/-- The number of a child among those of its name, if there are several. -/
def ordinal? (names : List Name) (i : Nat) : Option Nat :=
  names[i]?.bind fun n => if 1 < names.count n then some ((names.take (i + 1)).count n) else none

def ordinalText : Option Nat → Text
  | some k => "[" ++ Text.ofNat k ++ "]"
  | none => []

/-- What the path of a child adds to that of its parent. -/
def segment (n : Name) (ordinal : Option Nat) : Text := n.localPart ++ ordinalText ordinal

theorem getElem?_childPaths (path : Text) (names : List Name) (i : Nat) :
    (childPaths path names)[i]? = names[i]?.map fun n => path ++ "/" ++ segment n (ordinal? names i) := by
  rw [childPaths, getElem?_childPathsFrom, ordinal?]
  cases names[i]? with
  | none => rfl
  | some n =>
      rw [Option.map_some, Option.map_some, Option.bind_some, childPath, countOf_counts, countOf_counts, segment]
      split <;> simp [ordinalText]

example : childPaths "/box" [⟨"u", "lid"⟩, ⟨"u", "tag"⟩, ⟨"u", "lid"⟩] =
    ["/box/lid[1]", "/box/tag", "/box/lid[2]"] := by cbv

/-- A local part that can stand in a path: it has neither the mark between steps nor the one before numbers. -/
def IsPlain (t : Text) : Prop := CodePoint.ofChar '/' ∉ t ∧ CodePoint.ofChar '[' ∉ t

theorem isPlain_of_isNCName {t : Text} (h : IsNCName t) : IsPlain t := by
  obtain ⟨c, rest, rfl, hstart, hfollow, _⟩ := h
  have hmark (mark : Char) (hs : NameCharacter.isStart (CodePoint.ofChar mark) = false)
      (hf : NameCharacter.isFollow (CodePoint.ofChar mark) = false) : CodePoint.ofChar mark ∉ c :: rest := by
    intro hmem
    rcases List.mem_cons.1 hmem with rfl | hmem
    · exact nomatch hs.symm.trans hstart
    · exact nomatch hf.symm.trans (hfollow _ hmem)
  exact ⟨hmark '/' (by decide +kernel) (by cbv), hmark '[' (by decide +kernel) (by cbv)⟩

variable {n m : Name} {o o' : Option Nat}

theorem slash_notMem_segment (h : IsPlain n.localPart) (o : Option Nat) : CodePoint.ofChar '/' ∉ segment n o := by
  have hordinal : CodePoint.ofChar '/' ∉ ordinalText o := by
    cases o with
    | none => exact List.not_mem_nil
    | some k =>
        have hdigits := Text.notMem_ofNat (c := '/') rfl k
        have hmarks : CodePoint.ofChar '/' ∉ Text.ofString "[" ∧ CodePoint.ofChar '/' ∉ Text.ofString "]" := by decide
        rw [ordinalText, List.mem_append, List.mem_append]
        tauto
  rw [segment, List.mem_append, not_or]
  exact ⟨h.1, hordinal⟩

theorem ordinalText_none : ordinalText none = [] := rfl

theorem ordinalText_some (k : Nat) :
    ordinalText (some k) = CodePoint.ofChar '[' :: (Text.ofNat k ++ [CodePoint.ofChar ']']) := rfl

/-- The step to a child tells its local name and its number. -/
theorem segment_inj (hn : IsPlain n.localPart) (hm : IsPlain m.localPart) :
    segment n o = segment m o' ↔ n.localPart = m.localPart ∧ o = o' := by
  refine ⟨fun h => ?_, fun ⟨hlocal, ho⟩ => by rw [segment, segment, hlocal, ho]⟩
  rw [segment, segment] at h
  cases o with
  | none =>
      cases o' with
      | none => exact ⟨List.append_cancel_right h, rfl⟩
      | some k' =>
          rw [ordinalText_none, List.append_nil, ordinalText_some] at h
          exact absurd (h ▸ List.mem_append_right _ List.mem_cons_self) hn.2
  | some k =>
      cases o' with
      | none =>
          rw [ordinalText_some, ordinalText_none, List.append_nil] at h
          exact absurd (h ▸ List.mem_append_right _ List.mem_cons_self) hm.2
      | some k' =>
          rw [ordinalText_some, ordinalText_some] at h
          obtain ⟨hlocal, hdigits⟩ := Text.eq_of_append_cons hn.2 hm.2 h
          exact ⟨hlocal, congrArg some (Text.ofNat_injective (List.append_cancel_right hdigits))⟩

/-- `path` leads to the place to which `base` leads, or to something below it. -/
def IsUnder (base path : Text) : Prop := base ++ [CodePoint.ofChar '/'] <+: path ++ [CodePoint.ofChar '/']

theorem IsUnder.refl (base : Text) : IsUnder base base := List.prefix_refl _

theorem IsUnder.trans {base middle path : Text} (h : IsUnder base middle) (h' : IsUnder middle path) :
    IsUnder base path := List.IsPrefix.trans h h'

theorem isUnder_step (base step : Text) : IsUnder base (base ++ "/" ++ step) := by
  rw [IsUnder, List.append_assoc _ step]
  exact List.prefix_append _ _

theorem not_isUnder_step (base step : Text) : ¬ IsUnder (base ++ "/" ++ step) base := by
  intro h
  have hlength := h.length_le
  simp [Text.ofString] at hlength

/-- Below the children of one parent, what a path goes on with tells the child. -/
theorem step_eq_of_isUnder {base step step' path : Text} (hs : CodePoint.ofChar '/' ∉ step)
    (hs' : CodePoint.ofChar '/' ∉ step') (h : IsUnder (base ++ "/" ++ step) path)
    (h' : IsUnder (base ++ "/" ++ step') path) : step = step' := by
  obtain ⟨rest, hrest⟩ := h
  obtain ⟨rest', hrest'⟩ := h'
  have hsteps := hrest.trans hrest'.symm
  simp only [List.append_assoc] at hsteps
  have hsteps := List.append_cancel_left (List.append_cancel_left hsteps)
  exact (Text.eq_of_append_cons hs hs' hsteps).1

/-- Two children of one local name in different namespaces, of which neither has a number, or both have the same. -/
def Confused (names : List Name) (i j : Nat) : Prop :=
  ∃ n m, names[i]? = some n ∧ names[j]? = some m ∧ n.uri ≠ m.uri ∧ n.localPart = m.localPart ∧
    ordinal? names i = ordinal? names j

variable {names : List Name} {path p q : Text} {i j : Nat}

theorem count_take_succ (hi : names[i]? = some n) : (names.take (i + 1)).count n = (names.take i).count n + 1 := by
  rw [List.take_add_one, hi, List.count_append, Option.toList_some, List.count_singleton_self]

/-- Children of one name have different numbers. -/
theorem ordinal_ne (hi : names[i]? = some n) (hj : names[j]? = some n) (hne : i ≠ j) :
    ordinal? names i ≠ ordinal? names j := by
  wlog hij : i < j generalizing i j
  · exact (this hj hi hne.symm (by omega)).symm
  have hi' := count_take_succ hi
  have hj' := count_take_succ hj
  have hbefore : (names.take (i + 1)).count n ≤ (names.take j).count n := (List.take_sublist_take_left hij).count_le n
  have hall : (names.take (j + 1)).count n ≤ names.count n := (List.take_sublist _ _).count_le n
  rw [ordinal?, ordinal?, hi, hj, Option.bind_some, Option.bind_some, if_pos (by omega), if_pos (by omega), Ne,
    Option.some.injEq]
  omega

theorem Confused.symm (h : Confused names i j) : Confused names j i := by
  obtain ⟨n, m, hi, hj, huri, hlocal, hordinal⟩ := h
  exact ⟨m, n, hj, hi, huri.symm, hlocal.symm, hordinal.symm⟩

theorem Confused.ne (h : Confused names i j) : i ≠ j := by
  obtain ⟨n, m, hi, hj, huri, _⟩ := h
  rintro rfl
  exact huri (congrArg Name.uri (Option.some.inj (hi.symm.trans hj)))

theorem Confused.eq (h : Confused names i j) : (childPaths path names)[i]? = (childPaths path names)[j]? := by
  obtain ⟨n, m, hi, hj, _, hlocal, hordinal⟩ := h
  rw [getElem?_childPaths, getElem?_childPaths, hi, hj, Option.map_some, Option.map_some, segment, segment, hlocal,
    hordinal]

/-- Something is below both of two children exactly if they are confused. -/
theorem exists_isUnder_iff (hnames : ∀ n ∈ names, IsPlain n.localPart) (hp : (childPaths path names)[i]? = some p)
    (hq : (childPaths path names)[j]? = some q) (hne : i ≠ j) :
    (∃ t, IsUnder p t ∧ IsUnder q t) ↔ Confused names i j := by
  constructor
  · rw [getElem?_childPaths, Option.map_eq_some_iff] at hp hq
    obtain ⟨n, hi, rfl⟩ := hp
    obtain ⟨m, hj, rfl⟩ := hq
    have hn := hnames n (List.mem_of_getElem? hi)
    have hm := hnames m (List.mem_of_getElem? hj)
    rintro ⟨t, hp, hq⟩
    have hstep := step_eq_of_isUnder (slash_notMem_segment hn _) (slash_notMem_segment hm _) hp hq
    obtain ⟨hlocal, hordinal⟩ := (segment_inj hn hm).1 hstep
    refine ⟨n, m, hi, hj, fun huri => ?_, hlocal, hordinal⟩
    obtain rfl : n = m := by
      cases n
      cases m
      exact congrArg₂ Name.mk huri hlocal
    exact ordinal_ne hi hj hne hordinal
  · intro h
    obtain rfl : p = q := Option.some.inj (hp.symm.trans (h.eq.trans hq))
    exact ⟨p, .refl p, .refl p⟩

end Validation

end XmlSchema
