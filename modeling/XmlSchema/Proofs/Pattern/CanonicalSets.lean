import XmlSchema.Proofs.Pattern.Writing

/-!
The canonical form of a set of code points: proper ranges in ascending order with a gap between any two. Each set has
one, joining, complement and subtraction give it, and the class that is written for a list of ranges tells the set.
-/

namespace XmlSchema

namespace CodePointSet

/-- Ascending ranges of code points that neither overlap nor touch. -/
structure IsCanonical (s : CodePointSet) : Prop where
  proper : s.IsProper
  apart : s.IsApart

variable {s t : CodePointSet} {r b : CodePointRange} {n : Nat}

theorem isApart_cons : IsApart (r :: s) ↔ (∀ b ∈ s, r.hi + 1 < b.lo) ∧ s.IsApart := List.pairwise_cons

theorem isCanonical_cons : IsCanonical (r :: s) ↔ r.IsProper ∧ (∀ b ∈ s, r.hi + 1 < b.lo) ∧ s.IsCanonical := by
  constructor
  · rintro ⟨hproper, hapart⟩
    obtain ⟨hr, hs⟩ := isProper_cons.1 hproper
    obtain ⟨hgap, hapart⟩ := isApart_cons.1 hapart
    exact ⟨hr, hgap, hs, hapart⟩
  · rintro ⟨hr, hgap, hs⟩
    exact ⟨isProper_cons.2 ⟨hr, hs.proper⟩, isApart_cons.2 ⟨hgap, hs.apart⟩⟩

/-! ### One list for each set -/

theorem contains_eq_iff (hs : s.IsProper) (ht : t.IsProper) :
    (∀ n, s.contains n = t.contains n) ↔ s.elements = t.elements := by
  have hmax {u : CodePointSet} (hu : u.IsProper) {n : Nat} (h : u.contains n = true) : n ≤ 0x10FFFF := by
    obtain ⟨r, hr, hn⟩ := contains_iff.1 h
    exact Nat.le_trans (CodePointRange.contains_iff.1 hn).2 (hu r hr).2
  constructor
  · intro h
    ext c
    simp [elements, h]
  · intro h n
    have helements := Set.ext_iff.1 h
    rw [Bool.eq_iff_iff]
    constructor
    · intro hn
      exact (helements ⟨n, hmax hs hn⟩).1 hn
    · intro hn
      exact (helements ⟨n, hmax ht hn⟩).2 hn

/-- Behind the first range there is a gap, so what comes first in a canonical list ends with the first range. -/
theorem IsCanonical.not_contains_succ (h : IsCanonical (r :: s)) :
    CodePointSet.contains (r :: s) (r.hi + 1) = false := by
  obtain ⟨_, hgap, _⟩ := isCanonical_cons.1 h
  rw [← Bool.not_eq_true, contains_iff]
  rintro ⟨b, hb, hn⟩
  rw [CodePointRange.contains_iff] at hn
  rcases List.mem_cons.1 hb with rfl | hb
  · omega
  · have := hgap b hb
    omega

theorem IsCanonical.first_le (h : IsCanonical (r :: s)) (hn : CodePointSet.contains (r :: s) n = true) : r.lo ≤ n := by
  obtain ⟨⟨hle, _⟩, hgap, _⟩ := isCanonical_cons.1 h
  obtain ⟨b, hb, hn⟩ := contains_iff.1 hn
  have hlo := (CodePointRange.contains_iff.1 hn).1
  rcases List.mem_cons.1 hb with rfl | hb
  · exact hlo
  · have := hgap b hb
    omega

theorem contains_first (h : r.lo ≤ n) (h' : n ≤ r.hi) : CodePointSet.contains (r :: s) n = true := by
  rw [contains_cons, CodePointRange.contains_iff.2 ⟨h, h'⟩, Bool.true_or]

theorem IsCanonical.contains_lo (h : IsCanonical (r :: s)) : CodePointSet.contains (r :: s) r.lo = true :=
  contains_first (Nat.le_refl _) (isCanonical_cons.1 h).1.1

/-- The first range of a list is told by the set: it starts with its first number and ends before the first gap. -/
theorem IsCanonical.first_le_first (hs : IsCanonical (r :: s)) (ht : IsCanonical (b :: t))
    (h : ∀ n, CodePointSet.contains (r :: s) n = CodePointSet.contains (b :: t) n) : r.lo ≤ b.lo ∧ b.hi ≤ r.hi := by
  have hlo : b.lo ≤ r.lo := ht.first_le (h r.lo ▸ hs.contains_lo)
  refine ⟨hs.first_le (h b.lo ▸ ht.contains_lo), Nat.le_of_not_lt fun hlt => ?_⟩
  have hle := (isCanonical_cons.1 hs).1.1
  have hgap := hs.not_contains_succ
  rw [h, contains_first (by omega) hlt] at hgap
  exact Bool.noConfusion hgap

theorem IsCanonical.contains_tail (h : IsCanonical (r :: s)) :
    s.contains n = (CodePointSet.contains (r :: s) n && decide (r.hi < n)) := by
  obtain ⟨⟨hle, _⟩, hgap, _⟩ := isCanonical_cons.1 h
  rw [Bool.eq_iff_iff, Bool.and_eq_true, decide_eq_true_iff, contains_cons, Bool.or_eq_true]
  constructor
  · intro hn
    obtain ⟨b, hb, hn'⟩ := contains_iff.1 hn
    have := hgap b hb
    have := (CodePointRange.contains_iff.1 hn').1
    exact ⟨.inr hn, by omega⟩
  · rintro ⟨hn | hn, hlt⟩
    · have := (CodePointRange.contains_iff.1 hn).2
      omega
    · exact hn

/-- A set has one canonical list. -/
theorem IsCanonical.unique (hs : s.IsCanonical) (ht : t.IsCanonical) (h : ∀ n, s.contains n = t.contains n) :
    s = t := by
  induction s generalizing t with
  | nil =>
      cases t with
      | nil => rfl
      | cons b t => exact Bool.noConfusion ((h b.lo).trans ht.contains_lo)
  | cons r s ih =>
      cases t with
      | nil => exact Bool.noConfusion (hs.contains_lo.symm.trans (h r.lo))
      | cons b t =>
          obtain ⟨hlo, hhi⟩ := hs.first_le_first ht h
          obtain ⟨hlo', hhi'⟩ := ht.first_le_first hs fun n => (h n).symm
          obtain rfl : r = b := by
            cases r
            cases b
            simp only [CodePointRange.mk.injEq]
            exact ⟨Nat.le_antisymm hlo hlo', Nat.le_antisymm hhi' hhi⟩
          congr 1
          refine ih (isCanonical_cons.1 hs).2.2 (isCanonical_cons.1 ht).2.2 fun n => ?_
          rw [hs.contains_tail, ht.contains_tail, h]

/-! ### Joining, complement and subtraction -/

theorem IsProper.isCanonical_normalize (h : s.IsProper) : s.normalize.IsCanonical := ⟨h.normalize, isApart_normalize s⟩

theorem isApart_gaps {start : Nat} (hs : s.IsCanonical) (hstart : ∀ r ∈ s, start ≤ r.lo) : (gaps start s).IsApart := by
  induction s generalizing start with
  | nil =>
      rw [gaps]
      split
      · exact List.pairwise_singleton _ _
      · exact .nil
  | cons r s ih =>
      obtain ⟨⟨hle, _⟩, hgap, hrest⟩ := isCanonical_cons.1 hs
      have hbehind : ∀ b ∈ s, r.hi + 1 ≤ b.lo := fun b hb => Nat.le_of_lt (hgap b hb)
      rw [gaps]
      split
      · refine isApart_cons.2 ⟨fun g hg => ?_, ih hrest hbehind⟩
        have := (ascending_gaps hrest.proper hrest.apart hbehind).2 g hg
        simp only
        omega
      · exact ih hrest hbehind

theorem IsProper.isCanonical_complement (h : s.IsProper) : s.complement.IsCanonical :=
  ⟨h.complement, isApart_gaps h.isCanonical_normalize fun _ _ => Nat.zero_le _⟩

/-- What is left of a range lies within it. -/
theorem within_of_mem_clip {keep : CodePointSet} (h : b ∈ clip r keep) : r.lo ≤ b.lo ∧ b.hi ≤ r.hi := by
  obtain ⟨k, _, hk⟩ := List.mem_filterMap.1 h
  split at hk
  · cases hk
    exact ⟨Nat.le_max_left _ _, Nat.min_le_left _ _⟩
  · exact nomatch hk

theorem isApart_clip {keep : CodePointSet} (h : keep.IsApart) : (clip r keep).IsApart := by
  refine List.Pairwise.filterMap _ ?_ (h.sublist (List.takeWhile_sublist _))
  intro k k' hgap b hb b' hb'
  split at hb
  · split at hb'
    · cases hb
      cases hb'
      simp only
      omega
    · exact nomatch hb'
  · exact nomatch hb

theorem isApart_flatMap_clip {keep : CodePointSet} (hs : s.IsApart) (hkeep : keep.IsApart) :
    IsApart (s.flatMap (clip · keep)) := by
  induction s with
  | nil => exact .nil
  | cons r s ih =>
      obtain ⟨hgap, hrest⟩ := isApart_cons.1 hs
      rw [List.flatMap_cons]
      refine List.pairwise_append.2 ⟨isApart_clip hkeep, ih hrest, fun b hb b' hb' => ?_⟩
      obtain ⟨r', hr', hb'⟩ := List.mem_flatMap.1 hb'
      have := hgap r' hr'
      have := (within_of_mem_clip hb).2
      have := (within_of_mem_clip hb').1
      omega

theorem IsProper.isCanonical_subtract (hs : s.IsProper) (ht : t.IsProper) : (s.subtract t).IsCanonical :=
  ⟨hs.subtract ht, isApart_flatMap_clip (isApart_normalize s) ht.isCanonical_complement.apart⟩

theorem normalize_eq_iff (hs : s.IsProper) (ht : t.IsProper) : s.normalize = t.normalize ↔ s.elements = t.elements := by
  constructor
  · intro h
    rw [← elements_normalize, h, elements_normalize]
  · intro h
    have hcontains := (contains_eq_iff hs ht).2 h
    exact hs.isCanonical_normalize.unique ht.isCanonical_normalize fun n => by simp [hcontains]

/-! ### Classes as they are written -/

theorem single_injective {a b : Set CodePoint} (h : Pattern.single a = Pattern.single b) : a = b := by
  have hmem (a : Set CodePoint) (c : CodePoint) : [c] ∈ Pattern.single a ↔ c ∈ a := by
    change (∃ d ∈ a, [c] = [d]) ↔ c ∈ a
    simp
  ext c
  rw [← hmem a, h, hmem]

/-- A class is read in one way, so two sets that are written alike are the same. -/
theorem text_eq_iff (hs : s.IsProper) (ht : t.IsProper) : s.text = t.text ↔ s.elements = t.elements := by
  constructor
  · intro h
    have hs := Pattern.Engine.denotes_set hs
    have ht := Pattern.Engine.denotes_set ht
    rw [← h] at ht
    have he : s.text ++ ([] : Text) = s.text ++ [] := rfl
    exact single_injective (hs.unique ht trivial trivial he).2
  · intro h
    rw [text, text, (normalize_eq_iff hs ht).2 h]

/-- Joining, complement and subtraction are exact and give the canonical list, and lists are joined to the same one, and
written as the same class, exactly if they stand for the same set. -/
theorem sets_exact_and_canonical (hs : s.IsProper) (ht : t.IsProper) :
    (s.normalize.elements = s.elements ∧ s.complement.elements = s.elementsᶜ ∧
      (s.subtract t).elements = s.elements \ t.elements) ∧
    (s.normalize.IsCanonical ∧ s.complement.IsCanonical ∧ (s.subtract t).IsCanonical) ∧
    (s.normalize = t.normalize ↔ s.elements = t.elements) ∧ (s.text = t.text ↔ s.elements = t.elements) :=
  ⟨⟨elements_normalize, elements_complement hs, elements_subtract ht⟩,
    ⟨hs.isCanonical_normalize, hs.isCanonical_complement, hs.isCanonical_subtract ht⟩,
    normalize_eq_iff hs ht, text_eq_iff hs ht⟩

/-- Digits and small letters in ranges that touch. -/
def touching : CodePointSet := [⟨0x62, 0x7A⟩, ⟨0x30, 0x39⟩, ⟨0x61, 0x61⟩]

/-- The same in ranges that overlap. -/
def overlapping : CodePointSet := [⟨0x61, 0x7A⟩, ⟨0x34, 0x39⟩, ⟨0x30, 0x38⟩]

theorem sets_exact_and_canonical_touching : touching.IsProper ∧ overlapping.IsProper ∧
    touching.normalize = [⟨0x30, 0x39⟩, ⟨0x61, 0x7A⟩] ∧ touching.elements = overlapping.elements ∧
    touching.text = overlapping.text ∧ (touching.subtract overlapping).elements = ∅ := by
  have htouching : touching.IsProper := by decide
  have hoverlapping : overlapping.IsProper := by decide
  obtain ⟨⟨_, _, hsubtract⟩, _, hnormal, htext⟩ := sets_exact_and_canonical htouching hoverlapping
  have hlist : touching.normalize = [⟨0x30, 0x39⟩, ⟨0x61, 0x7A⟩] := by cbv
  have hlist' : overlapping.normalize = [⟨0x30, 0x39⟩, ⟨0x61, 0x7A⟩] := by cbv
  have hsame := hnormal.1 (hlist.trans hlist'.symm)
  exact ⟨htouching, hoverlapping, hlist, hsame, htext.2 hsame, by rw [hsubtract, hsame, Set.sdiff_self]⟩

end CodePointSet

end XmlSchema
