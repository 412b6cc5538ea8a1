import Mathlib
import XmlSchema.CodePointSet

/-!
What lists of ranges stand for. Joining, complement and subtraction are the operations on sets of code points that they
are named for, and they keep ranges proper: each holds a code point, and none holds a number that is none.
-/

namespace XmlSchema

namespace CodePointRange

/-- The range holds a code point, and no number that is none. -/
def IsProper (r : CodePointRange) : Prop := r.lo ≤ r.hi ∧ r.hi ≤ CodePoint.maximum

instance (r : CodePointRange) : Decidable r.IsProper := inferInstanceAs (Decidable (_ ∧ _))

theorem contains_iff {r : CodePointRange} {n : Nat} : r.contains n = true ↔ r.lo ≤ n ∧ n ≤ r.hi := by
  simp [contains]

theorem le_trans {a b c : CodePointRange} (h : a.le b = true) (h' : b.le c = true) : a.le c = true := by
  simp only [le, Bool.or_eq_true, Bool.and_eq_true, decide_eq_true_eq] at *
  omega

theorem le_total (a b : CodePointRange) : (a.le b || b.le a) = true := by
  simp only [le, Bool.or_eq_true, Bool.and_eq_true, decide_eq_true_eq]
  omega

theorem lo_le_lo {a b : CodePointRange} (h : a.le b = true) : a.lo ≤ b.lo := by
  simp only [le, Bool.or_eq_true, Bool.and_eq_true, decide_eq_true_eq] at h
  omega

end CodePointRange

namespace CodePointSet

def IsProper (s : CodePointSet) : Prop := ∀ r ∈ s, r.IsProper

instance (s : CodePointSet) : Decidable s.IsProper := inferInstanceAs (Decidable (∀ r ∈ s, r.IsProper))

/-- Ascending ranges with a gap between any two. -/
def IsApart (s : CodePointSet) : Prop := s.Pairwise fun a b => a.hi + 1 < b.lo

/-- The code points that a list of ranges stands for. -/
def elements (s : CodePointSet) : Set CodePoint := {c | s.contains c.val = true}

variable {s t : CodePointSet} {r : CodePointRange} {n : Nat}

@[simp] theorem contains_nil : CodePointSet.contains [] n = false := rfl

@[simp] theorem contains_cons : CodePointSet.contains (r :: s) n = (r.contains n || s.contains n) := rfl

@[simp] theorem contains_append : CodePointSet.contains (s ++ t) n = (s.contains n || t.contains n) := List.any_append

theorem contains_iff : s.contains n = true ↔ ∃ r ∈ s, r.contains n = true := List.any_eq_true

theorem isProper_cons : IsProper (r :: s) ↔ r.IsProper ∧ s.IsProper := List.forall_mem_cons

theorem isProper_append : IsProper (s ++ t) ↔ s.IsProper ∧ t.IsProper := List.forall_mem_append

theorem contains_perm (h : s.Perm t) : s.contains n = t.contains n := h.any_eq

theorem contains_reverse : CodePointSet.contains s.reverse n = s.contains n := List.any_reverse

/-! ### Joining -/

/-- Ranges that have been joined, the last one first, and ranges yet to come that start no earlier. -/
structure Joining (done s : CodePointSet) : Prop where
  ascending : s.Pairwise fun a b => a.lo ≤ b.lo
  apart : done.Pairwise fun a b => b.hi + 1 < a.lo
  behind : ∀ last ∈ done.head?, ∀ r ∈ s, last.lo ≤ r.lo

namespace Joining

variable {last : CodePointRange} {done : CodePointSet}

theorem first (h : Joining [] (r :: s)) : Joining [r] s where
  ascending := h.ascending.of_cons
  apart := List.pairwise_singleton _ _
  behind := by
    rintro _ ⟨⟩
    exact (List.pairwise_cons.1 h.ascending).1

theorem joined (h : Joining (last :: done) (r :: s)) : Joining (⟨last.lo, max last.hi r.hi⟩ :: done) s where
  ascending := h.ascending.of_cons
  apart := List.pairwise_cons.2 (List.pairwise_cons.1 h.apart)
  behind := by
    rintro _ ⟨⟩ b hb
    exact h.behind last rfl b (List.mem_cons_of_mem _ hb)

theorem separate (h : Joining (last :: done) (r :: s)) (hr : ¬ r.lo ≤ last.hi + 1) : Joining (r :: last :: done) s where
  ascending := h.ascending.of_cons
  apart := by
    refine List.pairwise_cons.2 ⟨?_, h.apart⟩
    have hlast := (List.pairwise_cons.1 h.apart).1
    have hlo := h.behind last rfl r List.mem_cons_self
    rintro b (_ | ⟨_, hb⟩)
    · omega
    · have := hlast b hb
      omega
  behind := by
    rintro _ ⟨⟩
    exact (List.pairwise_cons.1 h.ascending).1

end Joining

theorem contains_merge {done : CodePointSet} (h : Joining done s) :
    (merge done s).contains n = (done.contains n || s.contains n) := by
  fun_induction merge done s with
  | case1 done => rw [contains_reverse, contains_nil, Bool.or_false]
  | case2 r rest ih => rw [ih h.first, contains_cons, contains_cons, contains_nil, Bool.or_false, Bool.false_or]
  | case3 r rest last before hr ih =>
      rw [ih h.joined]
      have hlo := h.behind last rfl r List.mem_cons_self
      have hjoin : (⟨last.lo, max last.hi r.hi⟩ : CodePointRange).contains n = (last.contains n || r.contains n) := by
        rw [Bool.eq_iff_iff, Bool.or_eq_true]
        simp only [CodePointRange.contains_iff]
        omega
      simp only [contains_cons, hjoin]
      ac_rfl
  | case4 r rest last before hr ih =>
      rw [ih (h.separate hr)]
      simp only [contains_cons]
      ac_rfl

theorem isApart_merge {done : CodePointSet} (h : Joining done s) : (merge done s).IsApart := by
  fun_induction merge done s with
  | case1 done => exact List.pairwise_reverse.2 h.apart
  | case2 r rest ih => exact ih h.first
  | case3 r rest last before hr ih => exact ih h.joined
  | case4 r rest last before hr ih => exact ih (h.separate hr)

theorem isProper_merge {done : CodePointSet} (hd : done.IsProper) (hs : s.IsProper) : (merge done s).IsProper := by
  fun_induction merge done s with
  | case1 done => exact fun r hr => hd r (List.mem_reverse.1 hr)
  | case2 r rest ih =>
      obtain ⟨hr, hrest⟩ := isProper_cons.1 hs
      exact ih (isProper_cons.2 ⟨hr, hd⟩) hrest
  | case3 r rest last before hr ih =>
      obtain ⟨hr, hrest⟩ := isProper_cons.1 hs
      obtain ⟨hlast, hbefore⟩ := isProper_cons.1 hd
      refine ih (isProper_cons.2 ⟨?_, hbefore⟩) hrest
      simp only [CodePointRange.IsProper] at *
      omega
  | case4 r rest last before hr ih =>
      obtain ⟨hr, hrest⟩ := isProper_cons.1 hs
      exact ih (isProper_cons.2 ⟨hr, hd⟩) hrest

theorem joining_sort (s : CodePointSet) : Joining [] (s.mergeSort CodePointRange.le) where
  ascending := by
    have h : (s.mergeSort CodePointRange.le).Pairwise fun a b => a.le b = true := by
      apply List.pairwise_mergeSort
      · exact fun _ _ _ => CodePointRange.le_trans
      · exact CodePointRange.le_total
    exact h.imp CodePointRange.lo_le_lo
  apart := .nil
  behind := by simp

@[simp] theorem contains_normalize : s.normalize.contains n = s.contains n := by
  rw [normalize, contains_merge (joining_sort s), contains_nil, Bool.false_or, contains_perm (List.mergeSort_perm s _)]

theorem isApart_normalize (s : CodePointSet) : s.normalize.IsApart := isApart_merge (joining_sort s)

theorem IsProper.normalize (h : s.IsProper) : s.normalize.IsProper :=
  isProper_merge (fun _ hr => nomatch hr) fun r hr => h r ((List.mergeSort_perm s _).mem_iff.1 hr)

/-! ### Complement and subtraction -/

/-- What lies between ascending ranges from a start on, which is not behind their beginning. -/
theorem contains_gaps {start : Nat} (hs : s.IsProper) (ha : s.IsApart) (hstart : ∀ r ∈ s, start ≤ r.lo) :
    (gaps start s).contains n = true ↔ start ≤ n ∧ n ≤ CodePoint.maximum ∧ s.contains n = false := by
  induction s generalizing start with
  | nil =>
      rw [gaps]
      split
      · simp [CodePointRange.contains_iff]
      · simp
        omega
  | cons r rest ih =>
      obtain ⟨⟨hr, hmax⟩, hrest⟩ := isProper_cons.1 hs
      obtain ⟨hgap, hapart⟩ := List.pairwise_cons.1 ha
      have hlo := hstart r List.mem_cons_self
      have hih := ih hrest hapart fun b hb => Nat.le_of_lt (hgap b hb)
      have hbehind : CodePointSet.contains rest n = true → r.hi < n := by
        intro h
        obtain ⟨b, hb, hn⟩ := contains_iff.1 h
        have := hgap b hb
        have := (CodePointRange.contains_iff.1 hn).1
        omega
      have hr' : r.contains n = decide (r.lo ≤ n ∧ n ≤ r.hi) := by
        rw [Bool.eq_iff_iff, CodePointRange.contains_iff, decide_eq_true_iff]
      rw [gaps, contains_cons, hr']
      cases hc : CodePointSet.contains rest n with
      | true =>
          have := hbehind hc
          split <;> simp [hih, hc, CodePointRange.contains_iff]
          omega
      | false =>
          split <;> simp [hih, hc, CodePointRange.contains_iff] <;> omega

theorem isProper_gaps {start : Nat} (hs : s.IsProper) : (gaps start s).IsProper := by
  induction s generalizing start with
  | nil =>
      rw [gaps]
      split
      · exact isProper_cons.2 ⟨⟨by assumption, Nat.le_refl _⟩, fun _ hr => nomatch hr⟩
      · exact fun _ hr => nomatch hr
  | cons r rest ih =>
      obtain ⟨hr, hrest⟩ := isProper_cons.1 hs
      rw [gaps]
      split
      · refine isProper_cons.2 ⟨?_, ih hrest⟩
        simp only [CodePointRange.IsProper] at hr ⊢
        omega
      · exact ih hrest

theorem ascending_gaps {start : Nat} (hs : s.IsProper) (ha : s.IsApart) (hstart : ∀ r ∈ s, start ≤ r.lo) :
    (gaps start s).Pairwise (fun a b => a.lo ≤ b.lo) ∧ ∀ r ∈ gaps start s, start ≤ r.lo := by
  induction s generalizing start with
  | nil =>
      rw [gaps]
      split <;> simp
  | cons r rest ih =>
      obtain ⟨⟨hr, hmax⟩, hrest⟩ := isProper_cons.1 hs
      obtain ⟨hgap, hapart⟩ := List.pairwise_cons.1 ha
      have hlo := hstart r List.mem_cons_self
      obtain ⟨hih, hih'⟩ := ih hrest hapart fun b hb => Nat.le_of_lt (hgap b hb)
      have hbehind : ∀ b ∈ gaps (r.hi + 1) rest, start ≤ b.lo := by
        intro b hb
        have := hih' b hb
        omega
      rw [gaps]
      split
      · exact ⟨List.pairwise_cons.2 ⟨hbehind, hih⟩, List.forall_mem_cons.2 ⟨Nat.le_refl _, hbehind⟩⟩
      · exact ⟨hih, hbehind⟩

theorem contains_complement (h : s.IsProper) :
    s.complement.contains n = true ↔ n ≤ CodePoint.maximum ∧ s.contains n = false := by
  rw [complement, contains_gaps h.normalize (isApart_normalize s) fun _ _ => Nat.zero_le _]
  simp

theorem IsProper.complement (h : s.IsProper) : s.complement.IsProper := isProper_gaps h.normalize

theorem ascending_complement (h : s.IsProper) : s.complement.Pairwise fun a b => a.lo ≤ b.lo :=
  (ascending_gaps h.normalize (isApart_normalize s) fun _ _ => Nat.zero_le _).1

theorem takeWhile_lo_eq_filter {keep : CodePointSet} (h : keep.Pairwise fun a b => a.lo ≤ b.lo) (hi : Nat) :
    keep.takeWhile (·.lo ≤ hi) = keep.filter (·.lo ≤ hi) := by
  induction keep with
  | nil => rfl
  | cons k keep ih =>
      obtain ⟨hk, hkeep⟩ := List.pairwise_cons.1 h
      by_cases hle : k.lo ≤ hi
      · simp [hle, ih hkeep]
      · have hnone : keep.filter (·.lo ≤ hi) = [] := List.filter_eq_nil_iff.2 fun b hb => by
          have := hk b hb
          simp only [decide_eq_true_eq]
          omega
        simp [hle, hnone]

/-- Only the ranges that start within the clipped one are looked at; those behind them share nothing with it. -/
theorem contains_clip {keep : CodePointSet} (h : keep.Pairwise fun a b => a.lo ≤ b.lo) :
    (clip r keep).contains n = (r.contains n && keep.contains n) := by
  rw [Bool.eq_iff_iff, Bool.and_eq_true, clip, takeWhile_lo_eq_filter h, contains_iff, contains_iff]
  simp only [List.mem_filterMap, List.mem_filter, decide_eq_true_eq]
  constructor
  · rintro ⟨b, ⟨k, ⟨hk, hlo⟩, hb⟩, hn⟩
    split at hb
    · cases hb
      simp only [CodePointRange.contains_iff] at hn ⊢
      exact ⟨by omega, k, hk, by omega⟩
    · exact nomatch hb
  · rintro ⟨hr, k, hk, hn⟩
    rw [CodePointRange.contains_iff] at hr hn
    refine ⟨⟨max r.lo k.lo, min r.hi k.hi⟩, ⟨k, ⟨hk, by omega⟩, if_pos (by omega)⟩, ?_⟩
    simp only [CodePointRange.contains_iff]
    omega

theorem isProper_clip {keep : CodePointSet} (hr : r.IsProper) (h : keep.IsProper) : (clip r keep).IsProper := by
  intro b hb
  obtain ⟨k, hk, hb⟩ := List.mem_filterMap.1 hb
  have hk := h k ((List.takeWhile_sublist _).mem hk)
  split at hb
  · cases hb
    simp only [CodePointRange.IsProper] at *
    omega
  · exact nomatch hb

theorem contains_subtract {removed : CodePointSet} (h : removed.IsProper) :
    (s.subtract removed).contains n = true ↔
      s.contains n = true ∧ n ≤ CodePoint.maximum ∧ removed.contains n = false := by
  rw [subtract, ← contains_complement h, ← contains_normalize (s := s)]
  induction s.normalize with
  | nil => simp
  | cons r rest ih =>
      rw [List.flatMap_cons, contains_append, Bool.or_eq_true, ih, contains_clip (ascending_complement h),
        contains_cons]
      simp only [Bool.and_eq_true, Bool.or_eq_true, or_and_right]

theorem IsProper.subtract {removed : CodePointSet} (hs : s.IsProper) (h : removed.IsProper) :
    (s.subtract removed).IsProper := by
  intro b hb
  obtain ⟨r, hr, hb⟩ := List.mem_flatMap.1 hb
  exact isProper_clip (hs.normalize r hr) h.complement b hb

/-! ### The sets -/

theorem elements_nil : elements [] = ∅ := by
  simp [elements]

theorem elements_cons : elements (r :: s) = {c | r.lo ≤ c.val ∧ c.val ≤ r.hi} ∪ s.elements := by
  ext c
  simp [elements, CodePointRange.contains_iff]

theorem elements_singleton : elements [r] = {c | r.lo ≤ c.val ∧ c.val ≤ r.hi} := by
  rw [elements_cons, elements_nil, Set.union_empty]

theorem elements_normalize : s.normalize.elements = s.elements := by
  simp [elements]

theorem elements_append : elements (s ++ t) = s.elements ∪ t.elements := by
  ext c
  simp [elements]

theorem elements_complement (h : s.IsProper) : s.complement.elements = s.elementsᶜ := by
  ext c
  simp [elements, contains_complement h, c.val_le, CodePoint.maximum]

theorem elements_subtract {removed : CodePointSet} (h : removed.IsProper) :
    (s.subtract removed).elements = s.elements \ removed.elements := by
  ext c
  simp [elements, contains_subtract h, c.val_le, CodePoint.maximum]

end CodePointSet

end XmlSchema
