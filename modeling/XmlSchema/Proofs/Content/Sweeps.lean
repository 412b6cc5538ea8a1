import Mathlib.Data.List.Nodup
import Mathlib.Data.List.Perm.Subperm
import Mathlib.Data.Nat.Init
import XmlSchema.Occurrence

/-!
What a sweep comes to. Rounds that are left out, since they start from positions seen before or would only repeat
themselves, make no difference: a sweep reaches what an allowed number of rounds reaches, and ends by itself.
-/

namespace XmlSchema

/-- The range allows some number of occurrences. -/
def Occurs.IsRange (o : Occurs) : Prop := ∀ m, o.max = some m → o.min ≤ m

namespace Occurs

variable {o : Occurs} {k : Nat}

theorem isRange_iff : o.IsRange ↔ o.max.all (o.min ≤ ·) = true := by
  rw [IsRange]
  cases o.max <;> simp

instance : Decidable o.IsRange := decidable_of_iff _ isRange_iff.symm

theorem allowsMore_iff : o.allowsMore k = true ↔ ∀ m, o.max = some m → k < m := by
  cases h : o.max <;> simp [allowsMore, h]

theorem allowsMore_of_lt {j : Nat} (h : o.allowsMore k = true) (hj : j ≤ k) : o.allowsMore j = true := by
  rw [allowsMore_iff] at h ⊢
  intro m hm
  have := h m hm
  omega

theorem IsRange.allows_min (h : o.IsRange) : o.allows o.min := ⟨Nat.le_refl _, h⟩

theorem allows_of_allowsMore (h : o.allowsMore k = true) (hk : o.min ≤ k + 1) : o.allows (k + 1) :=
  ⟨hk, allowsMore_iff.1 h⟩

theorem allows.allowsMore_of_lt {j : Nat} (h : o.allows k) (hj : j < k) : o.allowsMore j = true := by
  rw [allowsMore_iff]
  intro m hm
  have := h.2 m hm
  omega

end Occurs

namespace Positions

theorem toList_nodup (s : Positions) : s.toList.Nodup :=
  s.sorted.imp fun h => Nat.ne_of_gt h

theorem isEmpty_iff {s : Positions} : s.isEmpty = true ↔ ∀ q, q ∉ s := by
  simp [isEmpty, mem_def, List.eq_nil_iff_forall_not_mem]

theorem exists_mem_of_isEmpty_false {s : Positions} (h : s.isEmpty = false) : ∃ q, q ∈ s := by
  by_contra hn
  rw [isEmpty_iff.2 (fun q hq => hn ⟨q, hq⟩)] at h
  exact Bool.noConfusion h

theorem has_iff {n : Nat} {l : List Nat} (h : l.Pairwise (· > ·)) : has n l = true ↔ n ∈ l := by
  induction l with
  | nil => simp [has]
  | cons a l ih =>
      rw [List.pairwise_cons] at h
      rw [has, List.mem_cons]
      split
      · next hlt =>
          rw [ih h.2]
          exact ⟨.inr, fun hm => hm.resolve_left (by omega)⟩
      · next hge =>
          have : n ∉ l := fun hm => hge (h.1 n hm)
          simp [this]

@[simp] theorem contains_iff {s : Positions} {n : Nat} : s.contains n = true ↔ n ∈ s := has_iff s.sorted

theorem length_le {s : Positions} {last : Nat} (h : ∀ q ∈ s, q ≤ last) : s.toList.length ≤ last + 1 := by
  have hs : s.toList ⊆ List.range (last + 1) := by
    intro q hq
    have := h q hq
    exact List.mem_range.2 (by omega)
  simpa using (s.toList_nodup.subperm hs).length_le

theorem length_lt_union {s t : Positions} {q : Nat} (hq : q ∈ s) (hn : q ∉ t) :
    t.toList.length < (s ∪ t).toList.length := by
  have hs : (q :: t.toList) ⊆ (s ∪ t).toList := by
    intro r hr
    rcases List.mem_cons.1 hr with rfl | hr
    · exact mem_union.2 (.inl hq)
    · exact mem_union.2 (.inr hr)
  exact ((List.nodup_cons.2 ⟨hn, t.toList_nodup⟩).subperm hs).length_le

end Positions

namespace Sweep

/-- Where a number of rounds from a position end. -/
def after (step : Nat → Positions) (pos : Nat) : Nat → Positions
  | 0 => .single pos
  | k + 1 => (after step pos k).bind step

/-- The step stays between where it starts and `last`. -/
def Advances (step : Nat → Positions) (last : Nat) : Prop := ∀ p ≤ last, ∀ q ∈ step p, p ≤ q ∧ q ≤ last

variable {step : Nat → Positions} {last pos : Nat}

@[simp] theorem mem_after_zero {q : Nat} : q ∈ after step pos 0 ↔ q = pos := Positions.mem_single

theorem mem_after_succ {k q : Nat} : q ∈ after step pos (k + 1) ↔ ∃ p ∈ after step pos k, q ∈ step p :=
  Positions.mem_bind

theorem Advances.after (h : Advances step last) (hpos : pos ≤ last) {k q : Nat} (hq : q ∈ after step pos k) :
    pos ≤ q ∧ q ≤ last := by
  induction k generalizing q with
  | zero => exact ⟨by simp [mem_after_zero.1 hq], by simpa [mem_after_zero.1 hq] using hpos⟩
  | succ k ih =>
      obtain ⟨p, hp, hq⟩ := mem_after_succ.1 hq
      obtain ⟨hl, hu⟩ := ih hp
      obtain ⟨hl', hu'⟩ := h p hu q hq
      exact ⟨by omega, hu'⟩

theorem after_stable {c : Nat} (h : after step pos (c + 1) = after step pos c) {k : Nat} (hk : c ≤ k) :
    after step pos k = after step pos c := by
  induction k, hk using Nat.le_induction with
  | base => rfl
  | succ k _ ih =>
      rw [after, ih]
      exact h

/-- Where a round ends only at positions seen since `low`, so do all later rounds. -/
theorem after_closed (low : Nat) {c : Nat}
    (h : ∀ q ∈ after step pos c, ∃ k, low ≤ k ∧ k < c ∧ q ∈ after step pos k) {j : Nat} (hj : c ≤ j) :
    ∀ q ∈ after step pos j, ∃ k, low ≤ k ∧ k < c ∧ q ∈ after step pos k := by
  induction j, hj using Nat.le_induction with
  | base => exact h
  | succ j _ ih =>
      intro q hq
      obtain ⟨p, hp, hq⟩ := mem_after_succ.1 hq
      obtain ⟨k, hl, hk, hp⟩ := ih p hp
      have hq' : q ∈ after step pos (k + 1) := mem_after_succ.2 ⟨p, hp, hq⟩
      rcases Nat.lt_or_ge (k + 1) c with hlt | hge
      · exact ⟨k + 1, by omega, hlt, hq'⟩
      · obtain rfl : k + 1 = c := by omega
        exact h q hq'

/-- A dead end stays one. -/
theorem after_dead {c : Nat} (h : ∀ q, q ∉ after step pos c) {k : Nat} (hk : c ≤ k) : ∀ q, q ∉ after step pos k := by
  intro q hq
  obtain ⟨j, hj, hj', _⟩ := after_closed c (fun q hq => absurd hq (h q)) hk q hq
  omega

/-- How far a sweep has come. Below the minimum it follows rounds as they are; a round that would repeat itself ends it
there; from the minimum on it collects what it reaches, and only what is new is followed up. -/
inductive Phase (o : Occurs) (step : Nat → Positions) (pos : Nat) (s : Sweep) : Prop
  | below (hc : s.rounds < o.min) (hf : s.frontier = after step pos s.rounds) (hr : ∀ q, q ∉ s.reached)
      (ht : ∀ q, q ∈ s.tried ↔ ∃ k < s.rounds, q ∈ after step pos k)
  | stable (c : Nat) (hc : c < s.rounds) (hm : c < o.min) (hs : after step pos (c + 1) = after step pos c)
      (hf : ∀ q, q ∉ s.frontier) (hr : ∀ q, q ∈ s.reached ↔ q ∈ after step pos c)
      (ht : ∀ q, q ∈ s.tried ↔ ∃ k ≤ c, q ∈ after step pos k)
  | within (hc : o.min ≤ s.rounds)
      (hf : ∀ q ∈ s.frontier, q ∈ after step pos s.rounds)
      (hn : ∀ q ∈ after step pos s.rounds, q ∈ s.frontier ∨ ∃ k, o.min ≤ k ∧ k < s.rounds ∧ q ∈ after step pos k)
      (hr : ∀ q, q ∈ s.reached ↔ ∃ k, o.min ≤ k ∧ k ≤ s.rounds ∧ q ∈ after step pos k)
      (ht : ∀ q, q ∈ s.tried ↔ ∃ k < s.rounds, q ∈ after step pos k)

variable {o : Occurs} {s : Sweep}

theorem Phase.start : Phase o step pos (Sweep.start o pos) := by
  by_cases h : o.min = 0
  · refine .within (by simp [Sweep.start, h]) ?_ ?_ ?_ ?_
    · intro q hq
      exact hq
    · intro q hq
      exact .inl hq
    · intro q
      simp only [Sweep.start, h, if_true, Positions.mem_single]
      constructor
      · rintro rfl
        exact ⟨0, by omega, by omega, by simp⟩
      · rintro ⟨k, _, hk, hq⟩
        obtain rfl : k = 0 := by omega
        simpa using hq
    · simp [Sweep.start]
  · exact .below (by simp [Sweep.start]; omega) rfl (by simp [Sweep.start, h]) (by simp [Sweep.start])

theorem next_of_min_le (h : o.min ≤ s.rounds + 1) :
    s.next o step = ⟨s.rounds + 1, s.frontier.bind step \ s.reached, s.frontier.bind step ∪ s.reached,
      s.frontier ∪ s.tried⟩ := by
  simp [next, h]

theorem next_of_lt_min (h : s.rounds + 1 < o.min) :
    s.next o step = if s.frontier.bind step = s.frontier then
        ⟨s.rounds + 1, .empty, s.frontier.bind step ∪ s.reached, s.frontier ∪ s.tried⟩
      else ⟨s.rounds + 1, s.frontier.bind step, s.reached, s.frontier ∪ s.tried⟩ := by
  simp [next, Nat.not_le.2 h]

theorem exists_lt_succ_iff {P : Nat → Prop} {n : Nat} : (∃ k < n + 1, P k) ↔ P n ∨ ∃ k < n, P k := by
  constructor
  · rintro ⟨k, hk, h⟩
    rcases Nat.lt_succ_iff_lt_or_eq.1 hk with hk | rfl
    · exact .inr ⟨k, hk, h⟩
    · exact .inl h
  · rintro (h | ⟨k, hk, h⟩)
    · exact ⟨n, by omega, h⟩
    · exact ⟨k, by omega, h⟩

theorem Phase.next_below (hc : s.rounds < o.min) (hf : s.frontier = after step pos s.rounds)
    (hr : ∀ q, q ∉ s.reached) (ht : ∀ q, q ∈ s.tried ↔ ∃ k < s.rounds, q ∈ after step pos k) :
    Phase o step pos (s.next o step) := by
  have hends : s.frontier.bind step = after step pos (s.rounds + 1) := by rw [hf]; rfl
  have ht' (q : Nat) : q ∈ s.frontier ∪ s.tried ↔ ∃ k < s.rounds + 1, q ∈ after step pos k := by
    rw [Positions.mem_union, ht, hf, exists_lt_succ_iff]
  by_cases hm : o.min ≤ s.rounds + 1
  · rw [next_of_min_le hm, hends]
    refine .within hm ?_ ?_ ?_ ht'
    · intro q hq
      exact (Positions.mem_diff.1 hq).1
    · intro q hq
      exact .inl (Positions.mem_diff.2 ⟨hq, hr q⟩)
    · intro q
      simp only [Positions.mem_union, hr, or_false]
      constructor
      · intro hq
        exact ⟨s.rounds + 1, hm, Nat.le_refl _, hq⟩
      · rintro ⟨k, hk, hk', hq⟩
        obtain rfl : k = s.rounds + 1 := by omega
        exact hq
  · rw [next_of_lt_min (by omega), hends]
    split
    · next he =>
        rw [hf] at he
        refine .stable s.rounds (Nat.lt_succ_self _) hc he (by simp) ?_ ?_
        · intro q
          simp [he, hr]
        · intro q
          rw [ht']
          simp only [Nat.lt_succ_iff]
    · exact .below (by simp only; omega) rfl hr ht'

theorem Phase.next_within (hc : o.min ≤ s.rounds)
    (hf : ∀ q ∈ s.frontier, q ∈ after step pos s.rounds)
    (hn : ∀ q ∈ after step pos s.rounds, q ∈ s.frontier ∨ ∃ k, o.min ≤ k ∧ k < s.rounds ∧ q ∈ after step pos k)
    (hr : ∀ q, q ∈ s.reached ↔ ∃ k, o.min ≤ k ∧ k ≤ s.rounds ∧ q ∈ after step pos k)
    (ht : ∀ q, q ∈ s.tried ↔ ∃ k < s.rounds, q ∈ after step pos k) :
    Phase o step pos (s.next o step) := by
  -- a position that was seen before was followed up then, so that what it leads to is reached already
  have hends {q : Nat} (hq : q ∈ after step pos (s.rounds + 1)) : q ∈ s.frontier.bind step ∨ q ∈ s.reached := by
    obtain ⟨p, hp, hq⟩ := mem_after_succ.1 hq
    rcases hn p hp with hp | ⟨k, hk, hk', hp⟩
    · exact .inl (Positions.mem_bind.2 ⟨p, hp, hq⟩)
    · exact .inr ((hr q).2 ⟨k + 1, by omega, by omega, mem_after_succ.2 ⟨p, hp, hq⟩⟩)
  have hends' {q : Nat} (hq : q ∈ s.frontier.bind step) : q ∈ after step pos (s.rounds + 1) := by
    obtain ⟨p, hp, hq⟩ := Positions.mem_bind.1 hq
    exact mem_after_succ.2 ⟨p, hf p hp, hq⟩
  rw [next_of_min_le (by omega)]
  refine .within (by simp only; omega) ?_ ?_ ?_ ?_
  · intro q hq
    exact hends' (Positions.mem_diff.1 hq).1
  · intro q hq
    by_cases hq' : q ∈ s.reached
    · obtain ⟨k, hk, hk', hq'⟩ := (hr q).1 hq'
      exact .inr ⟨k, hk, by simp only; omega, hq'⟩
    · exact .inl (Positions.mem_diff.2 ⟨(hends hq).resolve_right hq', hq'⟩)
  · intro q
    simp only [Positions.mem_union]
    constructor
    · rintro (hq | hq)
      · exact ⟨s.rounds + 1, by omega, Nat.le_refl _, hends' hq⟩
      · obtain ⟨k, hk, hk', hq⟩ := (hr q).1 hq
        exact ⟨k, hk, by omega, hq⟩
    · rintro ⟨k, hk, hk', hq⟩
      rcases Nat.lt_or_ge s.rounds k with hlt | hge
      · obtain rfl : k = s.rounds + 1 := by omega
        exact hends hq
      · exact .inr ((hr q).2 ⟨k, hk, hge, hq⟩)
  · intro q
    rw [Positions.mem_union, ht, exists_lt_succ_iff]
    constructor
    · rintro (hq | hq)
      · exact .inl (hf q hq)
      · exact .inr hq
    · rintro (hq | hq)
      · rcases hn q hq with hq | ⟨k, _, hk, hq⟩
        · exact .inl hq
        · exact .inr ⟨k, hk, hq⟩
      · exact .inr hq

theorem Phase.next (h : Phase o step pos s) (hs : s.finished o = false) : Phase o step pos (s.next o step) := by
  cases h with
  | below hc hf hr ht => exact .next_below hc hf hr ht
  | within hc hf hn hr ht => exact .next_within hc hf hn hr ht
  | stable c hc hm hs' hf hr ht =>
      have he : s.frontier.isEmpty = true := Positions.isEmpty_iff.2 hf
      simp [finished, he] at hs

/-- What holds of a sweep on its way: its phase, and that the range allowed every round made. -/
structure Progress (o : Occurs) (step : Nat → Positions) (pos : Nat) (s : Sweep) : Prop where
  phase : Phase o step pos s
  allowed : ∀ k < s.rounds, o.allowsMore k = true

theorem Progress.start : Progress o step pos (Sweep.start o pos) :=
  ⟨.start, fun k hk => absurd hk (by simp [Sweep.start])⟩

@[simp] theorem rounds_next : (s.next o step).rounds = s.rounds + 1 := by
  unfold Sweep.next
  simp only
  split
  · rfl
  · split <;> rfl

theorem Progress.next (h : Progress o step pos s) (hs : s.finished o = false) :
    Progress o step pos (s.next o step) := by
  refine ⟨h.phase.next hs, fun k hk => ?_⟩
  have hmore : o.allowsMore s.rounds = true := by
    simp only [finished, Bool.or_eq_false_iff, Bool.not_eq_false'] at hs
    exact hs.2
  exact Occurs.allowsMore_of_lt hmore (by rw [rounds_next] at hk; omega)

theorem Progress.run (h : Progress o step pos s) (fuel : Nat) : Progress o step pos (Sweep.run o step fuel s) := by
  induction fuel generalizing s with
  | zero => exact h
  | succ fuel ih =>
      rw [Sweep.run]
      split
      · exact h
      · next hs => exact ih (h.next (by simpa using hs))

/-! ### The end of a sweep -/

/-- The positions of a sweep that stays up to `last`. -/
structure Within (last : Nat) (s : Sweep) : Prop where
  frontier : ∀ q ∈ s.frontier, q ≤ last
  reached : ∀ q ∈ s.reached, q ≤ last

theorem Within.start (hpos : pos ≤ last) : Within last (Sweep.start o pos) := by
  constructor
  · intro q hq
    obtain rfl := Positions.mem_single.1 hq
    exact hpos
  · intro q hq
    simp only [Sweep.start] at hq
    split at hq
    · obtain rfl := Positions.mem_single.1 hq
      exact hpos
    · simp at hq

theorem Within.next (h : Within last s) (hstep : Advances step last) : Within last (s.next o step) := by
  have hends : ∀ q ∈ s.frontier.bind step, q ≤ last := by
    intro q hq
    obtain ⟨p, hp, hq⟩ := Positions.mem_bind.1 hq
    exact (hstep p (h.frontier p hp) q hq).2
  have hunion : ∀ q ∈ s.frontier.bind step ∪ s.reached, q ≤ last := by
    intro q hq
    rcases Positions.mem_union.1 hq with hq | hq
    · exact hends q hq
    · exact h.reached q hq
  by_cases hm : o.min ≤ s.rounds + 1
  · rw [next_of_min_le hm]
    exact ⟨fun q hq => hends q (Positions.mem_diff.1 hq).1, hunion⟩
  · rw [next_of_lt_min (by omega)]
    split
    · exact ⟨by simp, hunion⟩
    · exact ⟨hends, h.reached⟩

/-- A bound for the rounds that a sweep has still to make. -/
def remaining (o : Occurs) (last : Nat) (s : Sweep) : Nat :=
  if s.frontier.isEmpty then 0
  else if s.rounds < o.min then o.min - s.rounds + last + 2
  else last + 2 - s.reached.toList.length

theorem remaining_start (hpos : pos ≤ last) : (Sweep.start o pos).remaining o last ≤ o.min + last + 2 := by
  rw [remaining]
  split
  · omega
  · split
    · simp [Sweep.start]
    · omega

/-- From the minimum on, every round that is followed up has reached a new position. -/
theorem remaining_next (h : Within last s) (hstep : Advances step last) (hs : s.frontier.isEmpty = false) :
    (s.next o step).remaining o last < s.remaining o last := by
  have hlen := Positions.length_le h.reached
  have hn := (h.next (o := o) hstep)
  have hlen' := Positions.length_le hn.reached
  rw [remaining, rounds_next]
  split
  · rw [remaining]
    rw [hs]
    simp only [Bool.false_eq_true, if_false]
    split <;> omega
  · next he =>
      rw [remaining]
      rw [hs]
      simp only [Bool.false_eq_true, if_false]
      split
      · split <;> omega
      · next hm =>
          have hr : (s.next o step) = _ := next_of_min_le (by omega)
          obtain ⟨q, hq⟩ := Positions.exists_mem_of_isEmpty_false (by simpa using he)
          rw [hr] at hq
          obtain ⟨hq, hq'⟩ := Positions.mem_diff.1 hq
          have hlt := Positions.length_lt_union hq hq'
          rw [hr] at hlen' ⊢
          simp only at hlen' ⊢
          split <;> omega

theorem finished_run (h : Within last s) (hstep : Advances step last) {fuel : Nat}
    (hfuel : s.remaining o last ≤ fuel) : (Sweep.run o step fuel s).finished o = true := by
  induction fuel generalizing s with
  | zero =>
      have hlen := Positions.length_le h.reached
      have he : s.frontier.isEmpty = true := by
        rw [remaining] at hfuel
        split at hfuel
        · assumption
        · split at hfuel <;> omega
      simp [run, finished, he]
  | succ fuel ih =>
      rw [Sweep.run]
      split
      · assumption
      · next hs =>
          have he : s.frontier.isEmpty = false := by
            simp only [finished, Bool.not_eq_true, Bool.or_eq_false_iff] at hs
            exact hs.1
          have := remaining_next (o := o) h hstep he
          exact ih (h.next hstep) (by omega)

/-- A finished sweep has not made all rounds that the range allows only if it has nothing left to follow up. -/
theorem not_mem_frontier (hs : s.finished o = true) {k : Nat} (hk : s.rounds ≤ k)
    (hmore : o.allowsMore k = true) : ∀ q, q ∉ s.frontier := by
  rw [finished, Bool.or_eq_true] at hs
  rcases hs with he | hm
  · exact Positions.isEmpty_iff.1 he
  · rw [Occurs.allowsMore_of_lt hmore hk] at hm
    exact absurd hm (by simp)

end Sweep

section

variable {o : Occurs} {step : Nat → Positions} {last pos : Nat}

theorem progress_sweep (o : Occurs) (step : Nat → Positions) (last pos : Nat) :
    Sweep.Progress o step pos (sweep o step last pos) := Sweep.Progress.start.run _

theorem finished_sweep (hstep : Sweep.Advances step last) (hpos : pos ≤ last) :
    (sweep o step last pos).finished o = true :=
  Sweep.finished_run (Sweep.Within.start hpos) hstep (Sweep.remaining_start hpos)

theorem exists_after_of_mem_reached {q : Nat} (hq : q ∈ (sweep o step last pos).reached) :
    ∃ k, q ∈ Sweep.after step pos k := by
  cases (progress_sweep o step last pos).phase with
  | below _ _ hr _ => exact absurd hq (hr q)
  | stable c _ _ _ _ hr _ => exact ⟨c, (hr q).1 hq⟩
  | within _ _ _ hr _ =>
      obtain ⟨k, _, _, hq⟩ := (hr q).1 hq
      exact ⟨k, hq⟩

theorem mem_reached_sweep (hstep : Sweep.Advances step last) (hpos : pos ≤ last) (ho : o.IsRange) {q : Nat} :
    q ∈ (sweep o step last pos).reached ↔ ∃ k, o.allows k ∧ q ∈ Sweep.after step pos k := by
  have hs := finished_sweep (o := o) hstep hpos
  have hp := progress_sweep o step last pos
  generalize sweep o step last pos = s at hs hp
  cases hp.phase with
  | below hc hf hr ht =>
      have hmore : o.allowsMore s.rounds = true := ho.allows_min.allowsMore_of_lt hc
      have he := Sweep.not_mem_frontier hs (Nat.le_refl _) hmore
      rw [hf] at he
      refine ⟨fun hq => absurd hq (hr q), ?_⟩
      rintro ⟨k, hk, hq⟩
      exact absurd hq (Sweep.after_dead he (Nat.le_trans (Nat.le_of_lt hc) hk.1) q)
  | stable c hc hm hs' hf hr ht =>
      rw [hr]
      constructor
      · intro hq
        exact ⟨o.min, ho.allows_min, by rwa [Sweep.after_stable hs' (Nat.le_of_lt hm)]⟩
      · rintro ⟨k, hk, hq⟩
        rwa [Sweep.after_stable hs' (by have := hk.1; omega)] at hq
  | within hc hf hn hr ht =>
      rw [hr]
      constructor
      · rintro ⟨k, hk, hk', hq⟩
        cases k with
        | zero => exact ⟨0, ⟨hk, fun m _ => Nat.zero_le m⟩, hq⟩
        | succ k => exact ⟨k + 1, Occurs.allows_of_allowsMore (hp.allowed k (by omega)) hk, hq⟩
      · rintro ⟨k, hk, hq⟩
        rcases Nat.lt_or_ge s.rounds k with hlt | hge
        · have he := Sweep.not_mem_frontier hs (Nat.le_refl _) (hk.allowsMore_of_lt hlt)
          obtain ⟨j, hj, hj', hq⟩ := Sweep.after_closed o.min (fun q hq => (hn q hq).resolve_left (he q))
            (Nat.le_of_lt hlt) q hq
          exact ⟨j, hj, Nat.le_of_lt hj', hq⟩
        · exact ⟨k, hk.1, hge, hq⟩

theorem mem_tried_sweep (hstep : Sweep.Advances step last) (hpos : pos ≤ last) {q : Nat} :
    q ∈ (sweep o step last pos).tried ↔ ∃ k, o.allowsMore k = true ∧ q ∈ Sweep.after step pos k := by
  have hs := finished_sweep (o := o) hstep hpos
  have hp := progress_sweep o step last pos
  generalize sweep o step last pos = s at hs hp
  cases hp.phase with
  | below hc hf hr ht =>
      rw [ht]
      constructor
      · rintro ⟨k, hk, hq⟩
        exact ⟨k, hp.allowed k hk, hq⟩
      · rintro ⟨k, hk, hq⟩
        rcases Nat.lt_or_ge k s.rounds with hlt | hge
        · exact ⟨k, hlt, hq⟩
        · have he := Sweep.not_mem_frontier hs hge hk
          rw [hf] at he
          exact absurd hq (Sweep.after_dead he hge q)
  | stable c hc hm hs' hf hr ht =>
      rw [ht]
      constructor
      · rintro ⟨k, hk, hq⟩
        exact ⟨k, hp.allowed k (by omega), hq⟩
      · rintro ⟨k, hk, hq⟩
        rcases Nat.le_total k c with hle | hge
        · exact ⟨k, hle, hq⟩
        · exact ⟨c, Nat.le_refl _, by rwa [Sweep.after_stable hs' hge] at hq⟩
  | within hc hf hn hr ht =>
      rw [ht]
      constructor
      · rintro ⟨k, hk, hq⟩
        exact ⟨k, hp.allowed k hk, hq⟩
      · rintro ⟨k, hk, hq⟩
        rcases Nat.lt_or_ge k s.rounds with hlt | hge
        · exact ⟨k, hlt, hq⟩
        · have he := Sweep.not_mem_frontier hs hge hk
          obtain ⟨j, _, hj, hq⟩ := Sweep.after_closed o.min (fun q hq => (hn q hq).resolve_left (he q)) hge q hq
          exact ⟨j, hj, hq⟩

end

end XmlSchema
