import XmlSchema.Proofs.Content.Locality

/-!
How many rounds a sweep makes, whatever its range allows. Whether one occurrence of a particle may come to nothing does
not depend on where it starts. If it may, each round but one reaches more positions; if not, each round moves on.
-/

namespace XmlSchema

namespace Positions

theorem ext {s t : Positions} (h : ∀ q, q ∈ s ↔ q ∈ t) : s = t := by
  obtain ⟨l, hl⟩ := s
  obtain ⟨m, hm⟩ := t
  have hperm : l.Perm m := (List.perm_ext_iff_of_nodup (toList_nodup ⟨l, hl⟩) (toList_nodup ⟨m, hm⟩)).2 h
  congr 1
  refine List.Perm.eq_of_pairwise ?_ hl hm hperm
  intro a b _ _ hab hba
  omega

theorem length_le_of_between {s : Positions} {low last : Nat} (h : ∀ q ∈ s, low ≤ q ∧ q ≤ last) :
    s.toList.length ≤ last + 1 - low := by
  have hs : s.toList ⊆ List.range' low (last + 1 - low) := by
    intro q hq
    have := h q hq
    rw [List.mem_range'_1]
    omega
  simpa using (s.toList_nodup.subperm hs).length_le

theorem length_lt_of_subset {s t : Positions} (h : ∀ q ∈ s, q ∈ t) (hne : t ≠ s) :
    s.toList.length < t.toList.length := by
  by_contra hle
  apply hne
  have hperm := (s.toList_nodup.subperm h).perm_of_length_le (Nat.not_lt.1 hle)
  exact ext fun q => hperm.symm.mem_iff

end Positions

namespace Sweep

/-- The step may stay where it starts, wherever it does. -/
def Stays (step : Nat → Positions) (last : Nat) : Prop := ∀ p ≤ last, p ∈ step p

/-- The step never stays where it starts. -/
def Moves (step : Nat → Positions) (last : Nat) : Prop := ∀ p ≤ last, p ∉ step p

variable {o : Occurs} {step : Nat → Positions} {last pos : Nat} {s : Sweep}

/-- What holds before the first round and is kept by every round that is made holds at the end. -/
theorem sweep_induct {P : Sweep → Prop} (start : P (Sweep.start o pos))
    (next : ∀ s, Progress o step pos s → s.frontier.isEmpty = false → P s → P (s.next o step)) :
    P (sweep o step last pos) := by
  have hrun (fuel : Nat) (s : Sweep) (h : Progress o step pos s) (hs : P s) : P (Sweep.run o step fuel s) := by
    induction fuel generalizing s with
    | zero => exact hs
    | succ fuel ih =>
        rw [Sweep.run]
        split
        · exact hs
        · next hgo =>
            rw [Bool.not_eq_true] at hgo
            apply ih _ (h.next hgo)
            rw [finished, Bool.or_eq_false_iff] at hgo
            exact next s h hgo.1 hs
  exact hrun _ _ .start start

/-- A sweep looks at no position before its start or behind the last one. -/
theorem Progress.between (h : Progress o step pos s) (hstep : Advances step last) (hpos : pos ≤ last) :
    (∀ q ∈ s.frontier, pos ≤ q ∧ q ≤ last) ∧ ∀ q ∈ s.reached, pos ≤ q ∧ q ≤ last := by
  cases h.phase with
  | below _ hf hr _ =>
      rw [hf]
      exact ⟨fun q hq => hstep.after hpos hq, fun q hq => absurd hq (hr q)⟩
  | stable c _ _ _ hf hr _ =>
      exact ⟨fun q hq => absurd hq (hf q), fun q hq => hstep.after hpos ((hr q).1 hq)⟩
  | within _ hf _ hr _ =>
      refine ⟨fun q hq => hstep.after hpos (hf q hq), fun q hq => ?_⟩
      obtain ⟨k, _, _, hq⟩ := (hr q).1 hq
      exact hstep.after hpos hq

theorem mem_bind_of_mem_frontier_next {q : Nat} (h : q ∈ (s.next o step).frontier) : q ∈ s.frontier.bind step := by
  by_cases hm : o.min ≤ s.rounds + 1
  · rw [next_of_min_le hm] at h
    exact (Positions.mem_diff.1 h).1
  · rw [next_of_lt_min (Nat.not_le.1 hm)] at h
    split at h
    · exact absurd h (Positions.not_mem_empty q)
    · exact h

theorem mem_frontier_next {q : Nat} (hm : ¬o.min ≤ s.rounds + 1) (h : q ∈ (s.next o step).frontier) :
    s.frontier.bind step ≠ s.frontier ∧ (s.next o step).frontier = s.frontier.bind step := by
  rw [next_of_lt_min (Nat.not_le.1 hm)] at h ⊢
  split at h
  · exact absurd h (Positions.not_mem_empty q)
  · next hne => exact ⟨hne, by rw [if_neg hne]⟩

/-! ### Steps that never stay -/

/-- Every round has moved on by one position at least. -/
structure MovedOn (last pos : Nat) (s : Sweep) : Prop where
  rounds : s.rounds ≤ last - pos + 1
  frontier : ∀ q ∈ s.frontier, pos + s.rounds ≤ q

theorem MovedOn.next (h : MovedOn last pos s) (hs : Progress o step pos s) (he : s.frontier.isEmpty = false)
    (hstep : Advances step last) (hmoves : Moves step last) (hpos : pos ≤ last) : MovedOn last pos (s.next o step) := by
  have hbetween := (hs.between hstep hpos).1
  constructor
  · obtain ⟨q, hq⟩ := Positions.exists_mem_of_isEmpty_false he
    have := h.frontier q hq
    have := hbetween q hq
    rw [rounds_next]
    omega
  · intro q hq
    obtain ⟨p, hp, hq⟩ := Positions.mem_bind.1 (mem_bind_of_mem_frontier_next hq)
    have hle := (hbetween p hp).2
    have hne : p ≠ q := fun heq => hmoves p hle (heq ▸ hq)
    have := (hstep p hle q hq).1
    have := h.frontier p hp
    rw [rounds_next]
    omega

/-! ### Steps that may stay -/

/-- Below the minimum every round has reached one position more; from there on every round that is followed up has. -/
structure Grown (o : Occurs) (last pos : Nat) (s : Sweep) : Prop where
  rounds : s.rounds ≤ 2 * (last - pos) + 2
  below : s.frontier.isEmpty = false → s.rounds < o.min → s.rounds + 1 ≤ s.frontier.toList.length
  within : s.frontier.isEmpty = false → o.min ≤ s.rounds → s.rounds ≤ last - pos + s.reached.toList.length

theorem Grown.start : Grown o last pos (Sweep.start o pos) where
  rounds := Nat.zero_le _
  below _ _ := Nat.le_refl 1
  within _ _ := Nat.zero_le _

theorem Grown.next (h : Grown o last pos s) (hs : Progress o step pos s) (he : s.frontier.isEmpty = false)
    (hstep : Advances step last) (hstays : Stays step last) (hpos : pos ≤ last) :
    Grown o last pos (s.next o step) := by
  obtain ⟨hfrontier, hreached⟩ := hs.between hstep hpos
  have hgrows : ∀ q ∈ s.frontier, q ∈ s.frontier.bind step := fun q hq =>
    Positions.mem_bind.2 ⟨q, hq, hstays q (hfrontier q hq).2⟩
  have hsize := Positions.length_le_of_between hfrontier
  have hsize' := Positions.length_le_of_between hreached
  have hbelow := h.below he
  have hwithin := h.within he
  refine ⟨?_, fun he' hm => ?_, fun he' hm => ?_⟩
  · rw [rounds_next]
    by_cases hm : s.rounds < o.min
    · have := hbelow hm
      omega
    · have := hwithin (Nat.not_lt.1 hm)
      omega
  · rw [rounds_next] at hm ⊢
    obtain ⟨q, hq⟩ := Positions.exists_mem_of_isEmpty_false he'
    obtain ⟨hne, heq⟩ := mem_frontier_next (Nat.not_le.2 hm) hq
    have := Positions.length_lt_of_subset hgrows hne
    have := hbelow (Nat.lt_of_succ_lt hm)
    rw [heq]
    omega
  · rw [rounds_next] at hm ⊢
    obtain ⟨q, hq⟩ := Positions.exists_mem_of_isEmpty_false he'
    have heq : s.next o step = _ := next_of_min_le hm
    rw [heq] at hq ⊢
    obtain ⟨hq, hnew⟩ := Positions.mem_diff.1 hq
    have hlt := Positions.length_lt_union hq hnew
    by_cases hm' : s.rounds < o.min
    · have := hbelow hm'
      simp only
      omega
    · have := hwithin (Nat.not_lt.1 hm')
      simp only
      omega

/-! ### All steps -/

/-- The bound does not depend on the range. -/
theorem rounds_sweep_le (hstep : Advances step last) (hpos : pos ≤ last) (h : Stays step last ∨ Moves step last) :
    (sweep o step last pos).rounds ≤ 2 * (last - pos) + 2 := by
  rcases h with hstays | hmoves
  · have hgrown : Grown o last pos (sweep o step last pos) := by
      apply sweep_induct
      · exact .start
      · intro s hs he hgrown
        exact hgrown.next hs he hstep hstays hpos
    exact hgrown.rounds
  · have hmoved : MovedOn last pos (sweep o step last pos) := by
      apply sweep_induct
      · exact ⟨Nat.zero_le _, fun q hq => Nat.le_of_eq (Positions.mem_single.1 hq).symm⟩
      · intro s hs he hmoved
        exact hmoved.next hs he hstep hmoves hpos
    have := hmoved.rounds
    omega

end Sweep

namespace Matcher

variable {substitutes : Name → List Name} {names : Array Name} {pos : Nat}

theorem leads_self_iff {ms : List Matcher} (hms : ∀ m ∈ ms, Sweep.Advances m.ends names.size)
    (hpos : pos ≤ names.size) :
    Leads ms pos pos ↔ ∀ m ∈ ms, pos ∈ m.ends pos := by
  induction ms with
  | nil => simp [Leads]
  | cons m ms ih =>
      rw [List.forall_mem_cons] at hms
      rw [List.forall_mem_cons, ← ih hms.2, Leads]
      constructor
      · rintro ⟨r, hr, h⟩
        have hle := hms.1 pos hpos r hr
        have := h.advances hms.2 hle.2
        obtain rfl : r = pos := by omega
        exact ⟨hr, h⟩
      · rintro ⟨hm, h⟩
        exact ⟨pos, hm, h⟩

theorem mem_matchFrom_self_iff (remaining : List AllMember) :
    pos ∈ (AllMember.matchFrom names remaining pos .empty).ends ↔ ∀ m ∈ remaining, m.minimum = 0 := by
  have hends : pos ∈ AllMember.endsAt remaining pos .empty ↔ ∀ m ∈ remaining, m.minimum = 0 := by
    simp [AllMember.mem_endsAt]
  rw [← hends]
  constructor
  · intro h
    by_cases hstop : ∀ n, names[pos]? = some n → remaining.any (·.accepted.contains n) = false
    · rwa [AllMember.matchFrom_none hstop] at h
    · simp only [not_forall, Bool.not_eq_false] at hstop
      obtain ⟨n, hn, htake⟩ := hstop
      rw [AllMember.matchFrom_some hn htake] at h
      have hlt : pos < names.size := (Array.getElem?_eq_some_iff.1 hn).1
      -- what is found from the next position on lies behind this one
      exact ((AllMember.matchFrom_bounds _ _ _ hlt).2.2 pos h).resolve_right (by omega)
  · exact AllMember.mem_matchFrom_of_mem_endsAt _ _ _

theorem mem_after_self_iff (p : Particle) (hpos : pos ≤ names.size) (k : Nat) :
    pos ∈ Sweep.after (step substitutes names p) pos k ↔ k = 0 ∨ pos ∈ step substitutes names p pos := by
  induction k with
  | zero => simp
  | succ k ih =>
      rw [Sweep.mem_after_succ]
      constructor
      · rintro ⟨r, hr, h⟩
        have hle := (advances_step p).after hpos hr
        have := (advances_step p r hle.2 pos h).1
        obtain rfl : r = pos := by omega
        exact .inr h
      · intro h
        have h := h.resolve_left (Nat.succ_ne_zero k)
        exact ⟨pos, ih.2 (.inr h), h⟩

theorem mem_ends_self_iff {p : Particle} (hp : p.occurs.IsRange) (hpos : pos ≤ names.size) :
    pos ∈ (ofParticle substitutes names p).ends pos ↔ p.occurs.min = 0 ∨ pos ∈ step substitutes names p pos := by
  simp only [mem_ends_iff_after hp hpos, mem_after_self_iff p hpos]
  constructor
  · rintro ⟨k, hk, rfl | h⟩
    · exact .inl (Nat.le_zero.1 hk.1)
    · exact .inr h
  · rintro (hzero | h)
    · exact ⟨0, ⟨Nat.le_of_eq hzero, fun _ _ => Nat.zero_le _⟩, .inl rfl⟩
    · exact ⟨p.occurs.min, hp.allows_min, .inr h⟩

/-- One occurrence may come to nothing at one position if it may at another. -/
theorem mem_step_self_congr (p : Particle) (hp : p.HasRanges) {pos' : Nat} (hpos : pos ≤ names.size)
    (hpos' : pos' ≤ names.size) :
    pos ∈ step substitutes names p pos ↔ pos' ∈ step substitutes names p pos' := by
  induction p using Particle.induct with
  | element name key occurs => simp [step, mem_nameStep]
  | wildcard w occurs => simp [step, mem_wildcardStep]
  | group compositor members occurs source ih =>
      have hends : ∀ m ∈ members, (pos ∈ (ofParticle substitutes names m).ends pos ↔
          pos' ∈ (ofParticle substitutes names m).ends pos') := by
        intro m hm
        rw [mem_ends_self_iff (hp.member hm).occurs hpos, mem_ends_self_iff (hp.member hm).occurs hpos',
          ih m hm (hp.member hm)]
      cases compositor with
      | sequence =>
          have hms : ∀ m ∈ members.map (ofParticle substitutes names), Sweep.Advances m.ends names.size :=
            List.forall_mem_map.2 fun m _ => advances_ends m
          simp only [step, mem_sequenceStep, leads_self_iff hms hpos, leads_self_iff hms hpos', List.forall_mem_map]
          exact forall₂_congr hends
      | choice =>
          simp only [step, mem_choiceStep, List.mem_map, exists_exists_and_eq_and]
          exact exists_congr fun m => and_congr_right (hends m)
      | all =>
          simp only [step, allStep, mem_matchFrom_self_iff]

theorem stays_or_moves (p : Particle) (hp : p.HasRanges) :
    Sweep.Stays (step substitutes names p) names.size ∨ Sweep.Moves (step substitutes names p) names.size := by
  by_cases h : 0 ∈ step substitutes names p 0
  · exact .inl fun pos hpos => (mem_step_self_congr p hp (Nat.zero_le _) hpos).1 h
  · exact .inr fun pos hpos hmem => h ((mem_step_self_congr p hp (Nat.zero_le _) hpos).2 hmem)

end Matcher

/-- However large or unbounded the ranges are, the occurrences of a particle end after at most twice as many rounds as
names are left, and two more. -/
theorem rounds_bounded (substitutes : Name → List Name) (names : Array Name) (p : Particle) (hp : p.HasRanges)
    (pos : Nat) (hpos : pos ≤ names.size) :
    ((Matcher.ofParticle substitutes names p).sweep pos).finished p.occurs = true ∧
      ((Matcher.ofParticle substitutes names p).sweep pos).rounds ≤ 2 * (names.size - pos) + 2 := by
  rw [Matcher.sweep_ofParticle _ _ _ hpos]
  constructor
  · exact finished_sweep (Matcher.advances_step p) hpos
  · exact Sweep.rounds_sweep_le (Matcher.advances_step p) hpos (Matcher.stays_or_moves p hp)

/-- At least a million times half a million optional elements in any order. -/
def hugeRanges : Particle :=
  .group .sequence [.group .all [.element ⟨[], "a"⟩ .named ⟨0, some 1⟩, .element ⟨[], "b"⟩ .named ⟨0, some 1⟩]
    ⟨500000, some 4000000000⟩ none] ⟨1000000, none⟩ none

theorem rounds_bounded_hugeRanges : hugeRanges.HasRanges ∧ 1 ≤ #[⟨[], "b"⟩, (⟨[], "a"⟩ : Name), ⟨[], "b"⟩].size ∧
    ((Matcher.ofParticle (fun _ => []) #[⟨[], "b"⟩, ⟨[], "a"⟩, ⟨[], "b"⟩] hugeRanges).sweep 1).rounds ≤ 6 := by
  have hr : hugeRanges.HasRanges := by decide
  exact ⟨hr, by decide, (rounds_bounded _ _ hugeRanges hr 1 (by decide)).2⟩

end XmlSchema
