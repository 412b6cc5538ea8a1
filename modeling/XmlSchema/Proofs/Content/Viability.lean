import Mathlib.Order.Bounds.Defs
import XmlSchema.Proofs.Content.Exploration
import XmlSchema.Proofs.Content.Language

/-!
How far a match looks: exactly as far as the names are the beginning of some word. Hence the child that is reported
first is the first one behind the longest such beginning.
-/

namespace XmlSchema

/-- What stands between two positions is the beginning of a word of the language. -/
def Begins (names : List Name) (l : Language Name) (pos q : Nat) : Prop :=
  ∃ u, u <+: names.drop pos ∧ q = pos + u.length ∧ ∃ v, u ++ v ∈ l

namespace Begins

variable {names : List Name} {l m : Language Name} {pos r q : Nat}

theorem of_spells (h : Spells names l pos q) : Begins names l pos q := by
  obtain ⟨u, hu, hp, rfl⟩ := h
  exact ⟨u, hp, rfl, [], by rwa [List.append_nil]⟩

theorem refl (h : ∃ w, w ∈ l) : Begins names l pos pos := by
  obtain ⟨w, hw⟩ := h
  exact ⟨[], List.nil_prefix, rfl, w, hw⟩

theorem mul_right (h : Begins names l pos q) (hm : ∃ w, w ∈ m) : Begins names (l * m) pos q := by
  obtain ⟨u, hu, rfl, v, hv⟩ := h
  obtain ⟨w, hw⟩ := hm
  exact ⟨u, hu, rfl, v ++ w, by rw [← List.append_assoc]; exact Language.append_mem_mul hv hw⟩

theorem mul_left (hl : Spells names l pos r) (hm : Begins names m r q) : Begins names (l * m) pos q := by
  obtain ⟨a, ha, hpa, rfl⟩ := hl
  obtain ⟨u, hu, rfl, v, hv⟩ := hm
  refine ⟨a ++ u, Spells.append_prefix_drop.2 ⟨hpa, hu⟩, by rw [List.length_append]; omega, v, ?_⟩
  rw [List.append_assoc]
  exact Language.append_mem_mul ha hv

theorem mul_cases (h : Begins names (l * m) pos q) :
    Begins names l pos q ∨ ∃ r, Spells names l pos r ∧ Begins names m r q := by
  obtain ⟨u, hu, rfl, v, hv⟩ := h
  obtain ⟨a, ha, b, hb, he⟩ := Language.mem_mul.1 hv
  rcases List.append_eq_append_iff.1 he with ⟨c, rfl, rfl⟩ | ⟨c, rfl, rfl⟩
  · obtain ⟨hpa, hpc⟩ := Spells.append_prefix_drop.1 hu
    exact .inr ⟨pos + a.length, ⟨a, ha, hpa, rfl⟩, c, hpc, by rw [List.length_append]; omega, v, hb⟩
  · exact .inl ⟨u, hu, rfl, c, ha⟩

theorem sum_iff {ls : List (Language Name)} : Begins names ls.sum pos q ↔ ∃ l ∈ ls, Begins names l pos q := by
  induction ls with
  | nil => simp [Begins]
  | cons l ls ih =>
      rw [List.sum_cons, List.exists_mem_cons_iff, ← ih]
      constructor
      · rintro ⟨u, hu, hq, v, hv⟩
        rcases (Language.mem_add _ _ _).1 hv with hv | hv
        · exact .inl ⟨u, hu, hq, v, hv⟩
        · exact .inr ⟨u, hu, hq, v, hv⟩
      · rintro (⟨u, hu, hq, v, hv⟩ | ⟨u, hu, hq, v, hv⟩)
        · exact ⟨u, hu, hq, v, (Language.mem_add _ _ _).2 (.inl hv)⟩
        · exact ⟨u, hu, hq, v, (Language.mem_add _ _ _).2 (.inr hv)⟩

theorem one_iff : Begins names 1 pos q ↔ q = pos := by
  constructor
  · rintro ⟨u, _, rfl, v, hv⟩
    obtain ⟨rfl, _⟩ := List.append_eq_nil_iff.1 ((Language.mem_one _).1 hv)
    rfl
  · rintro rfl
    exact refl ⟨[], Language.nil_mem_one⟩

theorem singleton_cases {P : Name → Prop} (h : Begins names {w | ∃ n, P n ∧ w = [n]} pos q) :
    q = pos ∨ Spells names {w | ∃ n, P n ∧ w = [n]} pos q := by
  obtain ⟨u, hu, rfl, v, n, hn, hv⟩ := h
  rcases List.append_eq_singleton_iff.1 hv with ⟨rfl, _⟩ | ⟨rfl, _⟩
  · exact .inl rfl
  · exact .inr ⟨[n], ⟨n, hn, rfl⟩, hu, rfl⟩

theorem exists_mem_pow (h : ∃ w, w ∈ l) (k : Nat) : ∃ w, w ∈ l ^ k := by
  induction k with
  | zero => exact ⟨[], by rw [pow_zero]; exact Language.nil_mem_one⟩
  | succ k ih =>
      obtain ⟨u, hu⟩ := ih
      obtain ⟨v, hv⟩ := h
      exact ⟨u ++ v, by rw [pow_succ]; exact Language.append_mem_mul hu hv⟩

theorem pow_cases {k : Nat} (h : Begins names (l ^ (k + 1)) pos q) :
    ∃ j ≤ k, ∃ r, Spells names (l ^ j) pos r ∧ Begins names l r q := by
  induction k with
  | zero =>
      rw [zero_add, pow_one] at h
      exact ⟨0, Nat.le_refl _, pos, by rw [pow_zero, Spells.one_iff], h⟩
  | succ k ih =>
      rw [pow_succ] at h
      rcases h.mul_cases with h | ⟨r, hr, h⟩
      · obtain ⟨j, hj, h⟩ := ih h
        exact ⟨j, by omega, h⟩
      · exact ⟨k + 1, Nat.le_refl _, r, hr, h⟩

variable {o : Occurs}

/-- Where one more occurrence may follow, its beginning can be completed to an allowed number of occurrences. -/
theorem repeated_of_allowsMore (ho : o.IsRange) (hl : ∃ w, w ∈ l) {k : Nat} (hk : o.allowsMore k = true)
    (hr : Spells names (l ^ k) pos r) (h : Begins names l r q) : Begins names (o.repeated l) pos q := by
  have hallows : o.allows (k + 1 + (o.min - (k + 1))) := by
    refine ⟨by omega, fun m hm => ?_⟩
    have := Occurs.allowsMore_iff.1 hk m hm
    have := ho m hm
    omega
  obtain ⟨u, hu, rfl, v, hv⟩ := (mul_left hr h).mul_right (exists_mem_pow hl (o.min - (k + 1)))
  rw [← pow_succ, ← pow_add] at hv
  exact ⟨u, hu, rfl, v, _, hallows, hv⟩

theorem repeated_cases (h : Begins names (o.repeated l) pos q) :
    (q = pos ∧ o.allows 0) ∨
      ∃ k, o.allowsMore k = true ∧ ∃ r, Spells names (l ^ k) pos r ∧ Begins names l r q := by
  obtain ⟨u, hu, hq, v, k, hk, hv⟩ := h
  cases k with
  | zero => exact .inl ⟨one_iff.1 ⟨u, hu, hq, v, by rwa [pow_zero] at hv⟩, hk⟩
  | succ k =>
      obtain ⟨j, hj, h⟩ := pow_cases ⟨u, hu, hq, v, hv⟩
      exact .inr ⟨j, hk.allowsMore_of_lt (by omega), h⟩

end Begins

namespace Particle

/-- One occurrence has a chance: a choice has an alternative, and a wildcard admits some namespace. -/
def offers : Particle → Prop
  | wildcard w _ => ∃ uri, w.allows uri = true
  | group .choice members _ _ => members ≠ []
  | _ => True

/-- Every particle in it may occur, and has a chance to. -/
def IsSatisfiable (p : Particle) : Prop := ∀ q ∈ p.parts, q.offers ∧ q.occurs.max ≠ some 0

theorem IsSatisfiable.member {compositor : Compositor} {members : List Particle} {occurs : Occurs}
    {source : Option Name} (h : (group compositor members occurs source).IsSatisfiable) {m : Particle}
    (hm : m ∈ members) : m.IsSatisfiable :=
  fun q hq => h q (mem_parts_group.2 (.inr ⟨m, hm, hq⟩))

variable {substitutes : Name → List Name}

theorem exists_mem_prod {α : Type} {ls : List (Language α)} (h : ∀ l ∈ ls, ∃ w, w ∈ l) : ∃ w, w ∈ ls.prod := by
  induction ls with
  | nil => exact ⟨[], Language.nil_mem_one⟩
  | cons l ls ih =>
      obtain ⟨⟨u, hu⟩, hls⟩ := List.forall_mem_cons.1 h
      obtain ⟨v, hv⟩ := ih hls
      exact ⟨u ++ v, by rw [List.prod_cons]; exact Language.append_mem_mul hu hv⟩

theorem exists_mem_language {p : Particle} (hp : p.occurs.IsRange) (h : ∃ w, w ∈ p.term substitutes) :
    ∃ w, w ∈ p.language substitutes := by
  obtain ⟨w, hw⟩ := Begins.exists_mem_pow h p.occurs.min
  exact ⟨w, _, hp.allows_min, hw⟩

theorem exists_mem_term {p : Particle} (hp : p.HasRanges) (ho : p.IsOrdered) (hs : p.IsSatisfiable) :
    ∃ w, w ∈ p.term substitutes := by
  induction p using Particle.induct with
  | element name key occurs => exact ⟨[name], name, List.mem_cons_self, rfl⟩
  | wildcard w occurs =>
      obtain ⟨uri, h⟩ := (hs _ (mem_parts_self _)).1
      exact ⟨[⟨uri, []⟩], ⟨uri, []⟩, h, rfl⟩
  | group compositor members occurs source ih =>
      have hms : ∀ m ∈ members, ∃ w, w ∈ m.language substitutes := fun m hm =>
        exists_mem_language (hp.member hm).occurs (ih m hm (hp.member hm) (ho.member hm) (hs.member hm))
      cases compositor with
      | sequence =>
          rw [term, languages_eq_map]
          exact exists_mem_prod (List.forall_mem_map.2 hms)
      | choice =>
          obtain ⟨m, hm⟩ := List.exists_mem_of_ne_nil members (hs _ (mem_parts_self _)).1
          obtain ⟨w, hw⟩ := hms m hm
          refine ⟨w, ?_⟩
          rw [term, languages_eq_map]
          obtain ⟨ls, ls', hls⟩ := List.append_of_mem (List.mem_map_of_mem (f := language substitutes) hm)
          rw [hls, List.sum_append, List.sum_cons]
          exact (Language.mem_add _ _ _).2 (.inr ((Language.mem_add _ _ _).2 (.inl hw)))
      | all => exact absurd (ho _ (mem_parts_self _)) (by simp [isAnyOrder])

end Particle

namespace Matcher

variable {substitutes : Name → List Name} {names : List Name} {place : Option SharedPlace} {starts : Positions}
  {p : Particle}

theorem mem_triedFrom_iff (hp : p.HasRanges) (ho : p.IsOrdered) (hs : ∀ s ∈ starts, s ≤ names.length) {t : Nat} :
    t ∈ triedFrom substitutes names.toArray starts p ↔
      ∃ s ∈ starts, ∃ k, p.occurs.allowsMore k = true ∧ Spells names (p.term substitutes ^ k) s t := by
  rw [triedFrom, Positions.mem_bind]
  refine exists_congr fun s => and_congr_right fun hmem => ?_
  have hsize : s ≤ names.toArray.size := hs s hmem
  rw [sweep_ofParticle _ _ _ hsize, mem_tried_sweep (advances_step p) hsize]
  refine exists_congr fun k => and_congr_right fun _ => ?_
  exact mem_after_iff (advances_step p) (fun _ h _ => mem_step_iff hp ho h) (hs s hmem)

theorem mem_endsFrom_iff (hp : p.HasRanges) (ho : p.IsOrdered) (hs : ∀ s ∈ starts, s ≤ names.length) {t : Nat} :
    t ∈ endsFrom substitutes names.toArray starts p ↔
      ∃ s ∈ starts, Spells names (p.language substitutes) s t := by
  rw [endsFrom, Positions.mem_bind]
  exact exists_congr fun s => and_congr_right fun hmem => mem_ends_iff hp ho (hs s hmem)

theorem triedFrom_le (hp : p.HasRanges) (ho : p.IsOrdered) (hs : ∀ s ∈ starts, s ≤ names.length) :
    ∀ t ∈ triedFrom substitutes names.toArray starts p, t ≤ names.length := by
  intro t ht
  obtain ⟨s, hmem, k, _, h⟩ := (mem_triedFrom_iff hp ho hs).1 ht
  exact (h.le_length (hs s hmem)).2

theorem endsFrom_le (hp : p.HasRanges) (ho : p.IsOrdered) (hs : ∀ s ∈ starts, s ≤ names.length) :
    ∀ t ∈ endsFrom substitutes names.toArray starts p, t ≤ names.length := by
  intro t ht
  obtain ⟨s, hmem, h⟩ := (mem_endsFrom_iff hp ho hs).1 ht
  exact (h.le_length (hs s hmem)).2

/-! ### Never too far -/

/-- The particle is not looked at beyond the beginnings of its words. -/
def LooksAtBeginnings (substitutes : Name → List Name) (names : List Name) (p : Particle) : Prop :=
  ∀ place starts, (∀ s ∈ starts, s ≤ names.length) →
    (explore substitutes names.toArray place starts (ofParticle substitutes names.toArray p)).furthest = 0 ∨
      ∃ s ∈ starts, Begins names (p.language substitutes) s
        (explore substitutes names.toArray place starts (ofParticle substitutes names.toArray p)).furthest

theorem furthest_inTurn_begins {source : Option Name} {i : Nat} {ps : List Particle}
    (hps : ∀ p ∈ ps, p.HasRanges ∧ p.IsOrdered ∧ ∃ w, w ∈ p.language substitutes)
    (ih : ∀ p ∈ ps, LooksAtBeginnings substitutes names p) (hs : ∀ s ∈ starts, s ≤ names.length) :
    (exploreInTurn substitutes names.toArray source place i starts
        (ps.map (ofParticle substitutes names.toArray))).furthest = 0 ∨
      ∃ s ∈ starts, Begins names (ps.map (Particle.language substitutes)).prod s
        (exploreInTurn substitutes names.toArray source place i starts
          (ps.map (ofParticle substitutes names.toArray))).furthest := by
  induction ps generalizing i starts with
  | nil => exact .inl rfl
  | cons p ps ihps =>
      obtain ⟨⟨hp, ho, _⟩, hps⟩ := List.forall_mem_cons.1 hps
      obtain ⟨ihp, ih⟩ := List.forall_mem_cons.1 ih
      cases he : starts.isEmpty with
      | true => exact .inl (furthest_inTurn_of_isEmpty he)
      | false =>
          rw [List.map_cons, furthest_inTurn_cons he, List.map_cons, List.prod_cons]
          refine max_rec' (fun n => n = 0 ∨ ∃ s ∈ starts, Begins names
            (p.language substitutes * (ps.map (Particle.language substitutes)).prod) s n) ?_ ?_
          · refine (ihp (memberPlace source place i) starts hs).imp_right ?_
            rintro ⟨s, hmem, h⟩
            refine ⟨s, hmem, h.mul_right (Particle.exists_mem_prod (List.forall_mem_map.2 ?_))⟩
            exact fun p hp => (hps p hp).2.2
          · refine (ihps hps ih (endsFrom_le hp ho hs)).imp_right ?_
            rintro ⟨r, hr, h⟩
            obtain ⟨s, hmem, hr⟩ := (mem_endsFrom_iff hp ho hs).1 hr
            exact ⟨s, hmem, .mul_left hr h⟩

theorem furthest_each_begins {source : Option Name} {i : Nat} {ps : List Particle}
    (ih : ∀ p ∈ ps, LooksAtBeginnings substitutes names p) (hs : ∀ s ∈ starts, s ≤ names.length) :
    (exploreEach substitutes names.toArray source place i starts
        (ps.map (ofParticle substitutes names.toArray))).furthest = 0 ∨
      ∃ s ∈ starts, ∃ p ∈ ps, Begins names (p.language substitutes) s
        (exploreEach substitutes names.toArray source place i starts
          (ps.map (ofParticle substitutes names.toArray))).furthest := by
  induction ps generalizing i with
  | nil => exact .inl rfl
  | cons p ps ihps =>
      obtain ⟨ihp, ih⟩ := List.forall_mem_cons.1 ih
      rw [List.map_cons, furthest_each_cons]
      refine max_rec' (fun n => n = 0 ∨ ∃ s ∈ starts, ∃ q ∈ p :: ps, Begins names (q.language substitutes) s n) ?_ ?_
      · refine (ihp (memberPlace source place i) starts hs).imp_right ?_
        rintro ⟨s, hmem, h⟩
        exact ⟨s, hmem, p, List.mem_cons_self, h⟩
      · refine (ihps ih).imp_right ?_
        rintro ⟨s, hmem, q, hq, h⟩
        exact ⟨s, hmem, q, List.mem_cons_of_mem _ hq, h⟩

theorem looksAtBeginnings_of_inside (hp : p.HasRanges) (ho : p.IsOrdered) (hne : ∃ w, w ∈ p.term substitutes)
    (hinside : ∀ place tried, (∀ t ∈ tried, t ≤ names.length) →
      furthestInside substitutes names.toArray place tried p = 0 ∨
        ∃ t ∈ tried, Begins names (p.term substitutes) t
          (furthestInside substitutes names.toArray place tried p)) :
    LooksAtBeginnings substitutes names p := by
  intro place starts hs
  have htried {t q : Nat} (ht : t ∈ triedFrom substitutes names.toArray starts p)
      (h : Begins names (p.term substitutes) t q) : ∃ s ∈ starts, Begins names (p.language substitutes) s q := by
    obtain ⟨s, hmem, k, hk, ht⟩ := (mem_triedFrom_iff hp ho hs).1 ht
    exact ⟨s, hmem, .repeated_of_allowsMore hp.occurs hne hk ht h⟩
  rcases furthest_cases substitutes names.toArray place starts p with hc | hc | hc | hc
  · exact .inl hc
  · exact .inr (htried hc (.refl hne))
  · obtain ⟨s, hmem, h⟩ := (mem_endsFrom_iff hp ho hs).1 hc
    exact .inr ⟨s, hmem, .of_spells h⟩
  · rw [hc]
    refine (hinside place _ (triedFrom_le hp ho hs)).imp_right ?_
    rintro ⟨t, ht, h⟩
    exact htried ht h

theorem looksAtBeginnings (p : Particle) (hp : p.HasRanges) (ho : p.IsOrdered) (hs : p.IsSatisfiable) :
    LooksAtBeginnings substitutes names p := by
  induction p using Particle.induct with
  | element => exact looksAtBeginnings_of_inside hp ho (Particle.exists_mem_term hp ho hs) fun _ _ _ => .inl rfl
  | wildcard => exact looksAtBeginnings_of_inside hp ho (Particle.exists_mem_term hp ho hs) fun _ _ _ => .inl rfl
  | group compositor members occurs source ih =>
      have ih' : ∀ m ∈ members, LooksAtBeginnings substitutes names m := fun m hm =>
        ih m hm (hp.member hm) (ho.member hm) (hs.member hm)
      refine looksAtBeginnings_of_inside hp ho (Particle.exists_mem_term hp ho hs) fun place tried ht => ?_
      cases compositor with
      | sequence =>
          rw [Particle.term, Particle.languages_eq_map]
          refine furthest_inTurn_begins (fun m hm => ⟨hp.member hm, ho.member hm, ?_⟩) ih' ht
          exact Particle.exists_mem_language (hp.member hm).occurs
            (Particle.exists_mem_term (hp.member hm) (ho.member hm) (hs.member hm))
      | choice =>
          rw [Particle.term, Particle.languages_eq_map]
          refine (furthest_each_begins ih' ht).imp_right ?_
          rintro ⟨t, ht, m, hm, h⟩
          exact ⟨t, ht, Begins.sum_iff.2 ⟨_, List.mem_map_of_mem hm, h⟩⟩
      | all => exact absurd (ho _ (Particle.mem_parts_self _)) (by simp [Particle.isAnyOrder])

/-! ### Never too early -/

/-- Whatever begins a word of the particle is looked at. -/
def ReachesBeginnings (substitutes : Name → List Name) (names : List Name) (p : Particle) : Prop :=
  ∀ place starts, (∀ s ∈ starts, s ≤ names.length) → ∀ s ∈ starts, ∀ q,
    Begins names (p.language substitutes) s q →
      q ≤ (explore substitutes names.toArray place starts (ofParticle substitutes names.toArray p)).furthest

theorem le_furthest_inTurn {source : Option Name} {i : Nat} {ps : List Particle}
    (hps : ∀ p ∈ ps, p.HasRanges ∧ p.IsOrdered) (ih : ∀ p ∈ ps, ReachesBeginnings substitutes names p)
    (hs : ∀ s ∈ starts, s ≤ names.length) {t q : Nat} (ht : t ∈ starts)
    (h : Begins names (ps.map (Particle.language substitutes)).prod t q) :
    q = t ∨ q ≤ (exploreInTurn substitutes names.toArray source place i starts
      (ps.map (ofParticle substitutes names.toArray))).furthest := by
  induction ps generalizing i starts t with
  | nil => exact .inl (Begins.one_iff.1 h)
  | cons p ps ihps =>
      obtain ⟨⟨hp, ho⟩, hps⟩ := List.forall_mem_cons.1 hps
      obtain ⟨ihp, ih⟩ := List.forall_mem_cons.1 ih
      have he : starts.isEmpty = false := by
        rw [← Bool.not_eq_true, Positions.isEmpty_iff]
        exact fun he => he t ht
      right
      rw [List.map_cons, furthest_inTurn_cons he, le_max_iff]
      rcases h.mul_cases with h | ⟨r, hr, h⟩
      · exact .inl (ihp _ _ hs t ht q h)
      · have hr' : r ∈ endsFrom substitutes names.toArray starts p := (mem_endsFrom_iff hp ho hs).2 ⟨t, ht, hr⟩
        rcases ihps hps ih (endsFrom_le hp ho hs) hr' h with rfl | h
        · exact .inl (le_furthest_of_mem_endsFrom _ hr')
        · exact .inr h

theorem le_furthest_each {source : Option Name} {i : Nat} {ps : List Particle}
    (ih : ∀ p ∈ ps, ReachesBeginnings substitutes names p) (hs : ∀ s ∈ starts, s ≤ names.length) {t q : Nat}
    (ht : t ∈ starts) {p : Particle} (hp : p ∈ ps) (h : Begins names (p.language substitutes) t q) :
    q ≤ (exploreEach substitutes names.toArray source place i starts
      (ps.map (ofParticle substitutes names.toArray))).furthest := by
  induction ps generalizing i with
  | nil => simp at hp
  | cons p' ps ihps =>
      obtain ⟨ihp, ih⟩ := List.forall_mem_cons.1 ih
      rw [List.map_cons, furthest_each_cons, le_max_iff]
      rcases List.mem_cons.1 hp with rfl | hp
      · exact .inl (ihp _ _ hs t ht q h)
      · exact .inr (ihps ih hp)

theorem reachesBeginnings_of_inside (hp : p.HasRanges) (ho : p.IsOrdered)
    (hinside : ∀ place tried, (∀ t ∈ tried, t ≤ names.length) → ∀ t ∈ tried, ∀ q,
      Begins names (p.term substitutes) t q →
        q = t ∨ Spells names (p.term substitutes) t q ∨ q ≤ furthestInside substitutes names.toArray place tried p) :
    ReachesBeginnings substitutes names p := by
  intro place starts hs s hmem q h
  rcases h.repeated_cases with ⟨rfl, hzero⟩ | ⟨k, hk, t, ht, h⟩
  · refine le_furthest_of_mem_endsFrom _ ((mem_endsFrom_iff hp ho hs).2 ⟨q, hmem, [], ?_, List.nil_prefix, rfl⟩)
    exact ⟨0, hzero, by rw [pow_zero]; exact Language.nil_mem_one⟩
  · have ht' : t ∈ triedFrom substitutes names.toArray starts p := (mem_triedFrom_iff hp ho hs).2 ⟨s, hmem, k, hk, ht⟩
    rcases hinside place _ (triedFrom_le hp ho hs) t ht' q h with rfl | hq | hq
    · exact le_furthest_of_mem_triedFrom _ ht'
    · -- one occurrence more either is enough, or is followed by another
      have hq : Spells names (p.term substitutes ^ (k + 1)) s q := by
        rw [pow_succ]
        exact Spells.mul_iff.2 ⟨t, ht, hq⟩
      rcases Nat.lt_or_ge (k + 1) p.occurs.min with hlt | hge
      · have hmore : p.occurs.allowsMore (k + 1) = true := hp.occurs.allows_min.allowsMore_of_lt hlt
        exact le_furthest_of_mem_triedFrom _ ((mem_triedFrom_iff hp ho hs).2 ⟨s, hmem, k + 1, hmore, hq⟩)
      · obtain ⟨w, hw, hw'⟩ := hq
        have hallows := Occurs.allows_of_allowsMore hk hge
        exact le_furthest_of_mem_endsFrom _ ((mem_endsFrom_iff hp ho hs).2 ⟨s, hmem, w, ⟨k + 1, hallows, hw⟩, hw'⟩)
    · exact Nat.le_trans hq furthestInside_le_furthest

theorem reachesBeginnings (p : Particle) (hp : p.HasRanges) (ho : p.IsOrdered) :
    ReachesBeginnings substitutes names p := by
  induction p using Particle.induct with
  | element =>
      refine reachesBeginnings_of_inside hp ho fun _ _ _ t _ q h => ?_
      exact (Begins.singleton_cases h).imp_right .inl
  | wildcard =>
      refine reachesBeginnings_of_inside hp ho fun _ _ _ t _ q h => ?_
      exact (Begins.singleton_cases h).imp_right .inl
  | group compositor members occurs source ih =>
      have ih' : ∀ m ∈ members, ReachesBeginnings substitutes names m := fun m hm =>
        ih m hm (hp.member hm) (ho.member hm)
      refine reachesBeginnings_of_inside hp ho fun place tried htried t ht q h => ?_
      cases compositor with
      | sequence =>
          rw [Particle.term, Particle.languages_eq_map] at h
          refine (le_furthest_inTurn (fun m hm => ⟨hp.member hm, ho.member hm⟩) ih' htried ht h).imp_right .inr
      | choice =>
          rw [Particle.term, Particle.languages_eq_map] at h
          obtain ⟨l, hl, h⟩ := Begins.sum_iff.1 h
          obtain ⟨m, hm, rfl⟩ := List.mem_map.1 hl
          exact .inr (.inr (le_furthest_each ih' htried ht hm h))
      | all => exact absurd (ho _ (Particle.mem_parts_self _)) (by simp [Particle.isAnyOrder])

end Matcher

/-- The lengths of the beginnings of a list of names that can be completed to a word. -/
def viable (names : List Name) (l : Language Name) : Set Nat := {k | k ≤ names.length ∧ ∃ w, names.take k ++ w ∈ l}

theorem Begins.iff_mem_viable {names : List Name} {l : Language Name} {k : Nat} :
    Begins names l 0 k ↔ k ∈ viable names l := by
  constructor
  · rintro ⟨u, hu, rfl, w, hw⟩
    rw [List.drop_zero] at hu
    refine ⟨by simpa using hu.length_le, w, ?_⟩
    rwa [Nat.zero_add, ← List.prefix_iff_eq_take.1 hu]
  · rintro ⟨hk, w, hw⟩
    refine ⟨names.take k, List.take_prefix _ _, ?_, w, hw⟩
    rw [List.length_take]
    omega

namespace Content

variable {substitutes : Name → List Name} {p : Particle} {names : List Name}

/-- An attempt starts inside the names. -/
theorem start_le (names : List Name) : ∀ s ∈ Positions.single 0, s ≤ names.length := by
  intro s hs
  rw [Positions.mem_single.1 hs]
  exact Nat.zero_le _

theorem furthest_attempt (substitutes : Name → List Name) (names : List Name) (hp : p.HasRanges) (ho : p.IsOrdered)
    (hs : p.IsSatisfiable) :
    IsGreatest (viable names (p.language substitutes)) (attempt substitutes p names).furthest := by
  have hstart := start_le names
  constructor
  · rw [← Begins.iff_mem_viable]
    rcases Matcher.looksAtBeginnings p hp ho hs none (.single 0) hstart with h | ⟨s, hmem, h⟩
    · rw [show (attempt substitutes p names).furthest = 0 from h]
      exact .refl (Particle.exists_mem_language hp.occurs (Particle.exists_mem_term hp ho hs))
    · rwa [Positions.mem_single.1 hmem] at h
  · intro k hk
    exact Matcher.reachesBeginnings p hp ho none (.single 0) hstart 0 (Positions.mem_single.2 rfl) k
      (Begins.iff_mem_viable.2 hk)

end Content

/-- The right child is blamed: the first one behind the longest beginning that can be completed to a word, or, if that
is the whole list, none but the end of the list. -/
theorem first_mismatch_behind_longest_beginning (substitutes : Name → List Name) (p : Particle) (hp : p.HasRanges)
    (ho : p.IsOrdered) (hs : p.IsSatisfiable) (names : List Name) (hn : names ∉ p.language substitutes) :
    ∃ k, IsGreatest (viable names (p.language substitutes)) k ∧
      (k < names.length → ∃ m later, (Content.recover substitutes (some p) names).mismatches = m :: later ∧
        m.index? = some k) ∧
      (k = names.length → ∃ m, (Content.recover substitutes (some p) names).mismatches = [m] ∧ m.index? = none) := by
  have hf : (Content.attempt substitutes p (Content.namesOf (Content.indexed names))).fits = false := by
    rw [Content.namesOf_indexed, ← Bool.not_eq_true]
    exact fun h => hn ((Content.fits_iff_mem_language hp ho).1 h)
  have hk := Content.furthest_attempt substitutes names hp ho hs
  refine ⟨_, hk, fun hlt => ?_, fun hlength => ?_⟩ <;> rw [Content.recover_eq, Option.getD_some]
  · have hlt' : (Content.attempt substitutes p (Content.namesOf (Content.indexed names))).furthest <
        (Content.indexed names).length := by
      rwa [Content.namesOf_indexed, Content.length_indexed]
    obtain ⟨m, hm, he⟩ := Content.recoverFrom_of_lt hf hlt'
    refine ⟨m, _, he, ?_⟩
    rw [hm, Content.fst_getElem_indexed, Content.namesOf_indexed]
  · refine ⟨_, Content.recoverFrom_of_ge hf ?_, rfl⟩
    rw [Content.namesOf_indexed, Content.length_indexed, hlength]

theorem first_mismatch_behind_longest_beginning_nestedChoices :
    nestedChoices.HasRanges ∧ nestedChoices.IsOrdered ∧ nestedChoices.IsSatisfiable ∧
    [⟨[], "a"⟩, ⟨"v", "b"⟩] ∉ nestedChoices.language (fun _ => []) ∧
    ∃ k, IsGreatest (viable [⟨[], "a"⟩, ⟨"v", "b"⟩] (nestedChoices.language fun _ => [])) k ∧
      (k < 2 → ∃ m later, (Content.recover (fun _ => []) (some nestedChoices) [⟨[], "a"⟩, ⟨"v", "b"⟩]).mismatches =
        m :: later ∧ m.index? = some k) := by
  have hr : nestedChoices.HasRanges := by decide
  have ho : nestedChoices.IsOrdered := by decide
  have hs : nestedChoices.IsSatisfiable := by
    intro q hq
    simp [nestedChoices, Particle.parts, Particle.partsOfAll] at hq
    rcases hq with rfl | rfl | rfl | rfl <;> simp [Particle.offers, Particle.occurs]
    exact ⟨"u", by decide⟩
  have hends : ((Matcher.ofParticle (fun _ => []) [⟨[], "a"⟩, ⟨"v", "b"⟩].toArray nestedChoices).ends 0).contains 2 =
      false := by cbv
  have hn : [⟨[], "a"⟩, ⟨"v", "b"⟩] ∉ nestedChoices.language (fun _ => []) := by
    intro h
    rw [← Content.fits_iff_mem_language hr ho, Content.attempt_fits_iff, ← Positions.contains_iff] at h
    exact Bool.noConfusion (hends.symm.trans h)
  obtain ⟨k, hk, hlt, _⟩ := first_mismatch_behind_longest_beginning _ nestedChoices hr ho hs _ hn
  exact ⟨hr, ho, hs, hn, k, hk, hlt⟩

end XmlSchema
