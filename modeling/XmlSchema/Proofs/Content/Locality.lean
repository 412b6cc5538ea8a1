import XmlSchema.Proofs.Content.Exploration

/-!
Matching is local: which positions up to `f` it comes to depends only on the names before `f`. Hence a match that looks
no further than `f` is matched by one that looks at least as far when the names from `f` on are others.
-/

namespace XmlSchema

/-- Two lists of names agree before a position. -/
structure Agree (f : Nat) (names names' : Array Name) : Prop where
  left : f ≤ names.size
  right : f ≤ names'.size
  eq : ∀ i < f, names[i]? = names'[i]?

/-- From positions up to `f`, the second step comes to all positions up to `f` that the first comes to. -/
def Follows (f : Nat) (step step' : Nat → Positions) : Prop := ∀ p ≤ f, ∀ q ≤ f, q ∈ step p → q ∈ step' p

variable {f : Nat} {names names' : Array Name} {substitutes : Name → List Name}

theorem Follows.after {step step' : Nat → Positions} {last : Nat} (hs : Follows f step step')
    (hstep : Sweep.Advances step last) (hf : f ≤ last) {pos k q : Nat} (hpos : pos ≤ f) (hq : q ≤ f)
    (h : q ∈ Sweep.after step pos k) : q ∈ Sweep.after step' pos k := by
  induction k generalizing q with
  | zero => exact h
  | succ k ih =>
      obtain ⟨p, hp, h⟩ := Sweep.mem_after_succ.1 h
      have hle : p ≤ q := (hstep p (hstep.after (by omega) hp).2 q h).1
      exact Sweep.mem_after_succ.2 ⟨p, ih (by omega) hp, hs p (by omega) q hq h⟩

namespace AllMember

theorem mem_matchFrom_of_mem_endsAt (names : Array Name) (remaining : List AllMember) (pos : Nat) {ends : Positions}
    {q : Nat} (h : q ∈ endsAt remaining pos ends) : q ∈ (matchFrom names remaining pos ends).ends := by
  induction remaining, pos using matchFrom_induct names generalizing ends with
  | stop remaining pos hn =>
      rw [matchFrom_none hn]
      exact h
  | take remaining pos n hn hany ih =>
      rw [matchFrom_some hn hany]
      exact ih (mem_endsAt.2 (.inl h))

theorem endsAt_mono {remaining : List AllMember} {pos : Nat} {ends ends' : Positions} {q : Nat}
    (hends : q ∈ ends → q ∈ ends') (h : q ∈ endsAt remaining pos ends) : q ∈ endsAt remaining pos ends' := by
  rw [mem_endsAt] at h ⊢
  exact h.imp_left hends

theorem matchFrom_local (h : Agree f names names') (remaining : List AllMember) (pos : Nat) {ends ends' : Positions}
    (hpos : pos ≤ f) (hends : ∀ q ≤ f, q ∈ ends → q ∈ ends') :
    (∀ q ≤ f, q ∈ (matchFrom names remaining pos ends).ends → q ∈ (matchFrom names' remaining pos ends').ends) ∧
      ((matchFrom names remaining pos ends).stopped ≤ f →
        (matchFrom names remaining pos ends).stopped ≤ (matchFrom names' remaining pos ends').stopped) := by
  induction remaining, pos using matchFrom_induct names generalizing ends ends' with
  | stop remaining pos hn =>
      rw [matchFrom_none hn]
      constructor
      · intro q hq hmem
        exact mem_matchFrom_of_mem_endsAt _ _ _ (endsAt_mono (hends q hq) hmem)
      · intro _
        exact (matchFrom_bounds _ _ _ (Nat.le_trans hpos h.right)).1
  | take remaining pos n hn hany ih =>
      have hends' : ∀ q ≤ f, q ∈ endsAt remaining pos ends → q ∈ endsAt remaining pos ends' :=
        fun q hq => endsAt_mono (hends q hq)
      rw [matchFrom_some hn hany]
      rcases Nat.lt_or_ge pos f with hlt | hge
      · rw [matchFrom_some ((h.eq pos hlt).symm.trans hn) hany]
        exact ih hlt hends'
      · -- the names differ from here on, and all that the first match finds now lies further on
        have hpos' : pos + 1 ≤ names.size := (Array.getElem?_eq_some_iff.1 hn).1
        obtain ⟨hl, _, hb⟩ := matchFrom_bounds (remaining.eraseP (·.accepted.contains n)) (pos + 1)
          (endsAt remaining pos ends) hpos'
        constructor
        · intro q hq hmem
          have hmem := (hb q hmem).resolve_right (by omega)
          exact mem_matchFrom_of_mem_endsAt _ _ _ (hends' q hq hmem)
        · intro hs
          omega

end AllMember

namespace Matcher

theorem follows_ends {p : Particle} (hp : p.occurs.IsRange) (h : Agree f names names')
    (hs : Follows f (step substitutes names p) (step substitutes names' p)) :
    Follows f (ofParticle substitutes names p).ends (ofParticle substitutes names' p).ends := by
  intro pos hpos q hq hmem
  rw [mem_ends_iff_after hp (Nat.le_trans hpos h.left)] at hmem
  rw [mem_ends_iff_after hp (Nat.le_trans hpos h.right)]
  obtain ⟨k, hk, hmem⟩ := hmem
  exact ⟨k, hk, hs.after (advances_step p) h.left hpos hq hmem⟩

theorem Leads.follows (h : Agree f names names') {ps : List Particle}
    (hs : ∀ p ∈ ps, Follows f (ofParticle substitutes names p).ends (ofParticle substitutes names' p).ends)
    {p q : Nat} (hp : p ≤ f) (hq : q ≤ f) (hl : Leads (ps.map (ofParticle substitutes names)) p q) :
    Leads (ps.map (ofParticle substitutes names')) p q := by
  induction ps generalizing p with
  | nil => exact hl
  | cons m ps ih =>
      obtain ⟨hm, hs⟩ := List.forall_mem_cons.1 hs
      obtain ⟨r, hr, hl⟩ := hl
      have hrs : r ≤ names.size := (advances_ends m p (Nat.le_trans hp h.left) r hr).2
      have hle : r ≤ q := by
        refine (hl.advances (fun m hm => ?_) hrs).1
        obtain ⟨m, _, rfl⟩ := List.mem_map.1 hm
        exact advances_ends m
      exact ⟨r, hm p hp r (by omega) hr, ih hs (by omega) hl⟩

theorem follows_step (h : Agree f names names') (p : Particle) (hp : p.HasRanges) :
    Follows f (step substitutes names p) (step substitutes names' p) := by
  induction p using Particle.induct with
  | element name key occurs =>
      intro pos _ q hq hmem
      obtain ⟨n, hn, ha, rfl⟩ := mem_nameStep.1 hmem
      exact mem_nameStep.2 ⟨n, (h.eq pos hq).symm.trans hn, ha, rfl⟩
  | wildcard w occurs =>
      intro pos _ q hq hmem
      obtain ⟨n, hn, ha, rfl⟩ := mem_wildcardStep.1 hmem
      exact mem_wildcardStep.2 ⟨n, (h.eq pos hq).symm.trans hn, ha, rfl⟩
  | group compositor members occurs source ih =>
      have hms : ∀ m ∈ members,
          Follows f (ofParticle substitutes names m).ends (ofParticle substitutes names' m).ends :=
        fun m hm => follows_ends (hp.member hm).occurs h (ih m hm (hp.member hm))
      intro pos hpos q hq hmem
      cases compositor with
      | sequence => exact mem_sequenceStep.2 ((mem_sequenceStep.1 hmem).follows h hms hpos hq)
      | choice =>
          simp only [step, mem_choiceStep, List.mem_map, exists_exists_and_eq_and] at hmem ⊢
          obtain ⟨m, hm, hmem⟩ := hmem
          exact ⟨m, hm, hms m hm pos hpos q hq hmem⟩
      | all => exact (AllMember.matchFrom_local h _ pos hpos fun _ _ he => he).1 q hq hmem

/-! ### Explorations -/

/-- Starts that another exploration has too, none of them beyond `f`. -/
def Starts (f : Nat) (starts starts' : Positions) : Prop := ∀ s ∈ starts, s ≤ f ∧ s ∈ starts'

/-- Explored with the second names, a particle is looked at as far as with the first, unless that is beyond `f`. -/
def LooksAsFar (substitutes : Name → List Name) (f : Nat) (names names' : Array Name) (p : Particle) : Prop :=
  ∀ place starts starts', Starts f starts starts' →
    (explore substitutes names place starts (ofParticle substitutes names p)).furthest ≤ f →
    (explore substitutes names place starts (ofParticle substitutes names p)).furthest ≤
      (explore substitutes names' place starts' (ofParticle substitutes names' p)).furthest

variable {place : Option SharedPlace} {starts starts' : Positions} {p : Particle}

theorem starts_triedFrom (h : Agree f names names') (hp : p.HasRanges) (hs : Starts f starts starts')
    (hf : ∀ q ∈ triedFrom substitutes names starts p, q ≤ f) :
    Starts f (triedFrom substitutes names starts p) (triedFrom substitutes names' starts' p) := by
  intro q hq
  refine ⟨hf q hq, ?_⟩
  have hqf := hf q hq
  obtain ⟨s, hs', hq⟩ := Positions.mem_bind.1 hq
  obtain ⟨hsf, hs'⟩ := hs s hs'
  rw [sweep_ofParticle _ _ _ (Nat.le_trans hsf h.left),
    mem_tried_sweep (advances_step p) (Nat.le_trans hsf h.left)] at hq
  obtain ⟨k, hk, hq⟩ := hq
  refine Positions.mem_bind.2 ⟨s, hs', ?_⟩
  rw [sweep_ofParticle _ _ _ (Nat.le_trans hsf h.right),
    mem_tried_sweep (advances_step p) (Nat.le_trans hsf h.right)]
  exact ⟨k, hk, (follows_step h p hp).after (advances_step p) h.left hsf hqf hq⟩

theorem starts_endsFrom (h : Agree f names names') (hp : p.HasRanges) (hs : Starts f starts starts')
    (hf : ∀ q ∈ endsFrom substitutes names starts p, q ≤ f) :
    Starts f (endsFrom substitutes names starts p) (endsFrom substitutes names' starts' p) := by
  intro q hq
  refine ⟨hf q hq, ?_⟩
  have hqf := hf q hq
  obtain ⟨s, hs', hq⟩ := Positions.mem_bind.1 hq
  obtain ⟨hsf, hs'⟩ := hs s hs'
  exact Positions.mem_bind.2 ⟨s, hs', follows_ends hp.occurs h (follows_step h p hp) s hsf q hqf hq⟩

theorem furthest_inTurn_le (h : Agree f names names') {source : Option Name} {i : Nat} {ps : List Particle}
    (hps : ∀ p ∈ ps, p.HasRanges)
    (ih : ∀ p ∈ ps, LooksAsFar substitutes f names names' p)
    (hs : Starts f starts starts')
    (hf : (exploreInTurn substitutes names source place i starts
      (ps.map (ofParticle substitutes names))).furthest ≤ f) :
    (exploreInTurn substitutes names source place i starts (ps.map (ofParticle substitutes names))).furthest ≤
      (exploreInTurn substitutes names' source place i starts' (ps.map (ofParticle substitutes names'))).furthest := by
  induction ps generalizing i starts starts' with
  | nil => exact Nat.zero_le _
  | cons p ps ihps =>
      obtain ⟨hp, hps⟩ := List.forall_mem_cons.1 hps
      obtain ⟨ihp, ih⟩ := List.forall_mem_cons.1 ih
      cases he : starts.isEmpty with
      | true => rw [furthest_inTurn_of_isEmpty he]; exact Nat.zero_le _
      | false =>
          obtain ⟨s, hs'⟩ := Positions.exists_mem_of_isEmpty_false he
          have he' : starts'.isEmpty = false := by
            rw [← Bool.not_eq_true, Positions.isEmpty_iff]
            exact fun hn => hn s (hs s hs').2
          rw [List.map_cons, furthest_inTurn_cons he] at hf ⊢
          rw [List.map_cons, furthest_inTurn_cons he']
          have hfirst := ihp (memberPlace source place i) starts starts' hs (by omega)
          have hends : ∀ q ∈ endsFrom substitutes names starts p, q ≤ f := fun q hq =>
            Nat.le_trans (le_furthest_of_mem_endsFrom (memberPlace source place i) hq) (by omega)
          have hlater := ihps hps ih (i := i + 1) (starts_endsFrom h hp hs hends)
            (Nat.le_trans (Nat.le_max_right _ _) hf)
          exact Nat.max_le.2 ⟨Nat.le_trans hfirst (Nat.le_max_left _ _), Nat.le_trans hlater (Nat.le_max_right _ _)⟩

theorem furthest_each_le {source : Option Name} {i : Nat} {ps : List Particle}
    (ih : ∀ p ∈ ps, LooksAsFar substitutes f names names' p)
    (hs : Starts f starts starts')
    (hf : (exploreEach substitutes names source place i starts (ps.map (ofParticle substitutes names))).furthest ≤ f) :
    (exploreEach substitutes names source place i starts (ps.map (ofParticle substitutes names))).furthest ≤
      (exploreEach substitutes names' source place i starts' (ps.map (ofParticle substitutes names'))).furthest := by
  induction ps generalizing i with
  | nil => exact Nat.zero_le _
  | cons p ps ihps =>
      obtain ⟨ihp, ih⟩ := List.forall_mem_cons.1 ih
      rw [List.map_cons, furthest_each_cons] at hf ⊢
      rw [List.map_cons, furthest_each_cons]
      have hfirst := ihp (memberPlace source place i) starts starts' hs (by omega)
      have hlater := ihps ih (i := i + 1) (Nat.le_trans (Nat.le_max_right _ _) hf)
      exact Nat.max_le.2 ⟨Nat.le_trans hfirst (Nat.le_max_left _ _), Nat.le_trans hlater (Nat.le_max_right _ _)⟩

theorem looksAsFar_of_inside (h : Agree f names names') (hp : p.HasRanges)
    (hinside : ∀ place tried tried', Starts f tried tried' → furthestInside substitutes names place tried p ≤ f →
      furthestInside substitutes names place tried p ≤ furthestInside substitutes names' place tried' p) :
    LooksAsFar substitutes f names names' p := by
  intro place starts starts' hs hf
  have htried := starts_triedFrom h hp hs fun q hq =>
    Nat.le_trans (le_furthest_of_mem_triedFrom place hq) hf
  have hends := starts_endsFrom h hp hs fun q hq =>
    Nat.le_trans (le_furthest_of_mem_endsFrom place hq) hf
  rcases furthest_cases substitutes names place starts p with hc | hc | hc | hc
  · rw [hc]
    exact Nat.zero_le _
  · exact le_furthest_of_mem_triedFrom _ (htried _ hc).2
  · exact le_furthest_of_mem_endsFrom _ (hends _ hc).2
  · rw [hc] at hf ⊢
    exact Nat.le_trans (hinside _ _ _ htried hf) furthestInside_le_furthest

theorem looksAsFar (h : Agree f names names') (p : Particle) (hp : p.HasRanges) :
    LooksAsFar substitutes f names names' p := by
  induction p using Particle.induct with
  | element => exact looksAsFar_of_inside h hp fun _ _ _ _ _ => Nat.le_refl 0
  | wildcard => exact looksAsFar_of_inside h hp fun _ _ _ _ _ => Nat.le_refl 0
  | group compositor members occurs source ih =>
      have ih' : ∀ m ∈ members, LooksAsFar substitutes f names names' m := fun m hm => ih m hm (hp.member hm)
      refine looksAsFar_of_inside h hp fun place tried tried' hs hf => ?_
      cases compositor with
      | sequence => exact furthest_inTurn_le h (fun m hm => hp.member hm) ih' hs hf
      | choice => exact furthest_each_le ih' hs hf
      | all =>
          simp only [furthestInside, foldr_max_le_iff, List.map_map, List.forall_mem_map] at hf ⊢
          intro pos hpos
          obtain ⟨hle, hpos'⟩ := hs pos hpos
          have hstop := (AllMember.matchFrom_local h (allMembers substitutes members) pos hle fun _ _ he => he).2
            (hf pos hpos)
          exact Nat.le_trans hstop (foldr_max_le_iff.1 (Nat.le_refl _) _ (List.mem_map_of_mem hpos'))

end Matcher

end XmlSchema
