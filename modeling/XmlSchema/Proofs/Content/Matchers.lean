import XmlSchema.Content.Matching
import XmlSchema.Proofs.Content.Sweeps

/-!
The particles of a content model, and what the matcher of one computes: from every position the sweep of the step that
the particle takes. Matching never goes back, nor beyond the last name.
-/

namespace XmlSchema

namespace Particle

/-- Induction over particles: what holds of a group may be shown from what holds of its members. -/
@[elab_as_elim]
theorem induct {P : Particle → Prop} (element : ∀ name key occurs, P (.element name key occurs))
    (wildcard : ∀ w occurs, P (.wildcard w occurs))
    (group : ∀ compositor members occurs source, (∀ m ∈ members, P m) →
      P (.group compositor members occurs source)) (p : Particle) : P p :=
  Particle.rec (motive_1 := P) (motive_2 := fun ms => ∀ m ∈ ms, P m) element wildcard group
    (by simp) (fun _ _ hp hps => List.forall_mem_cons.2 ⟨hp, hps⟩) p

mutual

/-- The particle and all particles in it. -/
def parts : Particle → List Particle
  | element name key occurs => [element name key occurs]
  | wildcard w occurs => [wildcard w occurs]
  | group compositor members occurs source => group compositor members occurs source :: partsOfAll members

def partsOfAll : List Particle → List Particle
  | [] => []
  | p :: ps => parts p ++ partsOfAll ps

end

theorem mem_partsOfAll {q : Particle} {ps : List Particle} : q ∈ partsOfAll ps ↔ ∃ p ∈ ps, q ∈ p.parts := by
  induction ps with
  | nil => simp [partsOfAll]
  | cons p ps ih => simp [partsOfAll, ih]

theorem mem_parts_group {q : Particle} {compositor : Compositor} {members : List Particle} {occurs : Occurs}
    {source : Option Name} : q ∈ (group compositor members occurs source).parts ↔
      q = group compositor members occurs source ∨ ∃ m ∈ members, q ∈ m.parts := by
  rw [parts, List.mem_cons, mem_partsOfAll]

theorem mem_parts_self (p : Particle) : p ∈ p.parts := by
  cases p <;> simp [parts]

/-- Every particle in it may occur some number of times. -/
def HasRanges (p : Particle) : Prop := ∀ q ∈ p.parts, q.occurs.IsRange

instance (p : Particle) : Decidable p.HasRanges := inferInstanceAs (Decidable (∀ q ∈ p.parts, _))

theorem HasRanges.occurs {p : Particle} (h : p.HasRanges) : p.occurs.IsRange := h p p.mem_parts_self

theorem HasRanges.member {compositor : Compositor} {members : List Particle} {occurs : Occurs} {source : Option Name}
    (h : (group compositor members occurs source).HasRanges) {m : Particle} (hm : m ∈ members) : m.HasRanges :=
  fun q hq => h q (mem_parts_group.2 (.inr ⟨m, hm, hq⟩))

def isSingle : Particle → Bool
  | element _ _ occurs => occurs.max = some 1
  | _ => false

theorem isSingle_iff {p : Particle} :
    p.isSingle = true ↔ ∃ name key occurs, p = element name key occurs ∧ occurs.max = some 1 := by
  cases p <;> simp [isSingle]

/-- Where members may stand in any order, each of them is an element that may occur once. -/
def HasSingles (p : Particle) : Prop :=
  ∀ members occurs source, group .all members occurs source ∈ p.parts → ∀ m ∈ members, m.isSingle = true

theorem HasSingles.member {compositor : Compositor} {members : List Particle} {occurs : Occurs}
    {source : Option Name} (h : (group compositor members occurs source).HasSingles) {m : Particle} (hm : m ∈ members) :
    m.HasSingles :=
  fun ms o src hq => h ms o src (mem_parts_group.2 (.inr ⟨m, hm, hq⟩))

theorem hasSingles_group {compositor : Compositor} {members : List Particle} {occurs : Occurs} {source : Option Name} :
    (group compositor members occurs source).HasSingles ↔
      (compositor = .all → ∀ m ∈ members, m.isSingle = true) ∧ ∀ m ∈ members, m.HasSingles := by
  constructor
  · intro h
    refine ⟨?_, fun m hm => h.member hm⟩
    rintro rfl
    exact h members occurs source (mem_parts_self _)
  · rintro ⟨hall, hmembers⟩ ms o src hq
    rcases mem_parts_group.1 hq with hq | ⟨m, hm, hq⟩
    · cases hq
      exact hall rfl
    · exact hmembers m hm ms o src hq

theorem hasRanges_group {compositor : Compositor} {members : List Particle} {occurs : Occurs} {source : Option Name} :
    (group compositor members occurs source).HasRanges ↔ occurs.IsRange ∧ ∀ m ∈ members, m.HasRanges := by
  constructor
  · exact fun h => ⟨h.occurs, fun m hm => h.member hm⟩
  · rintro ⟨ho, hmembers⟩ q hq
    rcases mem_parts_group.1 hq with rfl | ⟨m, hm, hq⟩
    · exact ho
    · exact hmembers m hm q hq

end Particle

namespace Matcher

variable (substitutes : Name → List Name) (names : Array Name)

theorem ofParticles_eq_map (ps : List Particle) :
    ofParticles substitutes names ps = ps.map (ofParticle substitutes names) := by
  induction ps with
  | nil => rfl
  | cons p ps ih => rw [ofParticles, ih, List.map_cons]

/-- The positions that one occurrence of a particle leads to. -/
def step : Particle → Nat → Positions
  | .element name _ _ => nameStep names (accepted substitutes name)
  | .wildcard w _ => wildcardStep names w
  | .group .sequence members _ _ => sequenceStep (members.map (ofParticle substitutes names))
  | .group .choice members _ _ => choiceStep (members.map (ofParticle substitutes names))
  | .group .all members _ _ => fun pos => (allStep substitutes names members pos).ends

theorem sweep_ofParticle (p : Particle) {pos : Nat} (hpos : pos ≤ names.size) :
    (ofParticle substitutes names p).sweep pos =
      XmlSchema.sweep p.occurs (step substitutes names p) names.size pos := by
  cases p with
  | element => exact Table.get_tabulate _ _ _ hpos
  | wildcard => exact Table.get_tabulate _ _ _ hpos
  | group compositor members occurs source =>
      cases compositor <;> rw [ofParticle, ofParticles_eq_map] <;> exact Table.get_tabulate _ _ _ hpos

variable {substitutes names}

theorem ends_ofParticle (p : Particle) {pos : Nat} (hpos : pos ≤ names.size) :
    (ofParticle substitutes names p).ends pos =
      (XmlSchema.sweep p.occurs (step substitutes names p) names.size pos).reached := by
  rw [ends, sweep_ofParticle _ _ _ hpos]

/-! ### One occurrence -/

theorem mem_nameStep {accepted : List Name} {pos q : Nat} :
    q ∈ nameStep names accepted pos ↔ ∃ n, names[pos]? = some n ∧ n ∈ accepted ∧ q = pos + 1 := by
  rw [nameStep]
  cases names[pos]? with
  | none => simp
  | some n =>
      by_cases h : n ∈ accepted <;> simp [h]

theorem mem_wildcardStep {w : Wildcard} {pos q : Nat} :
    q ∈ wildcardStep names w pos ↔ ∃ n, names[pos]? = some n ∧ w.allows n.uri = true ∧ q = pos + 1 := by
  rw [wildcardStep]
  cases names[pos]? with
  | none => simp
  | some n =>
      cases h : w.allows n.uri <;> simp [h]

/-- Matchers that follow each other lead from one position to another. -/
def Leads : List Matcher → Nat → Nat → Prop
  | [], p, q => p = q
  | m :: ms, p, q => ∃ r ∈ m.ends p, Leads ms r q

theorem mem_foldl_bind_ends {ms : List Matcher} {starts : Positions} {q : Nat} :
    q ∈ ms.foldl (fun acc m => acc.bind m.ends) starts ↔ ∃ p ∈ starts, Leads ms p q := by
  induction ms generalizing starts with
  | nil => simp [Leads]
  | cons m ms ih =>
      rw [List.foldl_cons, ih]
      constructor
      · rintro ⟨r, hr, hq⟩
        obtain ⟨p, hp, hr⟩ := Positions.mem_bind.1 hr
        exact ⟨p, hp, r, hr, hq⟩
      · rintro ⟨p, hp, r, hr, hq⟩
        exact ⟨r, Positions.mem_bind.2 ⟨p, hp, hr⟩, hq⟩

theorem mem_sequenceStep {ms : List Matcher} {pos q : Nat} : q ∈ sequenceStep ms pos ↔ Leads ms pos q := by
  rw [sequenceStep, mem_foldl_bind_ends]
  simp

theorem mem_choiceStep {ms : List Matcher} {pos q : Nat} : q ∈ choiceStep ms pos ↔ ∃ m ∈ ms, q ∈ m.ends pos := by
  rw [choiceStep]
  induction ms with
  | nil => simp
  | cons m ms ih => simp [ih]

end Matcher

/-! ### Groups in any order -/

namespace AllMember

variable {names : Array Name}

/-- The positions known once a match has come to a position: that one too if nothing that is left has to occur. -/
def endsAt (remaining : List AllMember) (pos : Nat) (ends : Positions) : Positions :=
  if remaining.all (·.minimum = 0) then .single pos ∪ ends else ends

theorem mem_endsAt {remaining : List AllMember} {pos : Nat} {ends : Positions} {q : Nat} :
    q ∈ endsAt remaining pos ends ↔ q ∈ ends ∨ q = pos ∧ ∀ m ∈ remaining, m.minimum = 0 := by
  rw [endsAt]
  by_cases h : ∀ m ∈ remaining, m.minimum = 0
  · rw [if_pos (by simpa using h), Positions.mem_union, Positions.mem_single, or_comm, and_iff_left h]
  · rw [if_neg (by simpa using h)]
    simp [h]

theorem matchFrom_none {remaining : List AllMember} {pos : Nat} {ends : Positions}
    (h : ∀ n, names[pos]? = some n → remaining.any (·.accepted.contains n) = false) :
    matchFrom names remaining pos ends = ⟨endsAt remaining pos ends, pos, remaining⟩ := by
  rw [matchFrom, endsAt]
  split
  · rfl
  · next n hn => exact dif_neg (by rw [h n hn]; exact Bool.false_ne_true)

theorem matchFrom_some {remaining : List AllMember} {pos : Nat} {ends : Positions} {n : Name}
    (hn : names[pos]? = some n) (h : remaining.any (·.accepted.contains n) = true) :
    matchFrom names remaining pos ends =
      matchFrom names (remaining.eraseP (·.accepted.contains n)) (pos + 1) (endsAt remaining pos ends) := by
  rw [matchFrom, endsAt, hn]
  simp only
  rw [dif_pos h]

/-- Induction over a match of such a group: it stops, or it takes the next name. -/
@[elab_as_elim]
theorem matchFrom_induct (names : Array Name) {P : List AllMember → Nat → Prop}
    (stop : ∀ remaining pos, (∀ n, names[pos]? = some n → remaining.any (·.accepted.contains n) = false) →
      P remaining pos)
    (take : ∀ remaining pos n, names[pos]? = some n → remaining.any (·.accepted.contains n) = true →
      P (remaining.eraseP (·.accepted.contains n)) (pos + 1) → P remaining pos)
    (remaining : List AllMember) (pos : Nat) : P remaining pos := by
  induction hl : remaining.length using Nat.strong_induction_on generalizing remaining pos with
  | _ l ih =>
      by_cases h : ∀ n, names[pos]? = some n → remaining.any (·.accepted.contains n) = false
      · exact stop remaining pos h
      · simp only [not_forall, Bool.not_eq_false] at h
        obtain ⟨n, hn, h⟩ := h
        refine take remaining pos n hn h (ih _ ?_ _ _ rfl)
        obtain ⟨m, hm, hp⟩ := List.any_eq_true.1 h
        have hlen := List.length_eraseP_of_mem (p := fun m : AllMember => m.accepted.contains n) hm hp
        have := List.length_pos_of_mem hm
        omega

theorem matchFrom_bounds (remaining : List AllMember) (pos : Nat) (ends : Positions) (hpos : pos ≤ names.size) :
    pos ≤ (matchFrom names remaining pos ends).stopped ∧
      (matchFrom names remaining pos ends).stopped ≤ names.size ∧
      ∀ q ∈ (matchFrom names remaining pos ends).ends, q ∈ ends ∨
        pos ≤ q ∧ q ≤ (matchFrom names remaining pos ends).stopped := by
  induction remaining, pos using matchFrom_induct names generalizing ends with
  | stop remaining pos h =>
      rw [matchFrom_none h]
      refine ⟨Nat.le_refl _, hpos, fun q hq => ?_⟩
      rcases mem_endsAt.1 hq with hq | ⟨rfl, _⟩
      · exact .inl hq
      · exact .inr ⟨Nat.le_refl _, Nat.le_refl _⟩
  | take remaining pos n hn h ih =>
      rw [matchFrom_some hn h]
      have hlt : pos < names.size := (Array.getElem?_eq_some_iff.1 hn).1
      obtain ⟨hl, hu, hends⟩ := ih (endsAt remaining pos ends) hlt
      refine ⟨by omega, hu, fun q hq => ?_⟩
      rcases hends q hq with hq | hq
      · rcases mem_endsAt.1 hq with hq | ⟨rfl, _⟩
        · exact .inl hq
        · exact .inr ⟨Nat.le_refl _, by omega⟩
      · exact .inr ⟨by omega, hq.2⟩

theorem matchFrom_accepted (remaining : List AllMember) (pos : Nat) (ends : Positions) {i : Nat} (hi : pos ≤ i)
    (hs : i < (matchFrom names remaining pos ends).stopped) :
    ∃ n, names[i]? = some n ∧ ∃ m ∈ remaining, n ∈ m.accepted := by
  induction remaining, pos using matchFrom_induct names generalizing ends with
  | stop remaining pos h =>
      rw [matchFrom_none h] at hs
      exact absurd hs (Nat.not_lt.2 hi)
  | take remaining pos n hn h ih =>
      rw [matchFrom_some hn h] at hs
      rcases Nat.eq_or_lt_of_le hi with rfl | hi
      · obtain ⟨m, hm, hp⟩ := List.any_eq_true.1 h
        exact ⟨n, hn, m, hm, by simpa using hp⟩
      · obtain ⟨n', hn', m, hm, hp⟩ := ih (endsAt remaining pos ends) hi hs
        exact ⟨n', hn', m, List.mem_of_mem_eraseP hm, hp⟩

end AllMember

namespace Matcher

variable {substitutes : Name → List Name} {names : Array Name}

theorem Leads.advances {ms : List Matcher} {last : Nat} (hms : ∀ m ∈ ms, Sweep.Advances m.ends last) {p q : Nat}
    (hp : p ≤ last) (h : Leads ms p q) : p ≤ q ∧ q ≤ last := by
  induction ms generalizing p with
  | nil =>
      obtain rfl : p = q := h
      exact ⟨Nat.le_refl _, hp⟩
  | cons m ms ih =>
      obtain ⟨hm, hms⟩ := List.forall_mem_cons.1 hms
      obtain ⟨r, hr, h⟩ := h
      obtain ⟨hl, hu⟩ := hm p hp r hr
      obtain ⟨hl', hu'⟩ := ih hms hu h
      exact ⟨by omega, hu'⟩

theorem advances_ends_of_step {p : Particle} (h : Sweep.Advances (step substitutes names p) names.size) :
    Sweep.Advances (ofParticle substitutes names p).ends names.size := by
  intro pos hpos q hq
  rw [ends_ofParticle p hpos] at hq
  obtain ⟨k, hk⟩ := exists_after_of_mem_reached hq
  exact h.after hpos hk

theorem advances_step (p : Particle) : Sweep.Advances (step substitutes names p) names.size := by
  induction p using Particle.induct with
  | element name key occurs =>
      intro pos _ q hq
      obtain ⟨n, hn, _, rfl⟩ := mem_nameStep.1 hq
      exact ⟨Nat.le_succ _, (Array.getElem?_eq_some_iff.1 hn).1⟩
  | wildcard w occurs =>
      intro pos _ q hq
      obtain ⟨n, hn, _, rfl⟩ := mem_wildcardStep.1 hq
      exact ⟨Nat.le_succ _, (Array.getElem?_eq_some_iff.1 hn).1⟩
  | group compositor members occurs source ih =>
      have hms : ∀ m ∈ members.map (ofParticle substitutes names), Sweep.Advances m.ends names.size := by
        intro m hm
        obtain ⟨p, hp, rfl⟩ := List.mem_map.1 hm
        exact advances_ends_of_step (ih p hp)
      intro pos hpos q hq
      cases compositor with
      | sequence => exact (mem_sequenceStep.1 hq).advances hms hpos
      | choice =>
          obtain ⟨m, hm, hq⟩ := mem_choiceStep.1 hq
          exact hms m hm pos hpos q hq
      | all =>
          obtain ⟨_, hu, hends⟩ := AllMember.matchFrom_bounds (allMembers substitutes members) pos .empty hpos
          have := (hends q hq).resolve_left (Positions.not_mem_empty q)
          exact ⟨this.1, by omega⟩

theorem advances_ends (p : Particle) : Sweep.Advances (ofParticle substitutes names p).ends names.size :=
  advances_ends_of_step (advances_step p)

theorem mem_ends_iff_after {p : Particle} (hp : p.occurs.IsRange) {pos : Nat} (hpos : pos ≤ names.size) {q : Nat} :
    q ∈ (ofParticle substitutes names p).ends pos ↔
      ∃ k, p.occurs.allows k ∧ q ∈ Sweep.after (step substitutes names p) pos k := by
  rw [ends_ofParticle p hpos, mem_reached_sweep (advances_step p) hpos hp]

end Matcher

end XmlSchema
