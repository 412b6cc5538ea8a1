import Mathlib
import XmlSchema.Proofs.Content.Attempts

/-!
The language of a particle: the lists of names that fit it. A match ends exactly behind the words of the language, so
that a list of names has no mismatches exactly when it is a word.
-/

namespace XmlSchema

/-- The words put together from an allowed number of words of a language. -/
def Occurs.repeated (o : Occurs) (l : Language Name) : Language Name := {w | ∃ k, o.allows k ∧ w ∈ l ^ k}

namespace Particle

variable (substitutes : Name → List Name)

mutual

/-- The words that one occurrence of a particle stands for. -/
def term : Particle → Language Name
  | element name _ _ => {w | ∃ n ∈ Matcher.accepted substitutes name, w = [n]}
  | wildcard w _ => {v | ∃ n : Name, w.allows n.uri = true ∧ v = [n]}
  | group .sequence members _ _ => (languages members).prod
  | group .choice members _ _ => (languages members).sum
  | group .all members _ _ => {w | ∃ ls : List (Language Name), ls.Perm (languages members) ∧ w ∈ ls.prod}

def languages : List Particle → List (Language Name)
  | [] => []
  | p :: ps => p.occurs.repeated (term p) :: languages ps

end

/-- The words that a particle stands for. -/
def language (p : Particle) : Language Name := p.occurs.repeated (p.term substitutes)

theorem languages_eq_map (ps : List Particle) : languages substitutes ps = ps.map (language substitutes) := by
  induction ps with
  | nil => rfl
  | cons p ps ih => rw [languages, ih, List.map_cons, language]

def isAnyOrder : Particle → Bool
  | group .all _ _ _ => true
  | _ => false

/-- The particle holds no group whose members may stand in any order. -/
def IsOrdered (p : Particle) : Prop := ∀ q ∈ p.parts, q.isAnyOrder = false

instance (p : Particle) : Decidable p.IsOrdered := inferInstanceAs (Decidable (∀ q ∈ p.parts, _))

theorem IsOrdered.member {compositor : Compositor} {members : List Particle} {occurs : Occurs} {source : Option Name}
    (h : (group compositor members occurs source).IsOrdered) {m : Particle} (hm : m ∈ members) : m.IsOrdered :=
  fun q hq => h q (mem_parts_group.2 (.inr ⟨m, hm, hq⟩))

theorem IsOrdered.hasSingles {p : Particle} (h : p.IsOrdered) : p.HasSingles :=
  fun _ _ _ hq => Bool.noConfusion (h _ hq)

end Particle

/-- A word of the language stands between two positions. -/
def Spells {α : Type} (names : List α) (l : Language α) (pos q : Nat) : Prop :=
  ∃ w ∈ l, w <+: names.drop pos ∧ q = pos + w.length

namespace Spells

variable {α : Type} {names : List α} {l m : Language α} {pos q : Nat}

theorem append_prefix_drop {u v : List α} :
    u ++ v <+: names.drop pos ↔ u <+: names.drop pos ∧ v <+: names.drop (pos + u.length) := by
  constructor
  · intro h
    refine ⟨(List.prefix_append u v).trans h, ?_⟩
    obtain ⟨w, hw⟩ := h
    refine ⟨w, ?_⟩
    rw [← List.drop_drop, ← hw, List.append_assoc, List.drop_left]
  · rintro ⟨⟨w, hw⟩, h⟩
    rw [← List.drop_drop, ← hw, List.drop_left] at h
    rw [← hw]
    exact (List.prefix_append_right_inj u).2 h

theorem one_iff : Spells names 1 pos q ↔ q = pos := by
  simp [Spells, Language.mem_one]

theorem mul_iff : Spells names (l * m) pos q ↔ ∃ r, Spells names l pos r ∧ Spells names m r q := by
  constructor
  · rintro ⟨w, hw, hp, rfl⟩
    obtain ⟨u, hu, v, hv, rfl⟩ := Language.mem_mul.1 hw
    obtain ⟨hpu, hpv⟩ := append_prefix_drop.1 hp
    exact ⟨pos + u.length, ⟨u, hu, hpu, rfl⟩, v, hv, hpv, by rw [List.length_append]; omega⟩
  · rintro ⟨r, ⟨u, hu, hpu, rfl⟩, v, hv, hpv, rfl⟩
    exact ⟨u ++ v, Language.append_mem_mul hu hv, append_prefix_drop.2 ⟨hpu, hpv⟩, by
      rw [List.length_append]; omega⟩

theorem singleton_prefix_drop {n : α} : [n] <+: names.drop pos ↔ names[pos]? = some n := by
  rw [← List.head?_drop]
  cases names.drop pos <;> simp [eq_comm]

theorem of_singleton {n : α} (hn : names[pos]? = some n) (h : [n] ∈ l) : Spells names l pos (pos + 1) :=
  ⟨[n], h, singleton_prefix_drop.2 hn, rfl⟩

theorem singleton_iff {P : α → Prop} :
    Spells names {w | ∃ n, P n ∧ w = [n]} pos q ↔ ∃ n, names[pos]? = some n ∧ P n ∧ q = pos + 1 := by
  constructor
  · rintro ⟨w, ⟨n, hn, rfl⟩, hp, rfl⟩
    exact ⟨n, singleton_prefix_drop.1 hp, hn, rfl⟩
  · rintro ⟨n, hn, hP, rfl⟩
    exact of_singleton hn ⟨n, hP, rfl⟩

theorem sum_iff {ls : List (Language α)} : Spells names ls.sum pos q ↔ ∃ l ∈ ls, Spells names l pos q := by
  induction ls with
  | nil => simp [Spells]
  | cons l ls ih =>
      rw [List.sum_cons, List.exists_mem_cons_iff, ← ih]
      simp only [Spells, Language.mem_add, or_and_right, exists_or]

theorem le_length (h : Spells names l pos q) (hpos : pos ≤ names.length) : pos ≤ q ∧ q ≤ names.length := by
  obtain ⟨w, _, hp, rfl⟩ := h
  have := hp.length_le
  rw [List.length_drop] at this
  omega

theorem iff_extract (hpos : pos ≤ names.length) :
    Spells names l pos q ↔ pos ≤ q ∧ q ≤ names.length ∧ names.extract pos q ∈ l := by
  constructor
  · intro h
    obtain ⟨hl, hu⟩ := h.le_length hpos
    obtain ⟨w, hw, hp, rfl⟩ := h
    rw [List.extract_eq_take_drop, Nat.add_sub_cancel_left, ← List.prefix_iff_eq_take.1 hp]
    exact ⟨hl, hu, hw⟩
  · rintro ⟨hl, hu, h⟩
    refine ⟨names.extract pos q, h, ?_, ?_⟩
    · rw [List.extract_eq_take_drop]
      exact List.take_prefix _ _
    · rw [List.extract_eq_take_drop, List.length_take, List.length_drop]
      omega

end Spells

namespace Matcher

variable {substitutes : Name → List Name} {names : List Name}

/-! ### Every end stands behind a word -/

theorem spells_of_mem_after {α : Type} {names : List α} {step : Nat → Positions} {l : Language α}
    (hstep : Sweep.Advances step names.length) (h : ∀ p ≤ names.length, ∀ q ∈ step p, Spells names l p q) {pos : Nat}
    (hpos : pos ≤ names.length) {k q : Nat} (hq : q ∈ Sweep.after step pos k) : Spells names (l ^ k) pos q := by
  induction k generalizing q with
  | zero => rwa [pow_zero, Spells.one_iff, ← Sweep.mem_after_zero]
  | succ k ih =>
      obtain ⟨p, hp, hq⟩ := Sweep.mem_after_succ.1 hq
      rw [pow_succ, Spells.mul_iff]
      exact ⟨p, ih hp, h p (hstep.after hpos hp).2 q hq⟩

theorem spells_of_mem_ends_of_step {p : Particle} (hp : p.HasRanges) {l : Language Name}
    (h : ∀ pos ≤ names.length, ∀ q ∈ step substitutes names.toArray p pos, Spells names l pos q)
    {pos : Nat} (hpos : pos ≤ names.length) {q : Nat} (hq : q ∈ (ofParticle substitutes names.toArray p).ends pos) :
    Spells names (p.occurs.repeated l) pos q := by
  have hsize : pos ≤ names.toArray.size := hpos
  obtain ⟨k, hk, hq⟩ := (mem_ends_iff_after hp.occurs hsize).1 hq
  obtain ⟨w, hw, hw'⟩ := spells_of_mem_after (advances_step p) h hpos hq
  exact ⟨w, ⟨k, hk, hw⟩, hw'⟩

theorem spells_of_leads {ps : List Particle} {l : Particle → Language Name}
    (h : ∀ p ∈ ps, ∀ pos ≤ names.length, ∀ q ∈ (ofParticle substitutes names.toArray p).ends pos,
      Spells names (l p) pos q)
    {pos : Nat} (hpos : pos ≤ names.length) {q : Nat}
    (hq : Leads (ps.map (ofParticle substitutes names.toArray)) pos q) : Spells names (ps.map l).prod pos q := by
  induction ps generalizing pos with
  | nil => rwa [List.map_nil, List.prod_nil, Spells.one_iff, eq_comm]
  | cons p ps ih =>
      obtain ⟨hp, hps⟩ := List.forall_mem_cons.1 h
      obtain ⟨r, hr, hq⟩ := hq
      rw [List.map_cons, List.prod_cons, Spells.mul_iff]
      have hr := hp pos hpos r hr
      exact ⟨r, hr, ih hps (hr.le_length hpos).2 hq⟩

end Matcher

namespace AllMember

variable {substitutes : Name → List Name} {names : List Name}

/-- The member of a group in any order that an element stands for. -/
def ofSingle (substitutes : Name → List Name) : Particle → AllMember
  | .element name _ occurs => ⟨Matcher.accepted substitutes name, occurs.min, Particle.elementLabel name⟩
  | p => ⟨[], p.occurs.min, []⟩

theorem allMembers_eq_map {ms : List Particle} (hms : ∀ m ∈ ms, m.isSingle = true) :
    Matcher.allMembers substitutes ms = ms.map (ofSingle substitutes) := by
  induction ms with
  | nil => rfl
  | cons m ms ih =>
      obtain ⟨hm, hlater⟩ := List.forall_mem_cons.1 hms
      obtain ⟨name, key, occurs, rfl, _⟩ := Particle.isSingle_iff.1 hm
      exact congrArg (_ :: ·) (ih hlater)

/-- A single element may be left out if it does not have to occur. -/
theorem nil_mem_language {m : Particle} (hm : m.isSingle = true) (h : (ofSingle substitutes m).minimum = 0) :
    [] ∈ m.language substitutes := by
  obtain ⟨name, key, occurs, rfl, _⟩ := Particle.isSingle_iff.1 hm
  have hmin : occurs.min = 0 := h
  exact ⟨0, ⟨Nat.le_of_eq hmin, fun _ _ => Nat.zero_le _⟩, by rw [pow_zero]; exact Language.nil_mem_one⟩

theorem singleton_mem_language {m : Particle} (hm : m.isSingle = true) (hr : m.occurs.IsRange) {n : Name}
    (hn : n ∈ (ofSingle substitutes m).accepted) : [n] ∈ m.language substitutes := by
  obtain ⟨name, key, occurs, rfl, hmax⟩ := Particle.isSingle_iff.1 hm
  refine ⟨1, ⟨hr 1 hmax, fun k hk => ?_⟩, ?_⟩
  · exact Nat.le_of_eq (Option.some.inj (hmax.symm.trans hk))
  · rw [pow_one]
    exact ⟨n, hn, rfl⟩

theorem spells_prod_of_forall_nil {ls : List (Language Name)} (h : ∀ l ∈ ls, [] ∈ l) (pos : Nat) :
    Spells names ls.prod pos pos := by
  induction ls with
  | nil => rw [List.prod_nil, Spells.one_iff]
  | cons l ls ih =>
      obtain ⟨hl, hls⟩ := List.forall_mem_cons.1 h
      rw [List.prod_cons, Spells.mul_iff]
      exact ⟨pos, ⟨[], hl, List.nil_prefix, rfl⟩, ih hls⟩

theorem spells_of_mem_endsAt {ms : List Particle} (hms : ∀ m ∈ ms, m.isSingle = true ∧ m.occurs.IsRange) {pos q : Nat}
    {ends : Positions} (hq : q ∈ endsAt (ms.map (ofSingle substitutes)) pos ends) :
    q ∈ ends ∨ ∃ ls : List (Language Name), ls.Perm (ms.map (Particle.language substitutes)) ∧
      Spells names ls.prod pos q := by
  refine (mem_endsAt.1 hq).imp_right ?_
  rintro ⟨rfl, hnone⟩
  refine ⟨_, .refl _, spells_prod_of_forall_nil (List.forall_mem_map.2 fun m hm => ?_) _⟩
  exact nil_mem_language (hms m hm).1 (hnone _ (List.mem_map_of_mem hm))

/-- What such a match takes is put together from words of its members, in the order in which it takes them. -/
theorem spells_of_mem_matchFrom (remaining : List AllMember) (pos : Nat) {ms : List Particle}
    (hms : ∀ m ∈ ms, m.isSingle = true ∧ m.occurs.IsRange) (he : remaining = ms.map (ofSingle substitutes))
    {ends : Positions} {q : Nat} (hq : q ∈ (matchFrom names.toArray remaining pos ends).ends) :
    q ∈ ends ∨ ∃ ls : List (Language Name), ls.Perm (ms.map (Particle.language substitutes)) ∧
      Spells names ls.prod pos q := by
  induction remaining, pos using matchFrom_induct names.toArray generalizing ms ends with
  | stop remaining pos h =>
      subst he
      rw [matchFrom_none h] at hq
      exact spells_of_mem_endsAt hms hq
  | take remaining pos n hn h ih =>
      subst he
      rw [matchFrom_some hn h] at hq
      obtain ⟨m', hm', hn'⟩ := List.any_eq_true.1 h
      obtain ⟨m, hm, rfl⟩ := List.mem_map.1 hm'
      obtain ⟨m, before, behind, _, haccepts, rfl, hrest⟩ := List.exists_of_eraseP
        (p := fun m => (ofSingle substitutes m).accepted.contains n) hm hn'
      have hmem : m ∈ before ++ m :: behind := List.mem_append_right _ List.mem_cons_self
      have hlater : ∀ m' ∈ before ++ behind, m'.isSingle = true ∧ m'.occurs.IsRange := fun m' hm' =>
        hms m' (List.perm_middle.mem_iff.2 (List.mem_cons_of_mem m hm'))
      rcases ih hlater (by rw [List.eraseP_map, ← hrest]; rfl) hq with hq | ⟨ls, hls, hspells⟩
      · exact spells_of_mem_endsAt hms hq
      · refine .inr ⟨m.language substitutes :: ls, ?_, ?_⟩
        · exact (hls.cons _).trans (List.perm_middle.symm.map (Particle.language substitutes))
        · have hname : [n] ∈ m.language substitutes :=
            singleton_mem_language (hms m hmem).1 (hms m hmem).2 (by simpa using haccepts)
          rw [List.getElem?_toArray] at hn
          rw [List.prod_cons, Spells.mul_iff]
          exact ⟨pos + 1, .of_singleton hn hname, hspells⟩

end AllMember

namespace Matcher

variable {substitutes : Name → List Name} {names : List Name}

theorem spells_of_mem_step {p : Particle} (hp : p.HasRanges) (hs : p.HasSingles) {pos : Nat}
    (hpos : pos ≤ names.length) {q : Nat} (hq : q ∈ step substitutes names.toArray p pos) :
    Spells names (p.term substitutes) pos q := by
  induction p using Particle.induct generalizing pos q with
  | element name key occurs =>
      rw [step, mem_nameStep, List.getElem?_toArray] at hq
      rwa [Particle.term, Spells.singleton_iff]
  | wildcard w occurs =>
      rw [step, mem_wildcardStep, List.getElem?_toArray] at hq
      rwa [Particle.term, Spells.singleton_iff]
  | group compositor members occurs source ih =>
      have hends : ∀ m ∈ members, ∀ pos ≤ names.length, ∀ q ∈ (ofParticle substitutes names.toArray m).ends pos,
          Spells names (m.language substitutes) pos q := by
        intro m hm pos hpos q hq
        exact spells_of_mem_ends_of_step (hp.member hm) (fun _ h _ => ih m hm (hp.member hm) (hs.member hm) h) hpos hq
      cases compositor with
      | sequence =>
          rw [Particle.term, Particle.languages_eq_map]
          exact spells_of_leads hends hpos (mem_sequenceStep.1 hq)
      | choice =>
          obtain ⟨m', hm', hq⟩ := mem_choiceStep.1 hq
          obtain ⟨m, hm, rfl⟩ := List.mem_map.1 hm'
          rw [Particle.term, Particle.languages_eq_map, Spells.sum_iff]
          exact ⟨_, List.mem_map_of_mem hm, hends m hm pos hpos q hq⟩
      | all =>
          have hsingle := hs members occurs source (Particle.mem_parts_self _)
          change q ∈ (AllMember.matchFrom names.toArray (allMembers substitutes members) pos .empty).ends at hq
          rw [AllMember.allMembers_eq_map hsingle] at hq
          have hms : ∀ m ∈ members, m.isSingle = true ∧ m.occurs.IsRange :=
            fun m hm => ⟨hsingle m hm, (hp.member hm).occurs⟩
          rcases AllMember.spells_of_mem_matchFrom _ pos hms rfl hq with hq | ⟨ls, hls, w, hw, hw'⟩
          · exact absurd hq (Positions.not_mem_empty q)
          · rw [Particle.term, Particle.languages_eq_map]
            exact ⟨w, ⟨ls, hls, hw⟩, hw'⟩

/-! ### Behind every word stands an end -/

theorem mem_after_of_spells {α : Type} {names : List α} {step : Nat → Positions} {l : Language α}
    (h : ∀ p ≤ names.length, ∀ q, Spells names l p q → q ∈ step p) {pos : Nat} (hpos : pos ≤ names.length) {k q : Nat}
    (hq : Spells names (l ^ k) pos q) : q ∈ Sweep.after step pos k := by
  induction k generalizing q with
  | zero =>
      rw [pow_zero, Spells.one_iff] at hq
      rwa [Sweep.mem_after_zero]
  | succ k ih =>
      rw [pow_succ, Spells.mul_iff] at hq
      obtain ⟨p, hp, hq⟩ := hq
      exact Sweep.mem_after_succ.2 ⟨p, ih hp, h p (hp.le_length hpos).2 q hq⟩

theorem mem_ends_of_spells {p : Particle} (hp : p.HasRanges) {l : Language Name}
    (h : ∀ pos ≤ names.length, ∀ q, Spells names l pos q → q ∈ step substitutes names.toArray p pos)
    {pos : Nat} (hpos : pos ≤ names.length) {q : Nat} (hq : Spells names (p.occurs.repeated l) pos q) :
    q ∈ (ofParticle substitutes names.toArray p).ends pos := by
  obtain ⟨w, ⟨k, hk, hw⟩, hw'⟩ := hq
  have hsize : pos ≤ names.toArray.size := hpos
  exact (mem_ends_iff_after hp.occurs hsize).2 ⟨k, hk, mem_after_of_spells h hpos ⟨w, hw, hw'⟩⟩

theorem leads_of_spells {ps : List Particle} {l : Particle → Language Name}
    (h : ∀ p ∈ ps, ∀ pos ≤ names.length, ∀ q, Spells names (l p) pos q →
      q ∈ (ofParticle substitutes names.toArray p).ends pos)
    {pos : Nat} (hpos : pos ≤ names.length) {q : Nat} (hq : Spells names (ps.map l).prod pos q) :
    Leads (ps.map (ofParticle substitutes names.toArray)) pos q := by
  induction ps generalizing pos with
  | nil => exact (Spells.one_iff.1 hq).symm
  | cons p ps ih =>
      obtain ⟨hp, hps⟩ := List.forall_mem_cons.1 h
      rw [List.map_cons, List.prod_cons, Spells.mul_iff] at hq
      obtain ⟨r, hr, hq⟩ := hq
      exact ⟨r, hp pos hpos r hr, ih hps (hr.le_length hpos).2 hq⟩

theorem mem_step_of_spells {p : Particle} (hp : p.HasRanges) (ho : p.IsOrdered) {pos : Nat}
    (hpos : pos ≤ names.length) {q : Nat} (hq : Spells names (p.term substitutes) pos q) :
    q ∈ step substitutes names.toArray p pos := by
  induction p using Particle.induct generalizing pos q with
  | element name key occurs =>
      rw [step, mem_nameStep, List.getElem?_toArray]
      rwa [Particle.term, Spells.singleton_iff] at hq
  | wildcard w occurs =>
      rw [step, mem_wildcardStep, List.getElem?_toArray]
      rwa [Particle.term, Spells.singleton_iff] at hq
  | group compositor members occurs source ih =>
      have hends : ∀ m ∈ members, ∀ pos ≤ names.length, ∀ q, Spells names (m.language substitutes) pos q →
          q ∈ (ofParticle substitutes names.toArray m).ends pos := by
        intro m hm pos hpos q hq
        exact mem_ends_of_spells (hp.member hm) (fun _ h _ => ih m hm (hp.member hm) (ho.member hm) h) hpos hq
      cases compositor with
      | sequence =>
          rw [Particle.term, Particle.languages_eq_map] at hq
          exact mem_sequenceStep.2 (leads_of_spells hends hpos hq)
      | choice =>
          rw [Particle.term, Particle.languages_eq_map, Spells.sum_iff] at hq
          obtain ⟨l, hl, hq⟩ := hq
          obtain ⟨m, hm, rfl⟩ := List.mem_map.1 hl
          exact mem_choiceStep.2 ⟨_, List.mem_map_of_mem hm, hends m hm pos hpos q hq⟩
      | all => exact absurd (ho _ (Particle.mem_parts_self _)) (by simp [Particle.isAnyOrder])

/-! ### Ends are what stands behind words -/

theorem mem_after_iff {α : Type} {names : List α} {step : Nat → Positions} {l : Language α}
    (hstep : Sweep.Advances step names.length)
    (h : ∀ p ≤ names.length, ∀ q, q ∈ step p ↔ Spells names l p q) {pos : Nat} (hpos : pos ≤ names.length) {k q : Nat} :
    q ∈ Sweep.after step pos k ↔ Spells names (l ^ k) pos q :=
  ⟨spells_of_mem_after hstep (fun p hp q => (h p hp q).1) hpos, mem_after_of_spells (fun p hp q => (h p hp q).2) hpos⟩

theorem mem_step_iff {p : Particle} (hp : p.HasRanges) (ho : p.IsOrdered) {pos : Nat} (hpos : pos ≤ names.length)
    {q : Nat} : q ∈ step substitutes names.toArray p pos ↔ Spells names (p.term substitutes) pos q :=
  ⟨spells_of_mem_step hp ho.hasSingles hpos, mem_step_of_spells hp ho hpos⟩

theorem mem_ends_iff {p : Particle} (hp : p.HasRanges) (ho : p.IsOrdered) {pos : Nat} (hpos : pos ≤ names.length)
    {q : Nat} : q ∈ (ofParticle substitutes names.toArray p).ends pos ↔
      Spells names (p.language substitutes) pos q :=
  ⟨spells_of_mem_ends_of_step hp (fun _ h _ => spells_of_mem_step hp ho.hasSingles h) hpos,
    mem_ends_of_spells hp (fun _ h _ => mem_step_of_spells hp ho h) hpos⟩

end Matcher

theorem Content.fits_iff_mem_language {substitutes : Name → List Name} {p : Particle} (hp : p.HasRanges)
    (ho : p.IsOrdered) {names : List Name} :
    (attempt substitutes p names).fits = true ↔ names ∈ p.language substitutes := by
  rw [attempt_fits_iff, Matcher.mem_ends_iff hp ho (Nat.zero_le _), Spells.iff_extract (Nat.zero_le _)]
  simp

/-- Matching is exact: it ends at every position behind a word of the particle's language and at no other, and there
are no mismatches exactly when all names are a word. -/
theorem matching_exact (substitutes : Name → List Name) (p : Particle) (hp : p.HasRanges) (ho : p.IsOrdered)
    (names : List Name) :
    (∀ pos ≤ names.length, ∀ q, q ∈ (Matcher.ofParticle substitutes names.toArray p).ends pos ↔
      pos ≤ q ∧ q ≤ names.length ∧ names.extract pos q ∈ p.language substitutes) ∧
    ((Content.recover substitutes (some p) names).mismatches = [] ↔ names ∈ p.language substitutes) := by
  constructor
  · intro pos hpos q
    rw [Matcher.mem_ends_iff hp ho hpos, Spells.iff_extract hpos]
  · rw [Content.recover_eq, Content.recoverFrom_eq_nil_iff, Content.namesOf_indexed]
    exact Content.fits_iff_mem_language hp ho

/-- At least three times two or three choices, each of which may come to nothing. -/
def nestedChoices : Particle :=
  .group .sequence [.group .choice [.element ⟨[], "a"⟩ .named ⟨0, some 1⟩, .wildcard ⟨.within ["u"], .lax⟩ ⟨0, none⟩]
    ⟨2, some 3⟩ none] ⟨3, none⟩ none

theorem matching_exact_nestedChoices : nestedChoices.HasRanges ∧ nestedChoices.IsOrdered ∧
    [⟨[], "a"⟩, ⟨"u", "b"⟩, ⟨[], "a"⟩] ∈ nestedChoices.language (fun _ => []) ∧
    [⟨[], "a"⟩, ⟨"v", "b"⟩] ∉ nestedChoices.language (fun _ => []) := by
  have hr : nestedChoices.HasRanges := by decide
  have ho : nestedChoices.IsOrdered := by decide
  have hends : ((Matcher.ofParticle (fun _ => []) [⟨[], "a"⟩, ⟨"v", "b"⟩].toArray nestedChoices).ends 0).contains 2 =
      false := by cbv
  rw [← Bool.not_eq_true, Positions.contains_iff] at hends
  refine ⟨hr, ho, (matching_exact _ nestedChoices hr ho _).2.1 (by cbv), fun h => hends ?_⟩
  exact Content.recover_eq_nil_iff.1 ((matching_exact _ nestedChoices hr ho _).2.2 h)

end XmlSchema
