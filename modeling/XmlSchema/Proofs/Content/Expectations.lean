import XmlSchema.Proofs.Content.Followers

/-!
What a mismatch expects. An exploration finds missing, at the furthest position that it comes to, exactly the leaves that
may follow there. Their labels are what the first mismatch lists.
-/

namespace XmlSchema

namespace Matcher

section

variable (substitutes : Name → List Name) (names : Array Name)

/-- What an exploration finds missing inside a particle that is tried at some positions. -/
def expectedInside (place : Option SharedPlace) (tried : Positions) : Particle → List (Nat × Text)
  | .group .sequence members _ source => (exploreInTurn substitutes names source place 0 tried
      (members.map (ofParticle substitutes names))).expected
  | .group .choice members _ source => (exploreEach substitutes names source place 0 tried
      (members.map (ofParticle substitutes names))).expected
  | .group .all members _ _ => (tried.toList.map (allStep substitutes names members)).flatMap fun m =>
      (AllMember.missing m.left).map (m.stopped, ·)
  | leaf => misses (step substitutes names leaf) leaf.leafLabel tried

theorem expected_explore (place : Option SharedPlace) (starts : Positions) (p : Particle) :
    (explore substitutes names place starts (ofParticle substitutes names p)).expected =
      expectedInside substitutes names place (triedFrom substitutes names starts p) p := by
  cases p with
  | element => rfl
  | wildcard => rfl
  | group compositor members occurs source =>
      have h := ofParticles_eq_map substitutes names members
      cases compositor <;>
        simp only [triedFrom, expectedInside, sweep, ofParticle, explore, h, Findings.within]

theorem mem_misses {step : Nat → Positions} {label label' : Text} {tried : Positions} {q : Nat} :
    (q, label) ∈ misses step label' tried ↔ q ∈ tried ∧ label' = label ∧ ∀ r, r ∉ step q := by
  simp only [misses, List.mem_filterMap, Option.ite_none_right_eq_some, Positions.isEmpty_iff, Option.some.injEq,
    Prod.mk.injEq]
  constructor
  · rintro ⟨pos, hpos, hnone, rfl, rfl⟩
    exact ⟨hpos, rfl, hnone⟩
  · rintro ⟨hq, rfl, hnone⟩
    exact ⟨q, hq, hnone, rfl, rfl⟩

end

variable {substitutes : Name → List Name} {names : List Name} {place : Option SharedPlace} {starts : Positions}
  {p : Particle} {label : Text} {q : Nat}

/-- A leaf of that label may take the name at a position behind one of the starts, but does not accept it. -/
def IsMissing (substitutes : Name → List Name) (names : List Name) (starts : Positions)
    (ds : Language (Name × Particle)) (q : Nat) (label : Text) : Prop :=
  ∃ leaf, leaf.leafLabel = label ∧ (¬∃ n, names[q]? = some n ∧ leaf.takes substitutes n) ∧
    ∃ s ∈ starts, Spells names (Particle.wordsBefore leaf ds) s q

/-- An exploration finds missing what may follow. -/
def FindsMissing (substitutes : Name → List Name) (names : List Name) (p : Particle) : Prop :=
  ∀ place starts, (∀ s ∈ starts, s ≤ names.length) → ∀ q label,
    (q, label) ∈ (explore substitutes names.toArray place starts (ofParticle substitutes names.toArray p)).expected ↔
      IsMissing substitutes names starts (p.derivations substitutes) q label

theorem findsMissing_of_inside (hp : p.HasRanges) (ho : p.IsOrdered) (hs : p.IsSatisfiable)
    (hinside : ∀ place tried, (∀ t ∈ tried, t ≤ names.length) → ∀ q label,
      (q, label) ∈ expectedInside substitutes names.toArray place tried p ↔
        IsMissing substitutes names tried (p.termDerivations substitutes) q label) :
    FindsMissing substitutes names p := by
  intro place starts hstarts q label
  rw [expected_explore, hinside _ _ (triedFrom_le hp ho hstarts)]
  apply exists_congr
  intro leaf
  apply and_congr_right'
  apply and_congr_right'
  constructor
  · rintro ⟨t, ht, hspells⟩
    obtain ⟨s, hmem, k, hk, ht⟩ := (mem_triedFrom_iff hp ho hstarts).1 ht
    exact ⟨s, hmem, (Particle.spells_before_iff hp ho hs).2 ⟨k, hk, t, ht, hspells⟩⟩
  · rintro ⟨s, hmem, hspells⟩
    obtain ⟨k, hk, t, ht, hspells⟩ := (Particle.spells_before_iff hp ho hs).1 hspells
    exact ⟨t, (mem_triedFrom_iff hp ho hstarts).2 ⟨s, hmem, k, hk, ht⟩, hspells⟩

theorem isMissing_leaf_iff {P : Name → Prop} (hP : ∃ n, P n) {tried : Positions} {leaf : Particle}
    {step : Nat → Positions}
    (hstep : ∀ r, r ∈ step q ↔ ∃ n, names[q]? = some n ∧ leaf.takes substitutes n ∧ r = q + 1) :
    (q, label) ∈ misses step leaf.leafLabel tried ↔
      IsMissing substitutes names tried {d | ∃ n, P n ∧ d = [(n, leaf)]} q label := by
  have hnone : (∀ r, r ∉ step q) ↔ ¬∃ n, names[q]? = some n ∧ leaf.takes substitutes n := by
    constructor
    · rintro h ⟨n, hn, htakes⟩
      exact h (q + 1) ((hstep _).2 ⟨n, hn, htakes, rfl⟩)
    · intro h r hr
      obtain ⟨n, hn, htakes, _⟩ := (hstep r).1 hr
      exact h ⟨n, hn, htakes⟩
  rw [mem_misses, hnone]
  constructor
  · rintro ⟨hq, hlabel, hnot⟩
    exact ⟨leaf, hlabel, hnot, q, hq, [], (Particle.mem_wordsBefore_leaf hP).2 ⟨rfl, rfl⟩, List.nil_prefix, rfl⟩
  · rintro ⟨other, hlabel, hnot, s, hs, u, hu, _, rfl⟩
    obtain ⟨rfl, rfl⟩ := (Particle.mem_wordsBefore_leaf hP).1 hu
    exact ⟨hs, hlabel, hnot⟩

theorem not_isMissing_of_isEmpty {ds : Language (Name × Particle)} (he : starts.isEmpty = true) :
    ¬IsMissing substitutes names starts ds q label := by
  rintro ⟨_, _, _, s, hs, _⟩
  exact Positions.isEmpty_iff.1 he s hs

theorem not_isMissing_one : ¬IsMissing substitutes names starts 1 q label := by
  rintro ⟨leaf, _, _, s, _, u, hu, _⟩
  rw [Particle.wordsBefore_one] at hu
  exact Language.notMem_zero u hu

theorem isMissing_mul_iff {m : Language (Name × Particle)} (hp : p.HasRanges) (ho : p.IsOrdered)
    (hstarts : ∀ s ∈ starts, s ≤ names.length) (hm : ∃ w, w ∈ m) :
    IsMissing substitutes names starts (p.derivations substitutes * m) q label ↔
      IsMissing substitutes names starts (p.derivations substitutes) q label ∨
        IsMissing substitutes names (endsFrom substitutes names.toArray starts p) m q label := by
  have hsplit (leaf : Particle) (s : Nat) :
      Spells names (Particle.wordsBefore leaf (p.derivations substitutes * m)) s q ↔
        Spells names (Particle.wordsBefore leaf (p.derivations substitutes)) s q ∨
          ∃ r, Spells names (p.language substitutes) s r ∧ Spells names (Particle.wordsBefore leaf m) r q := by
    rw [Particle.wordsBefore_mul hm, Particle.map_derivations, ← Spells.mul_iff]
    simp only [Spells, Language.mem_add, or_and_right, exists_or]
  constructor
  · rintro ⟨leaf, hlabel, hnot, s, hs, hspells⟩
    rcases (hsplit leaf s).1 hspells with hspells | ⟨r, hr, hspells⟩
    · exact .inl ⟨leaf, hlabel, hnot, s, hs, hspells⟩
    · exact .inr ⟨leaf, hlabel, hnot, r, (mem_endsFrom_iff hp ho hstarts).2 ⟨s, hs, hr⟩, hspells⟩
  · rintro (⟨leaf, hlabel, hnot, s, hs, hspells⟩ | ⟨leaf, hlabel, hnot, r, hr, hspells⟩)
    · exact ⟨leaf, hlabel, hnot, s, hs, (hsplit leaf s).2 (.inl hspells)⟩
    · obtain ⟨s, hs, hr⟩ := (mem_endsFrom_iff hp ho hstarts).1 hr
      exact ⟨leaf, hlabel, hnot, s, hs, (hsplit leaf s).2 (.inr ⟨r, hr, hspells⟩)⟩

theorem isMissing_sum_iff {ls : List (Language (Name × Particle))} :
    IsMissing substitutes names starts ls.sum q label ↔ ∃ l ∈ ls, IsMissing substitutes names starts l q label := by
  constructor
  · rintro ⟨leaf, hlabel, hnot, s, hs, hspells⟩
    rw [Particle.wordsBefore_sum, Spells.sum_iff] at hspells
    obtain ⟨_, hmem, hspells⟩ := hspells
    obtain ⟨m, hm, rfl⟩ := List.mem_map.1 hmem
    exact ⟨m, hm, leaf, hlabel, hnot, s, hs, hspells⟩
  · rintro ⟨l, hl, leaf, hlabel, hnot, s, hs, hspells⟩
    refine ⟨leaf, hlabel, hnot, s, hs, ?_⟩
    rw [Particle.wordsBefore_sum, Spells.sum_iff]
    exact ⟨_, List.mem_map_of_mem hl, hspells⟩

theorem mem_expected_inTurn_iff {source : Option Name} {i : Nat} {ps : List Particle}
    (hps : ∀ p ∈ ps, p.HasRanges ∧ p.IsOrdered ∧ p.IsSatisfiable) (ih : ∀ p ∈ ps, FindsMissing substitutes names p)
    (hstarts : ∀ s ∈ starts, s ≤ names.length) :
    (q, label) ∈ (exploreInTurn substitutes names.toArray source place i starts
        (ps.map (ofParticle substitutes names.toArray))).expected ↔
      IsMissing substitutes names starts (ps.map (Particle.derivations substitutes)).prod q label := by
  induction ps generalizing i starts with
  | nil => exact ⟨fun h => absurd h List.not_mem_nil, fun h => absurd h not_isMissing_one⟩
  | cons p ps ihps =>
      rw [List.forall_mem_cons] at hps ih
      obtain ⟨⟨hp, ho, hs⟩, hps⟩ := hps
      rw [List.map_cons, List.map_cons, List.prod_cons, exploreInTurn]
      split
      · next he => exact ⟨fun h => absurd h List.not_mem_nil, fun h => absurd h (not_isMissing_of_isEmpty he)⟩
      · have hlater : ∃ w, w ∈ (ps.map (Particle.derivations substitutes)).prod := by
          apply Particle.exists_mem_prod
          rw [List.forall_mem_map]
          intro p hp
          obtain ⟨hp, ho, hs⟩ := hps p hp
          exact Particle.exists_mem_derivations hp ho hs
        rw [isMissing_mul_iff hp ho hstarts hlater, ← ih.1 _ _ hstarts, ← ihps hps ih.2 (endsFrom_le hp ho hstarts)]
        exact List.mem_append

theorem mem_expected_each_iff {source : Option Name} {i : Nat} {ps : List Particle}
    (ih : ∀ p ∈ ps, FindsMissing substitutes names p) (hstarts : ∀ s ∈ starts, s ≤ names.length) :
    (q, label) ∈ (exploreEach substitutes names.toArray source place i starts
        (ps.map (ofParticle substitutes names.toArray))).expected ↔
      ∃ p ∈ ps, IsMissing substitutes names starts (p.derivations substitutes) q label := by
  induction ps generalizing i with
  | nil => simp [exploreEach, Findings.none]
  | cons p ps ihps =>
      rw [List.forall_mem_cons] at ih
      rw [List.exists_mem_cons_iff, ← ih.1 _ _ hstarts, ← ihps ih.2]
      exact List.mem_append

theorem findsMissing (p : Particle) (hp : p.HasRanges) (ho : p.IsOrdered) (hs : p.IsSatisfiable) :
    FindsMissing substitutes names p := by
  induction p using Particle.induct with
  | element name key occurs =>
      refine findsMissing_of_inside hp ho hs fun _ _ _ q _ => isMissing_leaf_iff ⟨name, List.mem_cons_self⟩ fun r => ?_
      rw [← List.getElem?_toArray]
      exact mem_nameStep
  | wildcard w occurs =>
      obtain ⟨uri, h⟩ := (hs _ (Particle.mem_parts_self _)).1
      refine findsMissing_of_inside hp ho hs fun _ _ _ q _ => isMissing_leaf_iff ⟨⟨uri, []⟩, h⟩ fun r => ?_
      rw [← List.getElem?_toArray]
      exact mem_wildcardStep
  | group compositor members occurs source ih =>
      have ih' : ∀ m ∈ members, FindsMissing substitutes names m := fun m hm =>
        ih m hm (hp.member hm) (ho.member hm) (hs.member hm)
      refine findsMissing_of_inside hp ho hs fun place tried ht q label => ?_
      cases compositor with
      | sequence =>
          rw [Particle.termDerivations, Particle.derivationsOfAll_eq_map]
          exact mem_expected_inTurn_iff (fun m hm => ⟨hp.member hm, ho.member hm, hs.member hm⟩) ih' ht
      | choice =>
          rw [Particle.termDerivations, Particle.derivationsOfAll_eq_map, isMissing_sum_iff, expectedInside,
            mem_expected_each_iff ih' ht]
          simp only [List.mem_map, exists_exists_and_eq_and]
      | all => exact absurd (ho _ (Particle.mem_parts_self _)) (by simp [Particle.isAnyOrder])

end Matcher

/-! ### What a mismatch says -/

namespace Mismatch

/-- What is wrong behind the first names when some labels are expected there. -/
def behind (names : List Name) (k : Nat) (expected : List Text) : Mismatch :=
  match names[k]? with
  | some n => misplaced k n.localPart expected (k = 0)
  | none => incomplete expected

theorem exists_prefix_expectedList {labels : List Text} (h : labels ≠ []) :
    ∃ label ∈ labels, label <+: expectedList labels := by
  cases hsort : Text.sort labels.eraseDups with
  | nil =>
      obtain ⟨label, hmem⟩ := List.exists_mem_of_ne_nil labels h
      have hmem' : label ∈ Text.sort labels.eraseDups := List.mem_mergeSort.2 (List.mem_eraseDups.2 hmem)
      exact absurd (hsort ▸ hmem') List.not_mem_nil
  | cons label later =>
      have hmem : label ∈ Text.sort labels.eraseDups := hsort ▸ List.mem_cons_self
      refine ⟨label, List.mem_eraseDups.1 (List.mem_mergeSort.1 hmem), ?_⟩
      simp only [expectedList, hsort, shownLabels, List.take_succ_cons, Text.join]
      split
      · rw [List.append_assoc]
        exact List.prefix_append _ _
      · exact List.prefix_append _ _

/-- A message that lists labels is never read as one that has none to list. -/
theorem message_behind_eq_iff {names : List Name} {k : Nat} {labels : List Text}
    (hl : ∀ label ∈ labels, ∃ c t, label = c :: t ∧ c ≠ CodePoint.ofChar 'e') (owner : Text) :
    (behind names k labels).message owner = (behind names k []).message owner ↔ labels = [] := by
  refine ⟨fun h => ?_, fun h => by rw [h]⟩
  by_contra hne
  obtain ⟨label, hmem, t, ht⟩ := exists_prefix_expectedList hne
  obtain ⟨c, t', rfl, hc⟩ := hl label hmem
  obtain ⟨first, others, rfl⟩ := List.exists_cons_of_ne_nil hne
  rw [behind, behind] at h
  cases hk : names[k]? with
  | none =>
      simp only [hk, message, List.isEmpty_cons, List.isEmpty_nil, Bool.false_eq_true, if_true, if_false,
        List.append_assoc, List.append_cancel_left_eq, List.append_right_eq_self, List.append_eq_nil_iff] at h
      exact absurd h.1 (by decide)
  | some n =>
      simp only [hk, message, List.isEmpty_cons, List.isEmpty_nil, Bool.not_false, Bool.not_true, Bool.false_eq_true,
        if_true, if_false, List.append_assoc, ← ht] at h
      split at h <;> simp only [List.append_cancel_left_eq] at h
      · exact absurd (List.cons.inj h).1 (by decide)
      · have hend : Text.ofString "expected end of content of '" = Text.ofString "expected " ++
            CodePoint.ofChar 'e' :: Text.ofString "nd of content of '" := by decide
        rw [hend, List.append_assoc, List.append_cancel_left_eq] at h
        exact hc (List.cons.inj h).1

end Mismatch

/-- Labels are told apart from the words of a message by how they start. -/
theorem Particle.leafLabel_eq_cons {leaf : Particle} {n : Name} {substitutes : Name → List Name}
    (h : leaf.takes substitutes n) : ∃ c t, leaf.leafLabel = c :: t ∧ c ≠ CodePoint.ofChar 'e' := by
  cases leaf with
  | element name _ _ => exact ⟨CodePoint.ofChar '\'', _, rfl, by decide⟩
  | wildcard w _ =>
      refine ⟨CodePoint.ofChar 'a', ?_⟩
      rw [leafLabel, Wildcard.label]
      split <;> exact ⟨_, rfl, by decide⟩
  | group => exact absurd h id

namespace Content

variable {substitutes : Name → List Name} {p : Particle} {names : List Name}

theorem mem_expected_attempt {label : Text} : label ∈ (attempt substitutes p names).expected ↔
    ((attempt substitutes p names).furthest, label) ∈ (Matcher.explore substitutes names.toArray none (.single 0)
      (Matcher.ofParticle substitutes names.toArray p)).expected := by
  simp only [attempt, List.mem_filterMap, Option.ite_none_right_eq_some, Option.some.injEq, Prod.exists]
  constructor
  · rintro ⟨_, _, h, rfl, rfl⟩
    exact h
  · exact fun h => ⟨_, _, h, rfl, rfl⟩

/-- No leaf that may follow the longest beginning of a word takes the name behind it. -/
theorem not_takes_of_isGreatest {k : Nat} (hk : IsGreatest (viable names (p.language substitutes)) k) {leaf : Particle}
    (hleaf : names.take k ∈ leaf.wordsBefore (p.derivations substitutes)) :
    ¬∃ n, names[k]? = some n ∧ leaf.takes substitutes n := by
  rintro ⟨n, hn, htakes⟩
  obtain ⟨d, n', e, hd, hmem⟩ := hleaf
  -- with that name in the place of its own, the derivation reads one name more
  have hexchanged : d ++ (n, leaf) :: e ∈ p.derivations substitutes := by
    refine Particle.isExchangeable_derivations_of_term (Particle.isExchangeable_termDerivations p) _ hmem _ (by simp) ?_
    intro a ha
    rcases List.mem_append.1 ha with ha | ha
    · exact (Particle.takes_of_mem_derivations hmem (List.mem_append_left _ ha)).2
    · rcases List.mem_cons.1 ha with rfl | ha
      · exact htakes
      · exact (Particle.takes_of_mem_derivations hmem (List.mem_append_right _ (List.mem_cons_of_mem _ ha))).2
  obtain ⟨hlt, rfl⟩ := List.getElem?_eq_some_iff.1 hn
  have hviable : k + 1 ∈ viable names (p.language substitutes) := by
    refine ⟨hlt, e.map Prod.fst, ?_⟩
    rw [← List.take_append_getElem hlt, ← hd, ← Particle.map_derivations]
    exact ⟨_, hexchanged, by simp⟩
  exact absurd (hk.2 hviable) (by omega)

theorem mem_expected_attempt_iff (hp : p.HasRanges) (ho : p.IsOrdered) (hs : p.IsSatisfiable) {label : Text} :
    label ∈ (attempt substitutes p names).expected ↔ ∃ leaf : Particle, leaf.leafLabel = label ∧
      names.take (attempt substitutes p names).furthest ∈ leaf.wordsBefore (p.derivations substitutes) := by
  have hk := furthest_attempt substitutes names hp ho hs
  have hspells (leaf : Particle) :
      Spells names (leaf.wordsBefore (p.derivations substitutes)) 0 (attempt substitutes p names).furthest ↔
        names.take (attempt substitutes p names).furthest ∈ leaf.wordsBefore (p.derivations substitutes) := by
    rw [Spells.iff_extract (Nat.zero_le _), List.extract_eq_take_drop, List.drop_zero, Nat.sub_zero]
    exact ⟨fun h => h.2.2, fun h => ⟨Nat.zero_le _, hk.1.1, h⟩⟩
  rw [mem_expected_attempt, Matcher.findsMissing p hp ho hs none _ (start_le names)]
  apply exists_congr
  intro leaf
  apply and_congr_right'
  constructor
  · rintro ⟨_, s, hmem, h⟩
    obtain rfl := Positions.mem_single.1 hmem
    exact (hspells leaf).1 h
  · exact fun h => ⟨not_takes_of_isGreatest hk h, 0, Positions.mem_single.2 rfl, (hspells leaf).2 h⟩

/-- The first mismatch is the one behind what the first attempt comes to. -/
theorem exists_recover_eq_behind (hn : (attempt substitutes p names).fits = false) :
    ∃ later, (recover substitutes (some p) names).mismatches =
      .behind names (attempt substitutes p names).furthest (attempt substitutes p names).expected :: later := by
  rw [recover_eq, Option.getD_some, Mismatch.behind, recoverFrom, namesOf_indexed, if_neg (by simp [hn])]
  split
  · next hlt =>
      rw [length_indexed] at hlt
      rw [List.getElem?_eq_getElem hlt]
      refine ⟨(recoverFrom substitutes p ((indexed names).eraseIdx
        (attempt substitutes p names).furthest)).mismatches, ?_⟩
      simp [Recovery.before, indexed]
  · next hge =>
      rw [length_indexed, Nat.not_lt] at hge
      rw [List.getElem?_eq_none hge]
      exact ⟨[], rfl⟩

end Content

/-- What the first mismatch expects is exactly what may follow: the labels of all leaves that take a name behind the
longest beginning that can be completed to a word. Its message names no label only if no leaf does. -/
theorem expected_labels_exact (substitutes : Name → List Name) (p : Particle) (hp : p.HasRanges) (ho : p.IsOrdered)
    (hs : p.IsSatisfiable) (names : List Name) (hn : names ∉ p.language substitutes) :
    ∃ k labels later, IsGreatest (viable names (p.language substitutes)) k ∧
      (Content.recover substitutes (some p) names).mismatches = .behind names k labels :: later ∧
      (∀ label, label ∈ labels ↔ ∃ leaf : Particle, leaf.leafLabel = label ∧
        names.take k ∈ leaf.wordsBefore (p.derivations substitutes)) ∧
      ∀ owner, (Mismatch.behind names k labels).message owner = (Mismatch.behind names k []).message owner ↔
        ∀ leaf : Particle, names.take k ∉ leaf.wordsBefore (p.derivations substitutes) := by
  have hf : (Content.attempt substitutes p names).fits = false := by
    rw [← Bool.not_eq_true]
    exact fun h => hn ((Content.fits_iff_mem_language hp ho).1 h)
  obtain ⟨later, hlater⟩ := Content.exists_recover_eq_behind hf
  have hexpected (label : Text) : label ∈ (Content.attempt substitutes p names).expected ↔ _ :=
    Content.mem_expected_attempt_iff hp ho hs
  refine ⟨_, _, later, Content.furthest_attempt substitutes names hp ho hs, hlater, hexpected, fun owner => ?_⟩
  rw [Mismatch.message_behind_eq_iff]
  · rw [List.eq_nil_iff_forall_not_mem]
    constructor
    · exact fun h leaf hleaf => h _ ((hexpected _).2 ⟨leaf, rfl, hleaf⟩)
    · intro h label hlabel
      obtain ⟨leaf, _, hleaf⟩ := (hexpected label).1 hlabel
      exact h leaf hleaf
  · intro label hlabel
    obtain ⟨leaf, rfl, d, n, e, _, hmem⟩ := (hexpected label).1 hlabel
    have hstep : (n, leaf) ∈ d ++ (n, leaf) :: e := List.mem_append_right _ List.mem_cons_self
    exact Particle.leafLabel_eq_cons (Particle.takes_of_mem_derivations hmem hstep).2

/-- An element that may be left out, and once or twice another one or any of a namespace. -/
def oneOfTwo : Particle :=
  .group .sequence [.element ⟨[], "a"⟩ .named ⟨0, some 1⟩,
    .group .choice [.element ⟨[], "b"⟩ .named {}, .wildcard ⟨.within ["u"], .lax⟩ {}] ⟨1, some 2⟩ none] {} none

theorem expected_labels_exact_oneOfTwo :
    oneOfTwo.HasRanges ∧ oneOfTwo.IsOrdered ∧ oneOfTwo.IsSatisfiable ∧
    [⟨[], "a"⟩] ∉ oneOfTwo.language (fun _ => []) ∧
    ∃ k labels later, IsGreatest (viable [⟨[], "a"⟩] (oneOfTwo.language fun _ => [])) k ∧
      (Content.recover (fun _ => []) (some oneOfTwo) [⟨[], "a"⟩]).mismatches =
        .behind [⟨[], "a"⟩] k labels :: later ∧
      ∀ label, label ∈ labels ↔ ∃ leaf : Particle, leaf.leafLabel = label ∧
        [⟨[], "a"⟩].take k ∈ leaf.wordsBefore (oneOfTwo.derivations fun _ => []) := by
  have hr : oneOfTwo.HasRanges := by decide
  have ho : oneOfTwo.IsOrdered := by decide
  have hs : oneOfTwo.IsSatisfiable := by
    intro q hq
    simp [oneOfTwo, Particle.parts, Particle.partsOfAll] at hq
    rcases hq with rfl | rfl | rfl | rfl | rfl <;> simp [Particle.offers, Particle.occurs]
    exact ⟨"u", by decide⟩
  have hends : ((Matcher.ofParticle (fun _ => []) [⟨[], "a"⟩].toArray oneOfTwo).ends 0).contains 1 = false := by cbv
  have hn : [⟨[], "a"⟩] ∉ oneOfTwo.language (fun _ => []) := by
    intro h
    rw [← Content.fits_iff_mem_language hr ho, Content.attempt_fits_iff, ← Positions.contains_iff] at h
    exact Bool.noConfusion (hends.symm.trans h)
  obtain ⟨k, labels, later, hk, hlater, hlabels, _⟩ := expected_labels_exact _ oneOfTwo hr ho hs _ hn
  exact ⟨hr, ho, hs, hn, k, labels, later, hk, hlater, hlabels⟩

end XmlSchema
