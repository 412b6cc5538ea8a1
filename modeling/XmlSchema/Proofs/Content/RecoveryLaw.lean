import XmlSchema.Proofs.Content.Attempts
import XmlSchema.Proofs.Content.Locality

/-!
What recovery reports: children in the order in which they stand, and at most one end that comes too early, behind all
others. Without the reported children, the rest is matched with no other report than that of the end.
-/

namespace XmlSchema

namespace Matcher

def occurs : Matcher → Occurs
  | mk particle _ _ => particle.occurs

mutual

/-- The matcher and all matchers in it. -/
def parts : Matcher → List Matcher
  | mk particle sweeps members => mk particle sweeps members :: partsOfAll members

def partsOfAll : List Matcher → List Matcher
  | [] => []
  | m :: ms => parts m ++ partsOfAll ms

end

theorem mem_partsOfAll {n : Matcher} {ms : List Matcher} : n ∈ partsOfAll ms ↔ ∃ m ∈ ms, n ∈ m.parts := by
  induction ms with
  | nil => simp [partsOfAll]
  | cons m ms ih => simp [partsOfAll, ih]

variable {substitutes : Name → List Name} {names : Array Name}

theorem mem_parts_ofParticle {p : Particle} {m : Matcher} (hm : m ∈ (ofParticle substitutes names p).parts) :
    ∃ q ∈ p.parts, m = ofParticle substitutes names q := by
  induction p using Particle.induct with
  | element name key occurs => exact ⟨_, Particle.mem_parts_self _, by simpa [ofParticle, parts, partsOfAll] using hm⟩
  | wildcard w occurs => exact ⟨_, Particle.mem_parts_self _, by simpa [ofParticle, parts, partsOfAll] using hm⟩
  | group compositor members occurs source ih =>
      have hparts : m = ofParticle substitutes names (.group compositor members occurs source) ∨
          ∃ n ∈ members, m ∈ (ofParticle substitutes names n).parts := by
        cases compositor <;>
          simpa only [ofParticle, parts, List.mem_cons, mem_partsOfAll, ofParticles_eq_map, List.mem_map,
            exists_exists_and_eq_and] using hm
      rcases hparts with rfl | ⟨n, hn, hm⟩
      · exact ⟨_, Particle.mem_parts_self _, rfl⟩
      · obtain ⟨q, hq, rfl⟩ := ih n hn hm
        exact ⟨q, Particle.mem_parts_group.2 (.inr ⟨n, hn, hq⟩), rfl⟩

theorem finished_of_mem_parts {p : Particle} {m : Matcher} (hm : m ∈ (ofParticle substitutes names p).parts) {pos : Nat}
    (hpos : pos ≤ names.size) : (m.sweep pos).finished m.occurs = true := by
  obtain ⟨q, _, rfl⟩ := mem_parts_ofParticle hm
  have hoccurs : (ofParticle substitutes names q).occurs = q.occurs := by
    cases q with
    | group compositor => cases compositor <;> rfl
    | _ => rfl
  rw [hoccurs, sweep_ofParticle _ _ _ hpos]
  exact finished_sweep (advances_step q) hpos

end Matcher

/-- What a last attempt reports. -/
def Attempt.conclusion (a : Attempt) : List Mismatch := if a.fits then [] else [.incomplete a.expected]

/-- The indices of the children that are reported. -/
def reported (mismatches : List Mismatch) : List Nat := mismatches.filterMap Mismatch.index?

namespace Content

variable {substitutes : Name → List Name} {group : Particle}

theorem namesOf_eraseIdx (children : List (Nat × Name)) (f : Nat) :
    namesOf (children.eraseIdx f) = (namesOf children).eraseIdx f := by
  rw [namesOf, namesOf, List.eraseIdx_map]

theorem agree_eraseIdx {names : List Name} {f : Nat} (hf : f < names.length) :
    Agree f names.toArray (names.eraseIdx f).toArray := by
  constructor
  · simpa using Nat.le_of_lt hf
  · simp only [List.size_toArray, List.length_eraseIdx, hf, if_true]
    omega
  · intro i hi
    simp [List.getElem?_eraseIdx, hi]

theorem furthest_le_eraseIdx (hp : group.HasRanges) {names : List Name}
    (hlt : (attempt substitutes group names).furthest < names.length) :
    (attempt substitutes group names).furthest ≤
      (attempt substitutes group (names.eraseIdx (attempt substitutes group names).furthest)).furthest := by
  refine Matcher.looksAsFar (agree_eraseIdx hlt) group hp none (.single 0) (.single 0) ?_ (Nat.le_refl _)
  intro s hs
  obtain rfl := Positions.mem_single.1 hs
  exact ⟨Nat.zero_le _, hs⟩

/-- Induction over a recovery: its last attempt, or one that reports a child and goes on without it. -/
@[elab_as_elim]
theorem recover_induct (substitutes : Name → List Name) (group : Particle) {P : List (Nat × Name) → Prop}
    (last : ∀ children, ((attempt substitutes group (namesOf children)).fits = true ∨
      children.length ≤ (attempt substitutes group (namesOf children)).furthest) → P children)
    (report : ∀ children, (attempt substitutes group (namesOf children)).fits = false →
      (attempt substitutes group (namesOf children)).furthest < children.length →
      P (children.eraseIdx (attempt substitutes group (namesOf children)).furthest) → P children)
    (children : List (Nat × Name)) : P children := by
  induction hl : children.length using Nat.strong_induction_on generalizing children with
  | _ n ih =>
      cases hf : (attempt substitutes group (namesOf children)).fits with
      | true => exact last children (.inl hf)
      | false =>
          rcases Nat.lt_or_ge (attempt substitutes group (namesOf children)).furthest children.length with hlt | hge
          · refine report children hf hlt (ih _ ?_ _ rfl)
            rw [List.length_eraseIdx, if_pos hlt]
            omega
          · exact last children (.inr hge)

theorem recoverFrom_of_last {children : List (Nat × Name)}
    (h : (attempt substitutes group (namesOf children)).fits = true ∨
      children.length ≤ (attempt substitutes group (namesOf children)).furthest) :
    (recoverFrom substitutes group children).mismatches =
      (attempt substitutes group (namesOf children)).conclusion := by
  cases hf : (attempt substitutes group (namesOf children)).fits with
  | true => rw [recoverFrom_of_fits hf, Attempt.conclusion, if_pos hf]
  | false =>
      rw [recoverFrom_of_ge hf (h.resolve_left (by simp [hf])), Attempt.conclusion, if_neg (by simp [hf])]

theorem reported_conclusion (a : Attempt) : reported a.conclusion = [] := by
  rw [Attempt.conclusion]
  split <;> rfl

theorem reported_of_lt {children : List (Nat × Name)}
    (hf : (attempt substitutes group (namesOf children)).fits = false)
    (hlt : (attempt substitutes group (namesOf children)).furthest < children.length) :
    reported (recoverFrom substitutes group children).mismatches =
      (children[(attempt substitutes group (namesOf children)).furthest]).1 ::
        reported (recoverFrom substitutes group
          (children.eraseIdx (attempt substitutes group (namesOf children)).furthest)).mismatches := by
  obtain ⟨m, hm, he⟩ := recoverFrom_of_lt hf hlt
  rw [he, reported, List.filterMap_cons_some hm, reported]

theorem drop_eraseIdx_self {children : List (Nat × Name)} {f : Nat} (hf : f < children.length) :
    (children.eraseIdx f).drop f = children.drop (f + 1) := by
  rw [List.eraseIdx_eq_take_drop_succ, List.drop_left' (by rw [List.length_take]; omega)]

/-- Nothing is reported before the position that the first attempt comes to. -/
theorem reported_subset_drop (hp : group.HasRanges) (children : List (Nat × Name)) {g : Nat}
    (hg : g ≤ (attempt substitutes group (namesOf children)).furthest) :
    ∀ i ∈ reported (recoverFrom substitutes group children).mismatches, i ∈ (children.drop g).map Prod.fst := by
  induction children using recover_induct substitutes group generalizing g with
  | last children h =>
      rw [recoverFrom_of_last h, reported_conclusion]
      simp
  | report children hf hlt ih =>
      have hlt' : (attempt substitutes group (namesOf children)).furthest < (namesOf children).length := by
        simpa [namesOf] using hlt
      have hfar := furthest_le_eraseIdx hp hlt'
      rw [← namesOf_eraseIdx] at hfar
      intro i hi
      rw [reported_of_lt hf hlt] at hi
      rcases List.mem_cons.1 hi with rfl | hi
      · refine List.mem_map_of_mem (List.mem_drop_iff_getElem.2 ?_)
        exact ⟨(attempt substitutes group (namesOf children)).furthest - g, by omega, by congr 1; omega⟩
      · have hi := ih hfar i hi
        rw [drop_eraseIdx_self hlt] at hi
        obtain ⟨c, hc, rfl⟩ := List.mem_map.1 hi
        exact List.mem_map_of_mem (List.drop_subset_drop_left children (by omega) hc)

theorem reported_increasing (hp : group.HasRanges) (children : List (Nat × Name))
    (hc : (children.map Prod.fst).Pairwise (· < ·)) :
    (reported (recoverFrom substitutes group children).mismatches).Pairwise (· < ·) := by
  induction children using recover_induct substitutes group with
  | last children h =>
      rw [recoverFrom_of_last h, reported_conclusion]
      exact .nil
  | report children hf hlt ih =>
      have hlt' : (attempt substitutes group (namesOf children)).furthest < (namesOf children).length := by
        simpa [namesOf] using hlt
      have hfar := furthest_le_eraseIdx hp hlt'
      rw [← namesOf_eraseIdx] at hfar
      rw [reported_of_lt hf hlt, List.pairwise_cons]
      constructor
      · intro i hi
        have hi := reported_subset_drop hp _ hfar i hi
        rw [drop_eraseIdx_self hlt] at hi
        have hdrop := hc.sublist ((List.drop_sublist
          (attempt substitutes group (namesOf children)).furthest children).map Prod.fst)
        rw [List.drop_eq_getElem_cons hlt, List.map_cons, List.pairwise_cons] at hdrop
        exact hdrop.1 i hi
      · exact ih (hc.sublist ((List.eraseIdx_sublist children _).map Prod.fst))

theorem index_of_mem_dropLast (children : List (Nat × Name)) :
    ∀ m ∈ (recoverFrom substitutes group children).mismatches.dropLast, m.index? ≠ none := by
  induction children using recover_induct substitutes group with
  | last children h =>
      rw [recoverFrom_of_last h, Attempt.conclusion]
      split <;> simp
  | report children hf hlt ih =>
      obtain ⟨m, hm, he⟩ := recoverFrom_of_lt hf hlt
      intro n hn
      rw [he] at hn
      cases hl : (recoverFrom substitutes group (children.eraseIdx
          (attempt substitutes group (namesOf children)).furthest)).mismatches with
      | nil => simp [hl] at hn
      | cons m' ms =>
          rw [hl, List.dropLast_cons_cons, ← hl] at hn
          rcases List.mem_cons.1 hn with rfl | hn
          · simp [hm]
          · exact ih n hn

theorem length_mismatches_le (substitutes : Name → List Name) (group : Particle) (children : List (Nat × Name)) :
    (recoverFrom substitutes group children).mismatches.length ≤ children.length + 1 := by
  induction children using recover_induct substitutes group with
  | last children h =>
      rw [recoverFrom_of_last h, Attempt.conclusion]
      split <;> simp
  | report children hf hlt ih =>
      obtain ⟨m, _, he⟩ := recoverFrom_of_lt hf hlt
      rw [List.length_eraseIdx, if_pos hlt] at ih
      rw [he, List.length_cons]
      omega

/-- The children that are not reported. -/
def kept (substitutes : Name → List Name) (group : Particle) (children : List (Nat × Name)) : List (Nat × Name) :=
  children.filter fun c => !(reported (recoverFrom substitutes group children).mismatches).contains c.1

theorem split_at {children : List (Nat × Name)} {f : Nat} (hf : f < children.length) :
    children = children.take f ++ children[f] :: children.drop (f + 1) := by
  rw [← List.drop_eq_getElem_cons hf, List.take_append_drop]

theorem filter_eraseIdx {children : List (Nat × Name)} {f : Nat} (hf : f < children.length)
    {keep : Nat × Name → Bool} (h : keep children[f] = false) :
    children.filter keep = (children.eraseIdx f).filter keep := by
  calc children.filter keep = (children.take f ++ children[f] :: children.drop (f + 1)).filter keep :=
        congrArg _ (split_at hf)
    _ = (children.eraseIdx f).filter keep := by
        rw [List.eraseIdx_eq_take_drop_succ, List.filter_append, List.filter_append,
          List.filter_cons_of_neg (by simp [h])]

theorem ne_of_mem_eraseIdx {children : List (Nat × Name)} (hc : (children.map Prod.fst).Pairwise (· < ·)) {f : Nat}
    (hf : f < children.length) {c : Nat × Name} (h : c ∈ children.eraseIdx f) : c.1 ≠ children[f].1 := by
  have hnodup : (children.map Prod.fst).Nodup := hc.imp Nat.ne_of_lt
  have hnodup' : (((children.take f) ++ children[f] :: children.drop (f + 1)).map Prod.fst).Nodup := by
    rwa [← split_at hf]
  rw [List.map_append, List.map_cons, List.nodup_middle, ← List.map_append, ← List.eraseIdx_eq_take_drop_succ,
    List.nodup_cons] at hnodup'
  exact fun he => hnodup'.1 (he ▸ List.mem_map_of_mem h)

theorem kept_of_lt {children : List (Nat × Name)} (hc : (children.map Prod.fst).Pairwise (· < ·))
    (hf : (attempt substitutes group (namesOf children)).fits = false)
    (hlt : (attempt substitutes group (namesOf children)).furthest < children.length) :
    kept substitutes group children = kept substitutes group (children.eraseIdx
      (attempt substitutes group (namesOf children)).furthest) := by
  rw [kept, reported_of_lt hf hlt]
  generalize (attempt substitutes group (namesOf children)).furthest = f at hlt ⊢
  generalize hr : reported (recoverFrom substitutes group (children.eraseIdx f)).mismatches = later
  rw [filter_eraseIdx hlt (by simp), kept, hr]
  refine List.filter_congr fun c hcmem => ?_
  have := ne_of_mem_eraseIdx hc hlt hcmem
  simp [this]

/-- The last attempt is made with the children that are not reported, and it is what is told apart from them. -/
theorem last_attempt_kept (substitutes : Name → List Name) (group : Particle) (children : List (Nat × Name))
    (hc : (children.map Prod.fst).Pairwise (· < ·)) :
    ((attempt substitutes group (namesOf (kept substitutes group children))).fits = true ∨
      (kept substitutes group children).length ≤
        (attempt substitutes group (namesOf (kept substitutes group children))).furthest) ∧
    (recoverFrom substitutes group children).mismatches.filter (·.index?.isNone) =
      (attempt substitutes group (namesOf (kept substitutes group children))).conclusion := by
  induction children using recover_induct substitutes group with
  | last children h =>
      have hkept : kept substitutes group children = children := by
        rw [kept, recoverFrom_of_last h, reported_conclusion]
        simp
      rw [hkept, recoverFrom_of_last h]
      refine ⟨h, ?_⟩
      rw [Attempt.conclusion]
      split <;> rfl
  | report children hf hlt ih =>
      have hc' := hc.sublist ((List.eraseIdx_sublist children
        (attempt substitutes group (namesOf children)).furthest).map Prod.fst)
      obtain ⟨m, hm, he⟩ := recoverFrom_of_lt hf hlt
      rw [kept_of_lt hc hf hlt, he, List.filter_cons_of_neg (by simp [hm])]
      exact ih hc'

theorem indices_indexed (names : List Name) : (indexed names).map Prod.fst = List.range names.length := by
  rw [indexed, List.map_map, List.range_eq_range']
  exact List.zipIdx_map_snd 0 names

theorem indexed_increasing (names : List Name) : ((indexed names).map Prod.fst).Pairwise (· < ·) := by
  rw [indices_indexed]
  exact List.pairwise_lt_range

theorem lt_of_mem_reported (hp : group.HasRanges) {names : List Name} {i : Nat}
    (hi : i ∈ reported (recoverFrom substitutes group (indexed names)).mismatches) : i < names.length := by
  have h := reported_subset_drop hp (indexed names) (Nat.zero_le _) i hi
  rw [List.drop_zero, indices_indexed] at h
  exact List.mem_range.1 h

theorem namesOf_kept_indexed (names : List Name) :
    namesOf (kept substitutes group (indexed names)) = (names.zipIdx.filter fun c =>
      !(reported (recoverFrom substitutes group (indexed names)).mismatches).contains c.2).map Prod.fst := by
  rw [namesOf, kept, indexed, List.filter_map, List.map_map]
  rfl

/-- Matched by themselves, the children that are not reported have the mismatch that is about none of them. -/
theorem recover_kept (substitutes : Name → List Name) (group : Particle) (names : List Name) :
    (recoverFrom substitutes group (indexed (namesOf (kept substitutes group (indexed names))))).mismatches =
      (recoverFrom substitutes group (indexed names)).mismatches.filter (·.index?.isNone) := by
  obtain ⟨hlast, hconclusion⟩ := last_attempt_kept substitutes group (indexed names) (indexed_increasing names)
  have hlength : (namesOf (kept substitutes group (indexed names))).length =
      (kept substitutes group (indexed names)).length := by simp [namesOf]
  rw [recoverFrom_of_last (by rwa [namesOf_indexed, length_indexed, hlength]), namesOf_indexed]
  exact hconclusion.symm

theorem filter_isNone_eq (names : List Name) {m : Mismatch}
    (hm : m ∈ (recoverFrom substitutes group (indexed names)).mismatches) (hi : m.index? = none) :
    (recoverFrom substitutes group (indexed names)).mismatches.filter (·.index?.isNone) = [m] := by
  obtain ⟨_, hconclusion⟩ := last_attempt_kept substitutes group (indexed names) (indexed_increasing names)
  have hmem : m ∈ (recoverFrom substitutes group (indexed names)).mismatches.filter (·.index?.isNone) :=
    List.mem_filter.2 ⟨hm, by rw [hi]; rfl⟩
  rw [hconclusion, Attempt.conclusion] at hmem ⊢
  split at hmem
  · exact absurd hmem List.not_mem_nil
  · next hf => rw [if_neg hf, List.mem_singleton.1 hmem]

end Content

/-- The law of recovery. Matching ends by itself whatever the names. The children reported are children of the list, in
its order, and only the last mismatch may be about none of them. Without the children reported, the list has no
mismatch, or just the last one if that is about no child. -/
theorem recovery_law (substitutes : Name → List Name) (model : Option Particle)
    (hm : (model.getD .emptySequence).HasRanges) (names : List Name) :
    let mismatches := (Content.recover substitutes model names).mismatches
    let kept := (names.zipIdx.filter fun c => !(reported mismatches).contains c.2).map Prod.fst
    (∀ names' : List Name,
      ∀ m ∈ (Matcher.ofParticle substitutes names'.toArray (model.getD .emptySequence)).parts,
      ∀ pos ≤ names'.length, (m.sweep pos).finished m.occurs = true) ∧
    mismatches.length ≤ names.length + 1 ∧
    (reported mismatches).Pairwise (· < ·) ∧ (∀ i ∈ reported mismatches, i < names.length) ∧
    (∀ m ∈ mismatches.dropLast, m.index? ≠ none) ∧
    ((∀ m ∈ mismatches, m.index? ≠ none) → (Content.recover substitutes model kept).mismatches = []) ∧
    (∀ m ∈ mismatches, m.index? = none → (Content.recover substitutes model kept).mismatches = [m]) := by
  intro mismatches kept
  have hkept : (Content.recover substitutes model kept).mismatches = mismatches.filter (·.index?.isNone) := by
    have h := Content.recover_kept substitutes (model.getD .emptySequence) names
    rwa [Content.namesOf_kept_indexed] at h
  refine ⟨?_, ?_, ?_, ?_, ?_, ?_, ?_⟩
  · intro names' m hm' pos hpos
    exact Matcher.finished_of_mem_parts hm' hpos
  · have h := Content.length_mismatches_le substitutes (model.getD .emptySequence) (Content.indexed names)
    rwa [Content.length_indexed] at h
  · exact Content.reported_increasing hm _ (Content.indexed_increasing names)
  · exact fun i hi => Content.lt_of_mem_reported hm hi
  · exact Content.index_of_mem_dropLast _
  · intro h
    rw [hkept, List.filter_eq_nil_iff]
    exact fun m hm' => by simpa using h m hm'
  · intro m hm' hi
    rw [hkept]
    exact Content.filter_isNone_eq names hm' hi

/-- Two elements in any order, then any elements of a namespace. -/
def anyOrder : Particle :=
  .group .sequence [.group .all [.element ⟨[], "a"⟩ .named ⟨0, some 1⟩, .element ⟨[], "b"⟩ .named {}] {} none,
    .wildcard ⟨.within ["u"], .lax⟩ ⟨0, none⟩] {} none

theorem recovery_law_anyOrder : ((some anyOrder).getD .emptySequence).HasRanges ∧
    let mismatches :=
      (Content.recover (fun _ => []) (some anyOrder) [⟨[], "c"⟩, ⟨[], "b"⟩, ⟨"v", "b"⟩, ⟨[], "a"⟩]).mismatches
    mismatches.length ≤ 5 ∧ (reported mismatches).Pairwise (· < ·) ∧ ∀ i ∈ reported mismatches, i < 4 := by
  have hr : ((some anyOrder).getD .emptySequence).HasRanges := by decide
  obtain ⟨_, hlength, hincreasing, hlt, _⟩ := recovery_law (fun _ => []) (some anyOrder) hr
    [⟨[], "c"⟩, ⟨[], "b"⟩, ⟨"v", "b"⟩, ⟨[], "a"⟩]
  exact ⟨hr, hlength, hincreasing, hlt⟩

end XmlSchema
