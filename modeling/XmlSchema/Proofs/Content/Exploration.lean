import XmlSchema.Proofs.Content.Matchers

/-!
How far a match looks: the furthest position of an exploration, in terms of the positions at which occurrences are
tried, those at which they end, and those that are explored inside groups.
-/

namespace XmlSchema

namespace Positions

theorem le_greatest {s : Positions} {q : Nat} (h : q ∈ s) : q ≤ s.greatest := by
  obtain ⟨l, hl⟩ := s
  cases l with
  | nil => simp [mem_def] at h
  | cons a l =>
      rw [List.pairwise_cons] at hl
      rcases List.mem_cons.1 (mem_def.1 h) with rfl | h
      · exact Nat.le_refl _
      · exact Nat.le_of_lt (hl.1 q h)

theorem greatest_eq_zero_or_mem (s : Positions) : s.greatest = 0 ∨ s.greatest ∈ s := by
  obtain ⟨l, hl⟩ := s
  cases l with
  | nil => exact .inl rfl
  | cons a l => exact .inr List.mem_cons_self

end Positions

namespace Matcher

variable (substitutes : Name → List Name) (names : Array Name)

/-- Where occurrences are tried in matches from some starts. -/
def triedFrom (starts : Positions) (p : Particle) : Positions :=
  starts.bind fun pos => ((ofParticle substitutes names p).sweep pos).tried

def endsFrom (starts : Positions) (p : Particle) : Positions := starts.bind (ofParticle substitutes names p).ends

/-- The furthest position at which something is explored inside a group that is tried at some positions. -/
def furthestInside (place : Option SharedPlace) (tried : Positions) : Particle → Nat
  | .group .sequence members _ source => (exploreInTurn substitutes names source place 0 tried
      (members.map (ofParticle substitutes names))).furthest
  | .group .choice members _ source => (exploreEach substitutes names source place 0 tried
      (members.map (ofParticle substitutes names))).furthest
  | .group .all members _ _ =>
      ((tried.toList.map (allStep substitutes names members)).map (·.stopped)).foldr max 0
  | _ => 0

theorem furthest_explore (place : Option SharedPlace) (starts : Positions) (p : Particle) :
    (explore substitutes names place starts (ofParticle substitutes names p)).furthest =
      max (max (triedFrom substitutes names starts p).greatest (endsFrom substitutes names starts p).greatest)
        (furthestInside substitutes names place (triedFrom substitutes names starts p) p) := by
  cases p with
  | element => rfl
  | wildcard => rfl
  | group compositor members occurs source =>
      have h := ofParticles_eq_map substitutes names members
      cases compositor <;>
        simp only [triedFrom, endsFrom, furthestInside, sweep, ofParticle, explore, h, Findings.within] <;> rfl

variable {substitutes names} {place : Option SharedPlace} {starts : Positions} {p : Particle}

theorem le_furthest_of_mem_triedFrom (place : Option SharedPlace) {q : Nat}
    (h : q ∈ triedFrom substitutes names starts p) :
    q ≤ (explore substitutes names place starts (ofParticle substitutes names p)).furthest := by
  have := Positions.le_greatest h
  rw [furthest_explore]
  omega

theorem le_furthest_of_mem_endsFrom (place : Option SharedPlace) {q : Nat}
    (h : q ∈ endsFrom substitutes names starts p) :
    q ≤ (explore substitutes names place starts (ofParticle substitutes names p)).furthest := by
  have := Positions.le_greatest h
  rw [furthest_explore]
  omega

theorem furthestInside_le_furthest :
    furthestInside substitutes names place (triedFrom substitutes names starts p) p ≤
      (explore substitutes names place starts (ofParticle substitutes names p)).furthest := by
  rw [furthest_explore]
  omega

theorem furthest_cases (substitutes : Name → List Name) (names : Array Name) (place : Option SharedPlace)
    (starts : Positions) (p : Particle) :
    (explore substitutes names place starts (ofParticle substitutes names p)).furthest = 0 ∨
    (explore substitutes names place starts (ofParticle substitutes names p)).furthest ∈
      triedFrom substitutes names starts p ∨
    (explore substitutes names place starts (ofParticle substitutes names p)).furthest ∈
      endsFrom substitutes names starts p ∨
    (explore substitutes names place starts (ofParticle substitutes names p)).furthest =
      furthestInside substitutes names place (triedFrom substitutes names starts p) p := by
  rw [furthest_explore]
  have ht := (triedFrom substitutes names starts p).greatest_eq_zero_or_mem
  have he := (endsFrom substitutes names starts p).greatest_eq_zero_or_mem
  generalize furthestInside substitutes names place (triedFrom substitutes names starts p) p = inside
  rcases Nat.le_total (max (triedFrom substitutes names starts p).greatest
    (endsFrom substitutes names starts p).greatest) inside with h | h
  · exact .inr (.inr (.inr (Nat.max_eq_right h)))
  · rw [Nat.max_eq_left h]
    rcases Nat.le_total (triedFrom substitutes names starts p).greatest
      (endsFrom substitutes names starts p).greatest with h' | h'
    · rw [Nat.max_eq_right h']
      exact he.elim .inl fun he => .inr (.inr (.inl he))
    · rw [Nat.max_eq_left h']
      exact ht.elim .inl fun ht => .inr (.inl ht)

/-! ### Inside groups -/

variable {source : Option Name} {i : Nat} {ms : List Matcher} {m : Matcher}

theorem furthest_inTurn_cons (h : starts.isEmpty = false) :
    (exploreInTurn substitutes names source place i starts (m :: ms)).furthest =
      max (explore substitutes names (memberPlace source place i) starts m).furthest
        (exploreInTurn substitutes names source place (i + 1) (starts.bind m.ends) ms).furthest := by
  rw [exploreInTurn, if_neg (by simp [h])]
  rfl

theorem furthest_inTurn_of_isEmpty (h : starts.isEmpty = true) :
    (exploreInTurn substitutes names source place i starts ms).furthest = 0 := by
  cases ms with
  | nil => rfl
  | cons m ms =>
      rw [exploreInTurn, if_pos h]
      rfl

theorem furthest_each_cons :
    (exploreEach substitutes names source place i starts (m :: ms)).furthest =
      max (explore substitutes names (memberPlace source place i) starts m).furthest
        (exploreEach substitutes names source place (i + 1) starts ms).furthest := rfl

theorem foldr_max_le_iff {l : List Nat} {n : Nat} : l.foldr max 0 ≤ n ↔ ∀ a ∈ l, a ≤ n := by
  induction l with
  | nil => simp
  | cons a l ih => rw [List.foldr_cons, Nat.max_le, ih, List.forall_mem_cons]

end Matcher

end XmlSchema
