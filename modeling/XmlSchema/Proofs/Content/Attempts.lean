import XmlSchema.Content.Recovery
import XmlSchema.Proofs.Content.Matchers

/-!
The attempts that a recovery is made of: what each round reports, and when it is the last one.
-/

namespace XmlSchema.Content

variable {substitutes : Name → List Name} {group : Particle}

theorem attempt_fits_iff {names : List Name} : (attempt substitutes group names).fits = true ↔
    names.length ∈ (Matcher.ofParticle substitutes names.toArray group).ends 0 := by
  simp [attempt]

theorem recoverFrom_of_fits {children : List (Nat × Name)}
    (h : (attempt substitutes group (namesOf children)).fits = true) :
    (recoverFrom substitutes group children).mismatches = [] := by
  rw [recoverFrom, if_pos h, Recovery.last]

theorem recoverFrom_of_lt {children : List (Nat × Name)}
    (h : (attempt substitutes group (namesOf children)).fits = false)
    (hlt : (attempt substitutes group (namesOf children)).furthest < children.length) :
    ∃ m, m.index? = some (children[(attempt substitutes group (namesOf children)).furthest]).1 ∧
      (recoverFrom substitutes group children).mismatches = m :: (recoverFrom substitutes group
        (children.eraseIdx (attempt substitutes group (namesOf children)).furthest)).mismatches := by
  rw [recoverFrom, if_neg (by simp [h]), dif_pos hlt]
  exact ⟨_, rfl, rfl⟩

theorem recoverFrom_of_ge {children : List (Nat × Name)}
    (h : (attempt substitutes group (namesOf children)).fits = false)
    (hge : children.length ≤ (attempt substitutes group (namesOf children)).furthest) :
    (recoverFrom substitutes group children).mismatches =
      [.incomplete (attempt substitutes group (namesOf children)).expected] := by
  rw [recoverFrom, if_neg (by simp [h]), dif_neg (by omega), Recovery.last]

theorem recoverFrom_eq_nil_iff {children : List (Nat × Name)} :
    (recoverFrom substitutes group children).mismatches = [] ↔
      (attempt substitutes group (namesOf children)).fits = true := by
  constructor
  · intro h
    by_contra hf
    rw [Bool.not_eq_true] at hf
    rcases Nat.lt_or_ge (attempt substitutes group (namesOf children)).furthest children.length with hlt | hge
    · obtain ⟨m, _, hm⟩ := recoverFrom_of_lt hf hlt
      rw [h] at hm
      exact absurd hm (by simp)
    · rw [recoverFrom_of_ge hf hge] at h
      exact absurd h (by simp)
  · exact recoverFrom_of_fits

/-- The children of a list of names, each with its index. -/
def indexed (names : List Name) : List (Nat × Name) := names.zipIdx.map fun (name, i) => (i, name)

@[simp] theorem namesOf_indexed (names : List Name) : namesOf (indexed names) = names := by
  rw [namesOf, indexed, List.map_map]
  exact List.zipIdx_map_fst 0 names

@[simp] theorem length_indexed (names : List Name) : (indexed names).length = names.length := by simp [indexed]

theorem fst_getElem_indexed {names : List Name} {i : Nat} (h : i < (indexed names).length) :
    ((indexed names)[i]).1 = i := by simp [indexed]

theorem recover_eq (model : Option Particle) (names : List Name) :
    recover substitutes model names = recoverFrom substitutes (model.getD .emptySequence) (indexed names) := rfl

theorem recover_eq_nil_iff {model : Option Particle} {names : List Name} :
    (recover substitutes model names).mismatches = [] ↔ names.length ∈
      (Matcher.ofParticle substitutes names.toArray (model.getD .emptySequence)).ends 0 := by
  rw [recover_eq, recoverFrom_eq_nil_iff, namesOf_indexed, attempt_fits_iff]

end XmlSchema.Content
