import XmlSchema.Proofs.SimpleType.Bounds

/-!
When nothing is wrong with a value. A step has no problem with a value if none of its facets has one, and a text is a
value of an atomic type if its primitive reads it and no step has a problem with the value.
-/

namespace XmlSchema

namespace Facets

variable {f : Facets} {lexical : Text} {value : Value}

theorem checkPatterns_eq_nil_iff :
    f.checkPatterns lexical = [] ↔ f.patterns = [] ∨ ∃ p ∈ f.patterns, p.isMatch lexical = true := by
  rw [checkPatterns, ite_eq_left_iff, Bool.not_eq_true]
  simp only [List.cons_ne_nil, imp_false, Bool.not_eq_false, Bool.or_eq_true, List.isEmpty_iff, List.any_eq_true]

theorem checkEnumeration_eq_nil_iff : f.checkEnumeration lexical value = [] ↔
    ∀ allowed, f.enumeration = some allowed → ∃ l ∈ allowed, value.equal l.value = true := by
  rw [checkEnumeration]
  cases f.enumeration with
  | none => exact ⟨fun _ _ h => (nomatch h), fun _ => rfl⟩
  | some allowed =>
      rw [ite_eq_left_iff, Bool.not_eq_true]
      simp only [List.cons_ne_nil, imp_false, Bool.not_eq_false, List.any_eq_true, Option.some.injEq, forall_eq']

/-- So many characters or items are within the lengths that the facets allow. -/
def AllowsLength (f : Facets) (count : Nat) : Prop :=
  (∀ n ∈ f.length, (count : Int) = n) ∧ (∀ n ∈ f.minLength, n ≤ count) ∧ ∀ n ∈ f.maxLength, (count : Int) ≤ n

theorem checkLength_eq_nil_iff {count : Nat} {unit : LengthUnit} :
    f.checkLength lexical count unit = [] ↔ f.AllowsLength count := by
  rw [AllowsLength, checkLength]
  cases hlength : f.length <;> cases hmin : f.minLength <;> cases hmax : f.maxLength <;> simp

theorem checkBound_none (kind : BoundKind) : checkBound kind none lexical value = [] := rfl

theorem check_eq_nil_iff {length : Option Nat} {unit : LengthUnit} : f.check lexical value length unit = [] ↔
    f.checkPatterns lexical = [] ∧ f.checkEnumeration lexical value = [] ∧ (∀ n ∈ length, f.AllowsLength n) ∧
      (∀ kind, checkBound kind (f.bound? kind) lexical value = []) ∧ f.checkDigits lexical value = [] := by
  have hbounds : (∀ kind, checkBound kind (f.bound? kind) lexical value = []) ↔
      checkBound .minInclusive f.minInclusive lexical value = [] ∧
      checkBound .maxInclusive f.maxInclusive lexical value = [] ∧
      checkBound .minExclusive f.minExclusive lexical value = [] ∧
      checkBound .maxExclusive f.maxExclusive lexical value = [] :=
    ⟨fun h => ⟨h .minInclusive, h .maxInclusive, h .minExclusive, h .maxExclusive⟩,
      fun ⟨hmin, hmax, hmin', hmax'⟩ kind => by cases kind <;> assumption⟩
  cases length with
  | none =>
      simp only [check, List.append_eq_nil_iff, hbounds, and_assoc, List.append_nil, Option.not_mem_none,
        IsEmpty.forall_iff, implies_true, true_and]
  | some n =>
      simp only [check, List.append_eq_nil_iff, hbounds, and_assoc, checkLength_eq_nil_iff, Option.mem_some_iff,
        forall_eq']

end Facets

namespace SimpleType

variable {t top : SimpleType} {steps : List Facets} {text : Text}

theorem whiteSpace_restriction {name : Option Name} {base : SimpleType} {facets : Facets}
    (h : facets.whiteSpace = none) : (restriction name base facets).whiteSpace = base.whiteSpace := by
  rw [whiteSpace, whiteSpace, declaredWhiteSpace?, h]
  rfl

theorem exists_read (ht : t.variety = .atomic) (h : checkFrom t top steps text = []) :
    ∃ value, Value.read t.primitiveOf (top.whiteSpace.apply text) = .ok value := by
  induction t using induct generalizing steps with
  | primitive p =>
      rw [checkFrom] at h
      dsimp only at h
      split at h
      · exact absurd h (List.cons_ne_nil _ _)
      · exact absurd h (List.cons_ne_nil _ _)
      · next hread => exact ⟨_, hread⟩
  | restriction name base facets ih => exact ih ht h
  | list => exact Variety.noConfusion ht
  | union => exact Variety.noConfusion ht

theorem check_eq_nil_iff_of_atomic (ht : t.variety = .atomic) : t.check text = [] ↔
    ∃ value, Value.read t.primitiveOf (t.whiteSpace.apply text) = .ok value ∧ ∀ u ∈ t.chain,
      u.facets.check (t.whiteSpace.apply text) value
        (Value.length? t.primitiveOf (t.whiteSpace.apply text) value) .length = [] := by
  constructor
  · intro h
    obtain ⟨value, hread⟩ := exists_read ht h
    rw [check, checkFrom_of_read ht hread, List.append_nil, List.flatMap_eq_nil_iff] at h
    exact ⟨value, hread, fun u hu => h u.facets (List.mem_map_of_mem hu)⟩
  · rintro ⟨value, hread, hsteps⟩
    rw [check, checkFrom_of_read ht hread, List.append_nil, List.flatMap_eq_nil_iff, List.forall_mem_map]
    exact hsteps

end SimpleType

end XmlSchema
