import XmlSchema.Proofs.SimpleType.Links
import XmlSchema.Proofs.Value.Durations
import XmlSchema.SimpleType.Check

/-!
Bounds of atomic types. What is wrong with a value is what is wrong with it at some step of the type, so a bound of any
step is kept by every value of the type, as far as the order of values tells which side of the bound a value lies on.
-/

namespace XmlSchema

namespace BoundKind

/-- Whether values below the bound are refused. -/
def isLower : BoundKind → Bool
  | minInclusive => true
  | maxInclusive => false
  | minExclusive => true
  | maxExclusive => false

end BoundKind

namespace Facets

/-- The bound of a kind that the facets set. -/
def bound? (f : Facets) : BoundKind → Option Literal
  | .minInclusive => f.minInclusive
  | .maxInclusive => f.maxInclusive
  | .minExclusive => f.minExclusive
  | .maxExclusive => f.maxExclusive

theorem mem_check_of_mem_checkBound {f : Facets} {kind : BoundKind} {lexical : Text} {value : Value}
    {length : Option Nat} {unit : LengthUnit} {problem : Problem}
    (h : problem ∈ checkBound kind (f.bound? kind) lexical value) : problem ∈ f.check lexical value length unit := by
  cases kind <;> simp only [check, List.mem_append, bound?] at h ⊢ <;> simp only [h, or_true, true_or]

theorem checkBound_of_compare {kind : BoundKind} {bound : Literal} {lexical : Text} {value : Value} {o : Ordering}
    (hnumber : value.isNaN = false) (h : value.compare bound.value = .ordered o) :
    checkBound kind (some bound) lexical value =
      if kind.accepts o then [] else [.bound lexical kind bound.lexical] := by
  simp only [checkBound, hnumber, h, Bool.not_false, Bool.true_and]

theorem check_empty (lexical : Text) (value : Value) (length : Option Nat) (unit : LengthUnit) :
    ({} : Facets).check lexical value length unit = [] := by
  cases length <;> cases value <;> rfl

end Facets

namespace SimpleType

variable {t top : SimpleType} {steps : List Facets} {text : Text} {value : Value}

/-- A value of an atomic type is checked at every step of it. -/
theorem checkFrom_of_read (ht : t.variety = .atomic)
    (hread : Value.read t.primitiveOf (top.whiteSpace.apply text) = .ok value) :
    checkFrom t top steps text = (t.chain.map facets ++ steps).flatMap fun f =>
      f.check (top.whiteSpace.apply text) value
        (Value.length? t.primitiveOf (top.whiteSpace.apply text) value) .length := by
  induction t using induct generalizing steps with
  | primitive p =>
      rw [primitiveOf] at hread ⊢
      simp only [checkFrom, hread]
      by_cases hp : p = .anySimpleType
      · rw [chain, if_pos hp]
        rfl
      · have hany (length : Option Nat) :
            anySimple.facets.check (top.whiteSpace.apply text) value length .length = [] := Facets.check_empty _ _ _ _
        rw [chain, if_neg hp]
        simp only [List.map_cons, List.map_nil, List.cons_append, List.flatMap_cons, hany, List.nil_append]
  | restriction name base facets ih =>
      rw [variety] at ht
      rw [primitiveOf] at hread
      rw [checkFrom, ih ht hread, primitiveOf, chain, List.map_append, List.append_assoc]
      rfl
  | list => exact Variety.noConfusion ht
  | union => exact Variety.noConfusion ht

theorem mem_check_iff (ht : t.variety = .atomic)
    (hread : Value.read t.primitiveOf (t.whiteSpace.apply text) = .ok value) {problem : Problem} :
    problem ∈ t.check text ↔ ∃ u ∈ t.chain, problem ∈ u.facets.check (t.whiteSpace.apply text) value
      (Value.length? t.primitiveOf (t.whiteSpace.apply text) value) .length := by
  rw [check, checkFrom_of_read ht hread, List.append_nil, List.mem_flatMap]
  simp only [List.mem_map, exists_exists_and_eq_and]

end SimpleType

/-- Durations are compared by their months first. One that takes less time than another from every date on is found
less if it has no more months. Otherwise it is found greater; then the other has over 31 days more in its days and its
time. So a bound of any step of a type refuses a duration that lies on its wrong side from every date on, or lets it
pass if the months speak for it. -/
theorem durations_compared_by_months {m m' : Int} {s s' : Decimal} (h : IsShorter m s m' s') :
    (Value.duration m s).compare (.duration m' s') = .ordered (if m ≤ m' then .lt else .gt) ∧
    (Value.duration m' s').compare (.duration m s) = .ordered (if m ≤ m' then .gt else .lt) ∧
    (m' < m → 31 * 86400 + s.toRat < s'.toRat) ∧
    ∀ (t : SimpleType) (text : Text) (kind : BoundKind) (bound : Literal), t.variety = .atomic →
      t.primitiveOf = .duration → (∃ u ∈ t.chain, u.facets.bound? kind = some bound) →
      Value.read .duration (t.whiteSpace.apply text) = .ok (if kind.isLower then .duration m s else .duration m' s') →
      bound.value = (if kind.isLower then .duration m' s' else .duration m s) →
      (m ≤ m' → .bound (t.whiteSpace.apply text) kind bound.lexical ∈ t.check text) ∧
      (m' < m → Facets.checkBound kind (some bound) (t.whiteSpace.apply text)
        (if kind.isLower then .duration m s else .duration m' s') = []) := by
  refine ⟨h.compare_eq, h.compare_swap_eq, h.seconds_lt, ?_⟩
  rintro t text kind bound ht hp ⟨u, hu, hbound⟩ hread hvalue
  have hcheck : Facets.checkBound kind (some bound) (t.whiteSpace.apply text)
      (if kind.isLower then .duration m s else .duration m' s') =
        if m ≤ m' then [.bound (t.whiteSpace.apply text) kind bound.lexical] else [] := by
    cases hlower : kind.isLower with
    | true =>
        rw [if_pos rfl]
        rw [hlower, if_pos rfl] at hvalue
        rw [Facets.checkBound_of_compare rfl (hvalue ▸ h.compare_eq)]
        cases kind <;> cases hlower <;> split <;> rfl
    | false =>
        rw [if_neg Bool.false_ne_true]
        rw [hlower, if_neg Bool.false_ne_true] at hvalue
        rw [Facets.checkBound_of_compare rfl (hvalue ▸ h.compare_swap_eq)]
        cases kind <;> cases hlower <;> split <;> rfl
  constructor
  · intro hm
    rw [SimpleType.mem_check_iff ht (by rwa [hp])]
    have hrefused : Problem.bound (t.whiteSpace.apply text) kind bound.lexical ∈
        Facets.checkBound kind (u.facets.bound? kind) (t.whiteSpace.apply text)
          (if kind.isLower then .duration m s else .duration m' s') := by
      rw [hbound, hcheck, if_pos hm]
      exact List.mem_singleton_self _
    exact ⟨u, hu, Facets.mem_check_of_mem_checkBound hrefused⟩
  · intro hm
    rw [hcheck, if_neg hm.not_ge]

/-- No duration that is longer than a month. -/
def atMostOneMonth : SimpleType :=
  .restriction none (.primitive .duration) { maxInclusive := some ⟨"P1M", .duration 1 (.ofInt 0)⟩ }

theorem durations_compared_by_months_atMostOneMonth :
    IsShorter 1 (.ofInt 0) 0 (.ofInt 2764800) ∧
    (Value.duration 1 (.ofInt 0)).compare (.duration 0 (.ofInt 2764800)) = .ordered .gt ∧
    Value.read .duration "P32D" = .ok (.duration 0 (.ofInt 2764800)) ∧
    Facets.checkBound .maxInclusive (some ⟨"P1M", .duration 1 (.ofInt 0)⟩) "P32D" (.duration 0 (.ofInt 2764800)) =
      [] := by
  have h : IsShorter 1 (.ofInt 0) 0 (.ofInt 2764800) := by
    constructor <;> norm_num [Decimal.toRat, Decimal.ofInt, Decimal.ofScaled]
  have hread : Value.read .duration (atMostOneMonth.whiteSpace.apply "P32D") = .ok (.duration 0 (.ofInt 2764800)) := by
    decide +kernel
  obtain ⟨hcompare, _, _, hbounds⟩ := durations_compared_by_months h
  refine ⟨h, hcompare, hread, ?_⟩
  exact (hbounds atMostOneMonth "P32D" .maxInclusive ⟨"P1M", .duration 1 (.ofInt 0)⟩ rfl rfl
    ⟨atMostOneMonth, List.mem_append_right _ (List.mem_singleton_self _), rfl⟩ hread rfl).2 (by decide)

end XmlSchema
