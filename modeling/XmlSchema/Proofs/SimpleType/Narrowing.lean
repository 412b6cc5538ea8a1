import XmlSchema.Proofs.SimpleType.Links
import XmlSchema.Proofs.Text.WhiteSpace
import XmlSchema.SimpleType.Check

/-!
Restriction narrows. Below a base, a type only has more steps to check, so the values of a type are values of all its
bases, as long as no step between them asks for laxer white space.
-/

namespace XmlSchema.SimpleType

variable {t top top' base : SimpleType} {steps more : List Facets} {text text' : Text}

theorem checkSteps_append {lexical : Text} {length : Option Nat} {unit : LengthUnit} :
    checkSteps (steps ++ more) lexical length unit =
      checkSteps steps lexical length unit ++ checkSteps more lexical length unit := List.flatMap_append

/-- A text without problems has none with fewer steps. Of an atomic type only the treated text counts. -/
theorem checkFrom_fewer (hatomic : t.variety = .atomic → top'.whiteSpace.apply text' = top.whiteSpace.apply text)
    (hother : t.variety ≠ .atomic → text' = text) (h : checkFrom t top (steps ++ more) text = []) :
    checkFrom t top' steps text' = [] := by
  induction t using induct generalizing steps with
  | primitive p =>
      rw [checkFrom] at h ⊢
      rw [hatomic rfl]
      dsimp only at h ⊢
      split at h
      · exact absurd h (List.cons_ne_nil _ _)
      · exact absurd h (List.cons_ne_nil _ _)
      · rw [← List.cons_append, List.flatMap_append] at h
        exact (List.append_eq_nil_iff.1 h).1
  | restriction name base facets ih =>
      rw [checkFrom] at h ⊢
      exact ih hatomic hother h
  | list name item facets =>
      obtain rfl := hother Variety.noConfusion
      cases item with
      | none =>
          rw [checkFrom] at h ⊢
          rw [← List.cons_append, checkSteps_append] at h
          exact (List.append_eq_nil_iff.1 h).1
      | some item =>
          rw [checkFrom] at h ⊢
          rw [← List.cons_append, checkSteps_append, ← List.append_assoc] at h
          exact (List.append_eq_nil_iff.1 h).1
  | union name members facets =>
      obtain rfl := hother Variety.noConfusion
      rw [checkFrom.eq_def] at h ⊢
      dsimp only at h ⊢
      -- what the members reject does not depend on the steps
      split at h
      · exact h
      · exact h
      · rw [← List.cons_append, checkSteps_append] at h
        exact (List.append_eq_nil_iff.1 h).1

/-- A check against a type is one against any of its bases, with the steps between them on top. -/
theorem checkFrom_base (h : base ∈ t.chain) : base = anySimple ∨
    ∃ more, ∀ top steps text, checkFrom t top steps text = checkFrom base top (more ++ steps) text := by
  induction t using induct with
  | primitive p =>
      rw [chain] at h
      split at h
      · exact .inr ⟨[], fun _ _ _ => by rw [List.mem_singleton.1 h]; rfl⟩
      · rcases List.mem_pair.1 h with rfl | rfl
        · exact .inl rfl
        · exact .inr ⟨[], fun _ _ _ => rfl⟩
  | restriction name base' facets ih =>
      rw [chain, List.mem_append, List.mem_singleton] at h
      rcases h with h | rfl
      · rcases ih h with hany | ⟨more, hmore⟩
        · exact .inl hany
        · refine .inr ⟨more ++ [facets], fun top steps text => ?_⟩
          rw [checkFrom, hmore, List.append_assoc]
          rfl
      · exact .inr ⟨[], fun _ _ _ => rfl⟩
  | list name item facets => exact .inr ⟨[], fun _ _ _ => by rw [List.mem_singleton.1 h]; rfl⟩
  | union name members facets => exact .inr ⟨[], fun _ _ _ => by rw [List.mem_singleton.1 h]; rfl⟩

theorem variety_base (h : base ∈ t.chain) : base.variety = t.variety := by
  induction t using induct with
  | primitive p =>
      rw [chain] at h
      split at h
      · rw [List.mem_singleton.1 h]
      · rcases List.mem_pair.1 h with rfl | rfl <;> rfl
  | restriction name base' facets ih =>
      rw [chain, List.mem_append, List.mem_singleton] at h
      rcases h with h | rfl
      · exact ih h
      · rfl
  | list name item facets => rw [List.mem_singleton.1 h]
  | union name members facets => rw [List.mem_singleton.1 h]

theorem check_anySimple (text : Text) : anySimple.check text = [] := rfl

/-- A value of a type is a value of each of its bases. For atomic types this is said of the text as the type treats its
white space, and of bases that treat white space no stricter. -/
theorem restriction_narrows (t base : SimpleType) (hbase : base ∈ t.chain) (text : Text) (h : t.check text = []) :
    (t.variety = .atomic → base.whiteSpace.strictness ≤ t.whiteSpace.strictness →
      base.check (t.whiteSpace.apply text) = []) ∧
    (t.variety ≠ .atomic → base.check text = []) := by
  rcases checkFrom_base hbase with rfl | ⟨more, hmore⟩
  · exact ⟨fun _ _ => check_anySimple _, fun _ => check_anySimple _⟩
  rw [check, hmore, List.append_nil] at h
  have hvariety := variety_base hbase
  constructor
  · intro hatomic hstrict
    refine checkFrom_fewer (fun _ => WhiteSpace.apply_apply hstrict text) (fun hother => ?_) h
    exact absurd (hvariety.trans hatomic) hother
  · intro hother
    refine checkFrom_fewer (fun hatomic => ?_) (fun _ => rfl) h
    exact absurd (hvariety.symm.trans hatomic) hother

/-- A text of at most three characters, without the spaces around it. -/
def shortCode : SimpleType :=
  restriction none (primitive .string) { maxLength := some 3, whiteSpace := some .collapse }

theorem restriction_narrows_shortCode :
    primitive .string ∈ shortCode.chain ∧ shortCode.check " abc\n" = [] ∧
    (primitive .string).check (shortCode.whiteSpace.apply " abc\n") = [] := by
  have hbase : primitive .string ∈ shortCode.chain := by simp [shortCode, chain]
  have hcheck : shortCode.check " abc\n" = [] := by decide +kernel
  exact ⟨hbase, hcheck, (restriction_narrows shortCode (primitive .string) hbase " abc\n" hcheck).1 rfl (by decide)⟩

end XmlSchema.SimpleType
