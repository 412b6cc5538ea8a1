import XmlSchema.Proofs.SimpleType.Links
import XmlSchema.Proofs.Value.Overflow
import XmlSchema.SimpleType.Check

/-!
Checking a text against a simple type. No treatment of white space makes a text longer, and the items of a list are no
longer than the list; so the digits that arithmetic allows are enough for every text that has not got too many itself.
-/

namespace XmlSchema

/-! ### White space -/

namespace Text

/-- The length of parts of a text, with a mark behind each of them. -/
def markedLength (parts : List Text) : Nat := (parts.map fun part => part.length + 1).sum

theorem markedLength_cons (part : Text) (parts : List Text) :
    markedLength (part :: parts) = part.length + 1 + markedLength parts := List.sum_cons

theorem markedLength_splitOn (mark : CodePoint) (t : Text) : markedLength (splitOn mark t) = t.length + 1 := by
  induction t with
  | nil => rfl
  | cons c t ih =>
      rw [splitOn, List.foldr_cons, ← splitOn]
      split
      · rw [markedLength_cons, ih, List.length_nil, List.length_cons]
        omega
      · split
        · next h => simp [h, markedLength] at ih
        · next part later h =>
            rw [h, markedLength_cons] at ih
            rw [markedLength_cons, List.length_cons, List.length_cons]
            omega

theorem length_le_markedLength {parts : List Text} {part : Text} (h : part ∈ parts) :
    part.length + 1 ≤ markedLength parts := by
  induction parts with
  | nil => exact nomatch h
  | cons first parts ih =>
      rw [markedLength_cons]
      rcases List.mem_cons.1 h with rfl | h
      · omega
      · have := ih h
        omega

theorem length_strip_le (p : CodePoint → Bool) (t : Text) : (strip p t).length ≤ t.length := by
  rw [strip, List.length_reverse]
  refine (List.length_dropWhile_le _ _).trans ?_
  rw [List.length_reverse]
  exact List.length_dropWhile_le _ _

end Text

namespace WhiteSpace

theorem length_squeezed_le (t : Text) : (squeezed t).length ≤ t.length := by
  induction t with
  | nil => exact Nat.le_refl _
  | cons c t ih =>
      rw [squeezed_cons, List.length_cons]
      split
      · exact Nat.le_succ_of_le ih
      · exact Nat.succ_le_succ ih

theorem length_apply_le (w : WhiteSpace) (t : Text) : (w.apply t).length ≤ t.length := by
  cases w with
  | preserve => exact Nat.le_refl _
  | replace => exact Nat.le_of_eq (List.length_map _)
  | collapse =>
      calc (Text.strip _ (squeezed (spaced t))).length
        _ ≤ (squeezed (spaced t)).length := Text.length_strip_le _ _
        _ ≤ (spaced t).length := length_squeezed_le _
        _ = t.length := List.length_map _

end WhiteSpace

namespace SimpleType

theorem length_le_of_mem_listItems {t item : Text} (h : item ∈ listItems t) : item.length ≤ t.length := by
  rw [listItems] at h
  split at h
  · exact nomatch h
  · have hle := Text.length_le_markedLength h
    rw [Text.markedLength_splitOn] at hle
    omega

end SimpleType

/-! ### Problems -/

open Lexical

/-- No problem among these tells of too many digits. -/
def Counted (problems : List Problem) : Prop := ∀ p ∈ problems, p.isOverflow = false

namespace Counted

theorem nil : Counted [] := nofun

theorem one {p : Problem} (h : p.isOverflow = false) : Counted [p] := List.forall_mem_singleton.2 h

theorem append {problems problems' : List Problem} (h : Counted problems) (h' : Counted problems') :
    Counted (problems ++ problems') := List.forall_mem_append.2 ⟨h, h'⟩

theorem flatMap {α : Type} {f : α → List Problem} {l : List α} (h : ∀ a ∈ l, Counted (f a)) :
    Counted (l.flatMap f) := by
  intro p hp
  obtain ⟨a, ha, hp⟩ := List.mem_flatMap.1 hp
  exact h a ha p hp

theorem ite {c : Prop} [Decidable c] {problems problems' : List Problem} (h : Counted problems)
    (h' : Counted problems') : Counted (if c then problems else problems') := by
  split
  · exact h
  · exact h'

end Counted

namespace Facets

variable {f : Facets} {lexical : Text} {value : Value}

theorem counted_checkLength (length : Nat) (unit : LengthUnit) : Counted (f.checkLength lexical length unit) := by
  rw [checkLength]
  refine .append (.append ?_ ?_) ?_ <;> split
  all_goals first | exact .nil | exact .ite .nil (.one rfl) | exact .ite (.one rfl) .nil

theorem counted_checkBound (kind : BoundKind) (bound : Option Literal) :
    Counted (checkBound kind bound lexical value) := by
  cases bound with
  | none => exact .nil
  | some b => exact .ite .nil (.one rfl)

theorem counted_checkDigits {n : Nat} (hn : n < Decimal.maxWhole) (h : ∀ d, value = .decimal d → d.Below n) :
    Counted (f.checkDigits lexical value) := by
  cases value with
  | decimal d =>
      obtain ⟨y, hy, _⟩ := (h d rfl).round? hn
      rw [checkDigits]
      refine .ite .nil ?_
      rw [Decimal.digits?, hy]
      refine .append ?_ ?_ <;> split
      all_goals first | exact .nil | exact .ite (.one rfl) .nil
  | _ => exact .nil

theorem counted_checkLengths (length : Option Nat) (unit : LengthUnit) :
    Counted (match length with | some n => f.checkLength lexical n unit | none => []) := by
  cases length with
  | some n => exact counted_checkLength n unit
  | none => exact .nil

theorem counted_check {n : Nat} (hn : n < Decimal.maxWhole) (h : ∀ d, value = .decimal d → d.Below n)
    (length : Option Nat) (unit : LengthUnit) : Counted (f.check lexical value length unit) := by
  have hpatterns : Counted (f.checkPatterns lexical) := .ite .nil (.one rfl)
  have henumeration : Counted (f.checkEnumeration lexical value) := by
    rw [checkEnumeration]
    split
    · exact .nil
    · exact .ite .nil (.one rfl)
  have hbound (kind : BoundKind) (bound : Option Literal) : Counted (checkBound kind bound lexical value) :=
    counted_checkBound kind bound
  exact (hpatterns.append henumeration).append (counted_checkLengths length unit) |>.append (hbound _ _)
    |>.append (hbound _ _) |>.append (hbound _ _) |>.append (hbound _ _) |>.append (counted_checkDigits hn h)

end Facets

namespace SimpleType

theorem counted_checkSteps (steps : List Facets) (lexical : Text) (length : Option Nat) (unit : LengthUnit) :
    Counted (checkSteps steps lexical length unit) := by
  have htext : ∀ d, Value.text lexical = .decimal d → d.Below 0 := fun _ h => nomatch h
  exact .flatMap fun _ _ => Facets.counted_check (by decide) htext length unit

/-- If no member tells of too many digits, then all members reject a text or one accepts it. -/
theorem rejections?_nil {members : List SimpleType} {text : Text}
    (h : ∀ m ∈ members, Counted (checkFrom m m [] text)) {overflows : List Problem}
    (ho : rejections? members text = some overflows) : overflows = [] := by
  induction members with
  | nil =>
      rw [rejections?] at ho
      exact (Option.some.inj ho).symm
  | cons m members ih =>
      obtain ⟨hm, hmembers⟩ := List.forall_mem_cons.1 h
      rw [rejections?] at ho
      split at ho
      · exact nomatch ho
      · next problem problems hproblems =>
          have hnone : (problem :: problems).filter Problem.isOverflow = [] := by
            refine List.filter_eq_nil_iff.2 fun p hp => ?_
            rw [hm p (hproblems ▸ hp)]
            simp
          rw [hnone] at ho
          exact ih hmembers ho

theorem counted_checkFrom (t top : SimpleType) (steps : List Facets) (text : Text)
    (h : text.length + carries < Decimal.maxWhole) : Counted (checkFrom t top steps text) := by
  induction t using induct generalizing top steps text with
  | primitive p =>
      have hlength := WhiteSpace.length_apply_le top.whiteSpace text
      have hread := Value.read_staysIn p (t := top.whiteSpace.apply text) (by omega)
      rw [checkFrom]
      dsimp only
      generalize Value.read p (top.whiteSpace.apply text) = x at hread ⊢
      cases hread with
      | ok hv => exact .flatMap fun _ _ => Facets.counted_check (by omega) hv _ _
      | error he =>
          split
          · next heq => exact absurd (Except.error.inj heq) he
          · exact .one rfl
          · next heq => exact nomatch heq
  | restriction name base facets ih =>
      rw [checkFrom]
      exact ih top (facets :: steps) text h
  | list name item facets ih =>
      cases item with
      | none =>
          rw [checkFrom]
          exact counted_checkSteps _ _ _ _
      | some item =>
          rw [checkFrom]
          -- an item is no longer than the text, so that the bound holds for it too
          refine .append (.flatMap fun i hi => ih item rfl item [] i ?_) (counted_checkSteps _ _ _ _)
          have := length_le_of_mem_listItems hi
          have := WhiteSpace.length_apply_le .collapse text
          omega
  | union name members facets ih =>
      rw [checkFrom.eq_def]
      dsimp only
      split
      · exact .one rfl
      · next ho =>
          rw [rejections?_nil (fun m hm => ih m hm m [] text h) ho]
          exact .nil
      · exact counted_checkSteps _ _ _ _

/-- Only a very long text can have more digits than arithmetic allows. -/
theorem length_of_overflow {t : SimpleType} {text : Text} (h : (t.check text).any (·.isOverflow) = true) :
    Decimal.maxWhole ≤ text.length + carries := by
  obtain ⟨p, hp, ho⟩ := List.any_eq_true.1 h
  refine Nat.le_of_not_lt fun hlt => ?_
  exact nomatch ho.symm.trans (counted_checkFrom t t [] text hlt p hp)

end SimpleType

end XmlSchema
