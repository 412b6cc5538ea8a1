import XmlSchema.Proofs.Pattern.Grammar
import XmlSchema.Proofs.Value.Digits
import XmlSchema.Proofs.Value.Instants

/-!
Integers as texts. A sign and digits are read as the decimal that is the integer they denote, however many digits there
are.
-/

namespace XmlSchema.Lexical

open Pattern (IsNumeral)

/-- The number that ASCII digits denote. -/
def numeralValue (ds : Text) : Nat := Nat.ofDigits 10 (ds.reverse.map fun c => c.val - 0x30)

/-- The text is digits behind a sign or none, and denotes the integer. -/
inductive WritesInteger : Text → Int → Prop
  | plain {ds : Text} (h : IsNumeral ds) : WritesInteger ds (numeralValue ds)
  | plus {ds : Text} (h : IsNumeral ds) : WritesInteger (('+' : CodePoint) :: ds) (numeralValue ds)
  | minus {ds : Text} (h : IsNumeral ds) : WritesInteger (('-' : CodePoint) :: ds) (-numeralValue ds)

theorem numeralValue_concat (ds : Text) (c : CodePoint) :
    numeralValue (ds ++ [c]) = 10 * numeralValue ds + (c.val - 0x30) := by
  rw [numeralValue, List.reverse_append, List.reverse_singleton, List.singleton_append, List.map_cons,
    Nat.ofDigits_cons, Nat.add_comm]
  rfl

theorem digitsValue_eq {ds : Text} (h : ∀ c ∈ ds, c.isAsciiDigit = true) : Text.digitsValue ds = numeralValue ds := by
  induction ds using List.reverseRecOn with
  | nil => rfl
  | append_singleton ds c ih =>
      have hc := h c (List.mem_append_right _ (List.mem_singleton_self c))
      rw [Text.digitsValue_concat, ih fun d hd => h d (List.mem_append_left _ hd),
        CodePoint.digitValue?_of_isAsciiDigit hc, Option.getD_some, numeralValue_concat]

theorem numeral_unsigned {ds : Text} (h : IsNumeral ds) (negative : Bool) :
    (do
      let before ← digits
      let point ← accept '.'
      let behind ← if point then digits else pure []
      if before.isEmpty && behind.isEmpty then failure else return (negative, before, behind) :
        Scan (Bool × Text × Text)) ds = some ((negative, ds, []), []) := by
  have hpoint : accept '.' [] = some (false, []) := rfl
  have hbehind : (pure [] : Scan Text) [] = some ([], []) := rfl
  have hds : digits ds = some (ds, []) := by simpa using digits_append h.2 undigited_nil
  rw [scan_bind hds, scan_bind hpoint, if_neg Bool.false_ne_true, scan_bind hbehind,
    List.isEmpty_eq_false_iff.2 h.1]
  rfl

theorem numeral_plain {ds : Text} (h : IsNumeral ds) : numeral ds = some ((false, ds, []), []) := by
  have hsign {c : CodePoint} (hc : c.isAsciiDigit = false) : accept c ds = some (false, ds) :=
    accept_other fun hhead => Bool.noConfusion (hc.symm.trans (h.2 c (List.mem_of_mem_head? hhead)))
  rw [numeral, scan_bind (hsign rfl)]
  change (accept '+' >>= _) ds = _
  rw [scan_bind (hsign rfl)]
  exact numeral_unsigned h false

theorem numeral_plus {ds : Text} (h : IsNumeral ds) :
    numeral (('+' : CodePoint) :: ds) = some ((false, ds, []), []) := by
  have hminus : accept '-' (('+' : CodePoint) :: ds) = some (false, ('+' : CodePoint) :: ds) := rfl
  rw [numeral, scan_bind hminus]
  change (accept '+' >>= _) (('+' : CodePoint) :: ds) = _
  rw [scan_bind (accept_self '+' ds)]
  exact numeral_unsigned h false

theorem numeral_minus {ds : Text} (h : IsNumeral ds) :
    numeral (('-' : CodePoint) :: ds) = some ((true, ds, []), []) := by
  rw [numeral, scan_bind (accept_self '-' ds)]
  exact numeral_unsigned h true

theorem readDecimal_integer {t : Text} {i : Int} (h : WritesInteger t i) : readDecimal t = .ok (Decimal.ofInt i) := by
  have hdecimal {ds : Text} (hds : IsNumeral ds) (negative : Bool) :
      decimalOf negative ds [] = Decimal.ofInt (signed negative (numeralValue ds)) := by
    rw [← digitsValue_eq hds.2, decimalOf, List.reverse_nil, List.dropWhile_nil, List.reverse_nil, List.append_nil]
    rfl
  cases h with
  | plain hds =>
      rw [readDecimal, whole, numeral_plain hds]
      exact congrArg Except.ok (hdecimal hds false)
  | plus hds =>
      rw [readDecimal, whole, numeral_plus hds]
      exact congrArg Except.ok (hdecimal hds false)
  | minus hds =>
      rw [readDecimal, whole, numeral_minus hds]
      exact congrArg Except.ok (hdecimal hds true)

end XmlSchema.Lexical
