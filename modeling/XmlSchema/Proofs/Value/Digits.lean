import Mathlib.Data.List.DropRight
import Mathlib.Data.Nat.Digits.Lemmas
import XmlSchema.Proofs.Value.Durations
import XmlSchema.Proofs.Value.Magnitude
import XmlSchema.Proofs.Value.Scans
import XmlSchema.SimpleType.Check

/-!
How the digits of decimals are counted. They are counted after rounding, so the counts are those of the number that a
text writes exactly if rounding keeps them.
-/

namespace XmlSchema

/-! ### Digits of whole numbers -/

namespace Numeral

theorem lt_pow_digitCountBelow {p n : Nat} (h : n < 10 ^ 2 ^ p) : n < 10 ^ digitCountBelow p n := by
  induction p generalizing n with
  | zero =>
      rw [digitCountBelow]
      split <;> omega
  | succ p ih =>
      rw [digitCountBelow]
      simp only [Nat.pow_eq]
      split
      · next hlt => exact ih hlt
      · have hrest : n / 10 ^ 2 ^ p < 10 ^ 2 ^ p := by
          rw [Nat.div_lt_iff_lt_mul (Nat.pow_pos (by decide)), ← Nat.pow_add, ← Nat.mul_two, ← Nat.pow_succ]
          exact h
        rw [Nat.pow_add, Nat.mul_comm, ← Nat.div_lt_iff_lt_mul (Nat.pow_pos (by decide))]
        exact ih hrest

theorem digitCount_le_iff {d n : Nat} : digitCount n ≤ d ↔ n < 10 ^ d := by
  constructor
  · intro h
    calc n < 10 ^ digitCount n := lt_pow_digitCountBelow (lt_pow_of_log2 n)
      _ ≤ 10 ^ d := Nat.pow_le_pow_right (by decide) h
  · exact digitCount_le

theorem digitCount_eq (n : Nat) : digitCount n = (Nat.digits 10 n).length :=
  eq_of_forall_ge_iff fun d => digitCount_le_iff.trans (Nat.digits_length_le_iff (by decide) n).symm

theorem digitCount_pos {n : Nat} (h : n ≠ 0) : 0 < digitCount n := by
  rw [Nat.pos_iff_ne_zero]
  intro hzero
  exact h (Nat.lt_one_iff.1 (digitCount_le_iff.1 hzero.le))

end Numeral

theorem roundHalfEven_one (n : Nat) : roundHalfEven n 1 = n := by
  rw [roundHalfEven, Nat.div_one, Nat.mod_one, if_pos (by decide)]

theorem le_roundHalfEven (n d : Nat) : n / d ≤ roundHalfEven n d := by
  rw [roundHalfEven]
  split
  · exact le_rfl
  · split
    · omega
    · split <;> omega

namespace Decimal

/-! ### The digits that a number takes -/

/-- The number is written with so many fraction digits as `unscaled`, and with no fewer. -/
structure IsLowest (v : ℚ) (unscaled : Int) (fraction : Nat) : Prop where
  written : v * 10 ^ fraction = unscaled
  least (u : Int) (f : Nat) (h : v * 10 ^ f = u) : fraction ≤ f

/-- The digits from the first that is not zero to the last fraction digit or that of the ones. -/
def significant (unscaled : Int) : Nat := (Nat.digits 10 unscaled.natAbs).length

def total (unscaled : Int) (fraction : Nat) : Nat := max (max fraction 1) (significant unscaled)

/-- Rounding keeps all digits of a number, or it is whole and rounding keeps the count of them, which is not more than
arithmetic allows. -/
def KeepsCount (unscaled : Int) (fraction : Nat) : Prop :=
  significant unscaled ≤ precision ∧ fraction ≤ maxScale ∨
    fraction = 0 ∧ significant unscaled ≤ maxWhole ∧
      roundHalfEven unscaled.natAbs (10 ^ (significant unscaled - precision)) < 10 ^ precision

variable (x : Decimal)

theorem toRat_isLowest : IsLowest x.toRat x.unscaled x.scale := by
  constructor
  · rw [toRat, div_mul_cancel₀ _ (by positivity)]
  · intro u f h
    by_contra hlt
    obtain ⟨k, hk⟩ := Nat.exists_eq_add_of_lt (Nat.lt_of_not_le hlt)
    have hunscaled : x.unscaled = u * 10 ^ (k + 1) := by
      have hscale : (10 : ℚ) ^ x.scale = 10 ^ f * 10 ^ (k + 1) := by rw [hk, ← pow_add, Nat.add_assoc]
      rw [toRat, hscale, div_mul_eq_mul_div, div_eq_iff (by positivity)] at h
      have : (x.unscaled : ℚ) = u * 10 ^ (k + 1) := mul_right_cancel₀ (b := (10 : ℚ) ^ f) (by positivity) (by linarith)
      exact_mod_cast this
    rcases x.lowest with hzero | hmod
    · omega
    · rw [pow_succ, ← mul_assoc] at hunscaled
      omega

theorem significant_eq (u : Int) : significant u = Numeral.digitCount u.natAbs := (Numeral.digitCount_eq _).symm

theorem scale_ofScaled_le (u : Int) (s : Nat) : (ofScaled u s).scale ≤ s := by
  induction s generalizing u with
  | zero => exact le_rfl
  | succ s ih =>
      rw [ofScaled]
      split
      · exact Nat.le_succ_of_le (ih _)
      · exact le_rfl

theorem ofScaled_lowest : ofScaled x.unscaled x.scale = x := by
  obtain ⟨u, s, hlowest⟩ := x
  cases s with
  | zero => rfl
  | succ s => exact dif_neg (hlowest.resolve_left (Nat.succ_ne_zero s))

theorem toRat_ofScaled (u : Int) (s : Nat) : (ofScaled u s).toRat = u / 10 ^ s := by
  induction s generalizing u with
  | zero => rfl
  | succ s ih =>
      rw [ofScaled]
      split
      · next hmod =>
          have hu : (u : ℚ) = 10 * (u / 10 : Int) := by exact_mod_cast (by omega : u = 10 * (u / 10))
          rw [ih, hu, pow_succ, mul_comm (10 ^ s : ℚ), mul_div_mul_left _ _ (by decide)]
      · rfl

/-! ### Counting after rounding -/

variable {x}

theorem excess_eq_zero_iff : x.excess = 0 ↔ significant x.unscaled ≤ precision ∧ x.scale ≤ maxScale := by
  rw [excess, significant_eq]
  omega

theorem round_eq_self (h : x.excess = 0) : x.round = x := by
  have hu : (if x.unscaled < 0 then -(x.unscaled.natAbs : Int) else x.unscaled.natAbs) = x.unscaled := by
    split <;> omega
  rw [Decimal.round]
  simp only [h, Nat.pow_eq, Nat.pow_zero, roundHalfEven_one, hu]
  rw [if_pos (Nat.zero_le _), Nat.sub_zero, ofScaled_lowest]

/-- What rounding does to a number with a fraction, it does by dropping fraction digits. -/
theorem scale_round_lt (h : x.excess ≠ 0) (hscale : x.scale ≠ 0) : x.round.scale < x.scale := by
  rw [Decimal.round]
  split
  · next hle => exact (scale_ofScaled_le _ _).trans_lt (by omega)
  · exact Nat.pos_of_ne_zero hscale

theorem round_whole (hscale : x.scale = 0) :
    x.round.scale = 0 ∧
      x.round.unscaled.natAbs = roundHalfEven x.unscaled.natAbs (10 ^ x.excess) * 10 ^ x.excess := by
  have hsign (q : Nat) : (if x.unscaled < 0 then -(q : Int) else q).natAbs = q := by
    split <;> omega
  rw [Decimal.round]
  simp only [Nat.pow_eq, hscale, Nat.sub_zero]
  split
  · next hle =>
      rw [Nat.le_zero.1 hle, Nat.pow_zero, Nat.mul_one]
      exact ⟨rfl, hsign _⟩
  · refine ⟨rfl, ?_⟩
    rw [ofInt, ofScaled, Int.natAbs_mul, hsign, Int.natAbs_natCast]

theorem digits?_eq : x.digits? =
    if maxWhole + x.round.scale < significant x.round.unscaled then none
    else some (total x.round.unscaled x.round.scale, x.round.scale) := by
  rw [digits?, round?, ← significant_eq]
  split
  · rfl
  · rw [Option.map_some, total]
    split
    · next hzero =>
        have hscale : x.round.scale = 0 := x.round.lowest.resolve_right (by rw [hzero]; decide)
        rw [hzero, hscale]
        rfl
    · next hne =>
        have := Numeral.digitCount_pos (Int.natAbs_ne_zero.2 hne)
        rw [significant_eq]
        congr 2
        omega

/-- The digits that rounding leaves of a whole number with too many begin with one that is not zero. -/
theorem significant_round_whole (hscale : x.scale = 0) (hexcess : x.excess ≠ 0) :
    significant x.unscaled ≤ significant x.round.unscaled ∧
      (significant x.round.unscaled ≤ significant x.unscaled ↔
        roundHalfEven x.unscaled.natAbs (10 ^ x.excess) < 10 ^ precision) := by
  have hcount : significant x.unscaled = precision + x.excess := by
    have hmax : excess x = max (significant x.unscaled - precision) (x.scale - maxScale) := by
      rw [excess, significant_eq]
    omega
  rw [hcount, significant_eq, (round_whole hscale).2]
  have hpos : 0 < 10 ^ x.excess := Nat.pow_pos (by decide)
  constructor
  · by_contra hlt
    have hlow : 10 ^ (precision + x.excess - 1) ≤ x.unscaled.natAbs := by
      by_contra hlow
      have hle := Numeral.digitCount_le_iff.2 (Nat.lt_of_not_le hlow)
      rw [← significant_eq, hcount, precision] at hle
      omega
    have hdiv : 10 ^ (precision - 1) ≤ x.unscaled.natAbs / 10 ^ x.excess := by
      rw [Nat.le_div_iff_mul_le hpos, ← Nat.pow_add, ← Nat.sub_add_comm (by decide)]
      exact hlow
    have hlt := Numeral.digitCount_le_iff.1 (Nat.le_sub_one_of_lt (Nat.lt_of_not_le hlt))
    have hle := hdiv.trans (le_roundHalfEven _ _)
    rw [Nat.sub_add_comm (by decide), Nat.pow_add] at hlt
    exact absurd (Nat.lt_of_mul_lt_mul_right hlt) hle.not_gt
  · rw [Numeral.digitCount_le_iff, Nat.pow_add]
    exact Nat.mul_lt_mul_right hpos

theorem digits?_eq_some_iff : x.digits? = some (total x.unscaled x.scale, x.scale) ↔ KeepsCount x.unscaled x.scale := by
  rw [digits?_eq, KeepsCount, ← excess_eq_zero_iff]
  by_cases hexcess : x.excess = 0
  · have hcount := (excess_eq_zero_iff.1 hexcess).1
    rw [round_eq_self hexcess, if_neg (by rw [precision] at hcount; rw [maxWhole]; omega)]
    simp only [hexcess, true_or]
  · simp only [hexcess, false_or]
    by_cases hscale : x.scale = 0
    · have hround := (round_whole hscale).1
      obtain ⟨hle, hge⟩ := significant_round_whole hscale hexcess
      have hmax : x.excess = significant x.unscaled - precision := by
        rw [excess, significant_eq, hscale]
        omega
      rw [hround, hscale, ← hmax, ← hge, total, total]
      have : precision = 28 := rfl
      constructor
      · intro h
        split at h
        · cases h
        · simp only [Option.some.injEq, Prod.mk.injEq] at h
          omega
      · rintro ⟨-, hwhole, hcount⟩
        rw [le_antisymm hcount hle, if_neg (by omega)]
    · have hlt := scale_round_lt hexcess hscale
      simp only [hscale, false_and, iff_false]
      intro h
      split at h
      · cases h
      · simp only [Option.some.injEq, Prod.mk.injEq] at h
        omega

end Decimal

/-! ### Numbers as they are written -/

namespace Lexical

/-- A text is a sign and digits, with a point before those that stand behind it. A plus may be left out, and a point
with no digit behind it. -/
structure Writes (t : Text) (negative : Bool) (before behind : Text) : Prop where
  parts : ∃ sign point, t = sign ++ (before ++ (point ++ behind)) ∧
    (if negative then sign = [('-' : CodePoint)] else sign = [] ∨ sign = [('+' : CodePoint)]) ∧
    (point = [('.' : CodePoint)] ∨ point = [] ∧ behind = [])
  digits : ∀ c ∈ before ++ behind, c.isAsciiDigit = true
  nonempty : before ++ behind ≠ []

theorem takes_numeral : Takes (fun taken n => Writes taken n.1 n.2.1 n.2.2) numeral := by
  refine (takes_accept '-').bind fun minus negative hminus => ?_
  have hdigits (sign : Text)
      (hsign : if negative then sign = [('-' : CodePoint)] else sign = [] ∨ sign = [('+' : CodePoint)]) :
      Takes (fun taken n => Writes (sign ++ taken) n.1 n.2.1 n.2.2) (do
        let before ← digits
        let point ← accept '.'
        let behind ← if point then digits else pure []
        if before.isEmpty && behind.isEmpty then failure else return (negative, before, behind)) := by
    refine takes_digits.bind fun lead before ⟨hbefore, hds⟩ => (takes_accept '.').bind fun dot point hpoint => ?_
    subst lead dot
    have hend (behind : Text) (hbehind : ∀ c ∈ behind, c.isAsciiDigit = true) (hpoint : point = false → behind = []) :
        Takes (fun taken n => Writes (sign ++ (before ++ ((if point then [('.' : CodePoint)] else []) ++
            (behind ++ taken)))) n.1 n.2.1 n.2.2)
          (if before.isEmpty && behind.isEmpty then failure else return (negative, before, behind)) := by
      refine .ite (fun _ => .failure) fun hne => .pure ⟨⟨sign, _, by rw [List.append_nil], hsign, ?_⟩, ?_, ?_⟩
      · cases point with
        | true => exact .inl rfl
        | false => exact .inr ⟨rfl, hpoint rfl⟩
      · exact fun c hc => (List.mem_append.1 hc).elim (hds c) (hbehind c)
      · intro hnil
        obtain ⟨rfl, rfl⟩ : before = [] ∧ behind = [] := List.append_eq_nil_iff.1 hnil
        exact hne rfl
    cases point with
    | true => exact takes_digits.bind fun _ behind ⟨htaken, hbehind⟩ => htaken ▸ hend behind hbehind nofun
    | false => exact hend [] nofun fun _ => rfl
  refine .ite (fun hplus => (takes_accept '+').bind fun plus found hfound => ?_) fun hminus' => ?_
  · cases negative with
    | true => exact absurd hplus Bool.false_ne_true
    | false =>
        subst hminus
        refine hdigits plus ?_
        cases found with
        | true => exact .inr hfound
        | false => exact .inl hfound
  · cases negative with
    | true => exact hdigits minus hminus
    | false => exact absurd rfl hminus'

/-- The number that is written with a sign and digits before and behind the point. -/
def written (negative : Bool) (before behind : Text) : ℚ :=
  signed negative (Text.digitsValue (before ++ behind)) / 10 ^ behind.length

theorem written_zero (negative : Bool) (before behind : Text) :
    written negative before (behind ++ [('0' : CodePoint)]) = written negative before behind := by
  have hvalue : Text.digitsValue (before ++ (behind ++ [('0' : CodePoint)])) =
      10 * Text.digitsValue (before ++ behind) := by
    rw [← List.append_assoc, Text.digitsValue_concat]
    rfl
  have hsigned (n : Nat) : (signed negative (10 * n) : ℚ) = 10 * signed negative n := by
    cases negative <;> simp [signed]
  rw [written, written, hvalue, hsigned, List.length_append, List.length_singleton, pow_succ, mul_comm (10 ^ _ : ℚ),
    mul_div_mul_left _ _ (by decide)]

theorem toRat_decimalOf (negative : Bool) (before behind : Text) :
    (decimalOf negative before behind).toRat = written negative before behind := by
  have hdrop : (decimalOf negative before behind).toRat =
      written negative before (behind.rdropWhile (· = CodePoint.ofChar '0')) := Decimal.toRat_ofScaled _ _
  rw [hdrop]
  induction behind using List.reverseRecOn with
  | nil => rfl
  | append_singleton behind c ih =>
      rw [List.rdropWhile_concat]
      split
      · next hc =>
          rw [of_decide_eq_true hc, written_zero]
          exact ih (Decimal.toRat_ofScaled _ _)
      · rfl

theorem readDecimal_writes {t : Text} {x : Decimal} (h : readDecimal t = .ok x) :
    ∃ negative before behind, Writes t negative before behind ∧ x.toRat = written negative before behind := by
  rw [readDecimal] at h
  split at h
  · next negative before behind hnumeral =>
      cases h
      exact ⟨negative, before, behind, takes_numeral.whole hnumeral, toRat_decimalOf ..⟩
  · exact nomatch h

end Lexical

/-! ### Digit facets -/

namespace Facets

/-- A number with so many digits is within the digits that the facets allow. -/
def AllowsDigits (f : Facets) (total fraction : Nat) : Prop :=
  (∀ n ∈ f.totalDigits, (total : Int) ≤ n) ∧ ∀ n ∈ f.fractionDigits, (fraction : Int) ≤ n

theorem checkDigits_eq_nil_iff {f : Facets} {lexical : Text} {x : Decimal} {total fraction : Nat}
    (h : x.digits? = some (total, fraction)) :
    f.checkDigits lexical (.decimal x) = [] ↔ f.AllowsDigits total fraction := by
  rw [AllowsDigits]
  cases htotal : f.totalDigits <;> cases hfraction : f.fractionDigits <;>
    simp [checkDigits, htotal, hfraction, h]

/-- Facets for a number with no more than so many digits. -/
def ofDigits (total fraction : Nat) : Facets := { totalDigits := some total, fractionDigits := some fraction }

theorem allowsDigits_ofDigits {total fraction m n : Nat} :
    (ofDigits total fraction).AllowsDigits m n ↔ m ≤ total ∧ n ≤ fraction := by
  simp [AllowsDigits, ofDigits]

/-- What facets say of a number for all limits tells how its digits are counted. -/
theorem checkDigits_iff {x : Decimal} {total fraction : Nat} :
    (∀ (f : Facets) (lexical : Text), f.checkDigits lexical (.decimal x) = [] ↔ f.AllowsDigits total fraction) ↔
      x.digits? = some (total, fraction) := by
  constructor
  · intro h
    cases hdigits : x.digits? with
    | none =>
        have hnil := (h (ofDigits total fraction) []).2 (allowsDigits_ofDigits.2 ⟨le_rfl, le_rfl⟩)
        simp [checkDigits, ofDigits, hdigits] at hnil
    | some counts =>
        obtain ⟨m, n⟩ := counts
        have hagree (k l : Nat) : m ≤ k ∧ n ≤ l ↔ total ≤ k ∧ fraction ≤ l := by
          rw [← allowsDigits_ofDigits, ← checkDigits_eq_nil_iff hdigits, h _ [], allowsDigits_ofDigits]
        have hle := (hagree m n).1 ⟨le_rfl, le_rfl⟩
        have hge := (hagree total fraction).2 ⟨le_rfl, le_rfl⟩
        rw [le_antisymm hge.1 hle.1, le_antisymm hge.2 hle.2]
  · exact fun h _ _ => checkDigits_eq_nil_iff h

end Facets

theorem Value.read_decimal {t : Text} {x : Decimal} (h : read .decimal t = .ok (.decimal x)) :
    Lexical.readDecimal t = .ok x := by
  simp only [read, Except.map] at h
  split at h <;> cases h
  assumption

/-- A text that denotes a decimal writes a number. The digits of the number are counted as they are, and digit facets
accept it exactly within their limits, if and only if rounding keeps their count. -/
theorem digits_counted_of_keepsCount {t : Text} {x : Decimal} (h : Value.read .decimal t = .ok (.decimal x)) :
    ∃ negative before behind unscaled fraction, Lexical.Writes t negative before behind ∧
      Decimal.IsLowest (Lexical.written negative before behind) unscaled fraction ∧
      (x.digits? = some (Decimal.total unscaled fraction, fraction) ↔ Decimal.KeepsCount unscaled fraction) ∧
      ((∀ (f : Facets) (lexical : Text), f.checkDigits lexical (.decimal x) = [] ↔
        f.AllowsDigits (Decimal.total unscaled fraction) fraction) ↔ Decimal.KeepsCount unscaled fraction) := by
  obtain ⟨negative, before, behind, hwrites, hvalue⟩ := Lexical.readDecimal_writes (Value.read_decimal h)
  refine ⟨negative, before, behind, x.unscaled, x.scale, hwrites, hvalue ▸ x.toRat_isLowest,
    Decimal.digits?_eq_some_iff, ?_⟩
  rw [Facets.checkDigits_iff, Decimal.digits?_eq_some_iff]

theorem digits_counted_of_keepsCount_price :
    Value.read .decimal "12.500" = .ok (.decimal (.ofScaled 125 1)) ∧
    ∃ negative before behind unscaled fraction, Lexical.Writes "12.500" negative before behind ∧
      Decimal.IsLowest (Lexical.written negative before behind) unscaled fraction ∧
      ((Decimal.ofScaled 125 1).digits? = some (Decimal.total unscaled fraction, fraction) ↔
        Decimal.KeepsCount unscaled fraction) ∧
      ((∀ (f : Facets) (lexical : Text), f.checkDigits lexical (.decimal (.ofScaled 125 1)) = [] ↔
        f.AllowsDigits (Decimal.total unscaled fraction) fraction) ↔ Decimal.KeepsCount unscaled fraction) := by
  have h : Value.read .decimal "12.500" = .ok (.decimal (.ofScaled 125 1)) := by decide +kernel
  exact ⟨h, digits_counted_of_keepsCount h⟩

/-- Of 29 fraction digits the last is lost. -/
example : (Decimal.ofScaled 12345678901234567890123456789 29).digits? = some (28, 28) := by decide +kernel

end XmlSchema
