import XmlSchema.Proofs.Value.DurationForms
import XmlSchema.Proofs.Value.Integers
import XmlSchema.Proofs.Value.Overflow

/-!
The months and seconds of durations are exactly those that the text says: the sums keep all digits as long as the
numbers of days, hours, minutes and seconds are not too long.
-/

namespace XmlSchema

/-! ### Arithmetic without rounding -/

namespace Decimal

variable (x y : Decimal)

theorem toRat_neg : x.neg.toRat = -x.toRat := by
  rw [neg, toRat_ofScaled, Int.cast_neg, neg_div]
  rfl

theorem toRat_add : (x.add y).toRat = x.toRat + y.toRat := by
  have hscaled {u : Int} {s m : Nat} (h : s ≤ m) : (u * 10 ^ (m - s) : ℚ) / 10 ^ m = u / 10 ^ s := by
    have hpow : (10 : ℚ) ^ m = 10 ^ s * 10 ^ (m - s) := by rw [← pow_add, Nat.add_sub_cancel' h]
    rw [hpow, mul_div_mul_right _ _ (by positivity)]
  rw [add, toRat_ofScaled, Nat.pow_eq, Nat.pow_eq]
  push_cast
  rw [add_div, hscaled (Nat.le_max_left ..), hscaled (Nat.le_max_right ..)]
  rfl

theorem add_ofInt (a b : Int) : (ofInt a).add (ofInt b) = ofInt (a + b) := by
  simp [add, ofInt, ofScaled]

theorem mul_ofInt (a b : Int) : (ofInt a).mul (ofInt b) = ofInt (a * b) := rfl

theorem toRat_ofInt (a : Int) : (ofInt a).toRat = a := by
  rw [ofInt, toRat_ofScaled, pow_zero, div_one]

variable {x y}

theorem scale_add_le : (x.add y).scale ≤ max x.scale y.scale := scale_ofScaled_le _ _

end Decimal

namespace Lexical

open Decimal

variable {ds : Text}

theorem rounded_of_below {x : Decimal} {n : Nat} (h : x.Below n) (hn : n + x.scale ≤ precision) :
    rounded x = .ok x := by
  have hcount := h.digitCount_le
  have hprecision : precision = 28 := rfl
  have hscale : maxScale = 1000026 := rfl
  have hwhole : maxWhole = 1000000 := rfl
  have hexcess : x.excess = 0 := by
    rw [excess_eq_zero_iff, significant_eq]
    omega
  have hround : x.round? = some x := by
    have hfits : ¬maxWhole + x.scale < Numeral.digitCount x.unscaled.natAbs := by omega
    rw [round?, round_eq_self hexcess]
    exact if_neg hfits
  unfold rounded
  simp only [hround]

theorem rounded_ofInt {n : Int} (h : n.natAbs < 10 ^ precision) : rounded (ofInt n) = .ok (ofInt n) :=
  rounded_of_below (below_ofInt h) (Nat.le_refl _)

/-! ### Months and seconds -/

namespace DurationParts

/-- Years and months are short enough to be read, and the other numbers for no digit of a sum to be lost. -/
structure IsModerate (d : DurationParts) : Prop where
  years : d.years.length ≤ 4300
  months : d.months.length ≤ 4300
  times : ∀ ds ∈ [d.days, d.hours, d.minutes, d.seconds.1], ds.length ≤ 12
  fraction : d.seconds.2.length ≤ 9

variable (d : DurationParts)

/-- The months of a duration, without the sign. -/
def monthCount : Nat := 12 * numeralValue d.years + numeralValue d.months

/-- The seconds of a duration, without the sign. -/
def secondCount : ℚ :=
  86400 * numeralValue d.days + 3600 * numeralValue d.hours + 60 * numeralValue d.minutes +
    (numeralValue d.seconds.1 + numeralValue d.seconds.2 / 10 ^ d.seconds.2.length)

end DurationParts

theorem bind_of_ok {α β : Type} {x : Except LexicalError α} {a : α} {f : α → Except LexicalError β} (h : x = .ok a) :
    (x >>= f) = f a := by
  rw [h]
  rfl

theorem bounded_of_length (h : ds.length ≤ 4300) : bounded ds = .ok (Text.digitsValue ds) := by
  have hmax : ds.length ≤ Text.maxDigits := h
  rw [bounded, Text.boundedValue?, if_pos hmax]

theorem digitsValue_append (ds ds' : Text) :
    Text.digitsValue (ds ++ ds') = Text.digitsValue ds * 10 ^ ds'.length + Text.digitsValue ds' := by
  induction ds' using List.reverseRecOn with
  | nil =>
      rw [List.append_nil, List.length_nil, pow_zero, Nat.mul_one]
      rfl
  | append_singleton ds' c ih =>
      rw [← List.append_assoc, Text.digitsValue_concat, ih, Text.digitsValue_concat, List.length_append,
        List.length_singleton, Nat.pow_succ]
      ring

theorem scale_decimalOf_le (negative : Bool) (before behind : Text) :
    (decimalOf negative before behind).scale ≤ behind.length := by
  refine (scale_ofScaled_le _ _).trans ?_
  rw [List.length_reverse]
  exact (List.length_dropWhile_le _ _).trans_eq List.length_reverse

namespace DurationParts

variable {d : DurationParts}

/-- The sum of the seconds as a decimal, without the sign. -/
def total (d : DurationParts) : Decimal :=
  (ofInt (Text.digitsValue d.days * 86400 + Text.digitsValue d.hours * 3600 + Text.digitsValue d.minutes * 60)).add
    (decimalOf false d.seconds.1 d.seconds.2)

theorem IsWritten.monthCount_eq (hd : d.IsWritten) :
    Text.digitsValue d.years * 12 + Text.digitsValue d.months = d.monthCount := by
  rw [digitsValue_eq (hd.digits d.years (by simp)), digitsValue_eq (hd.digits d.months (by simp)), monthCount,
    Nat.mul_comm]

theorem IsWritten.toRat_total (hd : d.IsWritten) : d.total.toRat = d.secondCount := by
  have hsecs : written false d.seconds.1 d.seconds.2 =
      Text.digitsValue d.seconds.1 + Text.digitsValue d.seconds.2 / 10 ^ d.seconds.2.length := by
    rw [written, digitsValue_append, signed, if_neg Bool.false_ne_true]
    push_cast
    rw [add_div, mul_div_cancel_right₀ _ (by positivity)]
  rw [total, toRat_add, toRat_ofInt, toRat_decimalOf, hsecs, secondCount, digitsValue_eq (hd.digits d.days (by simp)),
    digitsValue_eq (hd.digits d.hours (by simp)), digitsValue_eq (hd.digits d.minutes (by simp)),
    digitsValue_eq (hd.digits d.seconds.1 (by simp)), digitsValue_eq (hd.digits d.seconds.2 (by simp))]
  push_cast
  ring

theorem IsModerate.digitsValue_lt (hd : d.IsModerate) (hds : ds ∈ [d.days, d.hours, d.minutes, d.seconds.1]) :
    Text.digitsValue ds < 10 ^ 12 :=
  (Text.digitsValue_lt ds).trans_le (Nat.pow_le_pow_right (by decide) (hd.times ds hds))

theorem IsModerate.rounded_total (hd : d.IsModerate) : rounded d.total = .ok d.total := by
  have hdays := hd.digitsValue_lt (by simp : d.days ∈ _)
  have hhours := hd.digitsValue_lt (by simp : d.hours ∈ _)
  have hminutes := hd.digitsValue_lt (by simp : d.minutes ∈ _)
  have hwhole : (ofInt (Text.digitsValue d.days * 86400 + Text.digitsValue d.hours * 3600 +
      Text.digitsValue d.minutes * 60)).Below 17 := below_ofInt (by omega)
  have hlength : d.seconds.1.length ≤ 12 := hd.times d.seconds.1 (by simp)
  have hsecs : (decimalOf false d.seconds.1 d.seconds.2).Below 17 :=
    (decimalOf_below ..).mono (hlength.trans (by decide))
  have hscale : d.total.scale ≤ 9 :=
    scale_add_le.trans (max_le (Nat.zero_le 9) ((scale_decimalOf_le ..).trans hd.fraction))
  exact rounded_of_below (hwhole.add hsecs) ((Nat.add_le_add_left hscale 18).trans (by decide))

end DurationParts

/-- The seconds of moderate numbers are summed up without rounding. -/
theorem readDuration_text {d : DurationParts} (hd : d.IsWritten) (hmoderate : d.IsModerate) :
    readDuration d.text = .ok (signed d.negative d.monthCount, if d.negative then d.total.neg else d.total) := by
  have hdays := hmoderate.digitsValue_lt (by simp : d.days ∈ _)
  have hhours := hmoderate.digitsValue_lt (by simp : d.hours ∈ _)
  have hminutes := hmoderate.digitsValue_lt (by simp : d.minutes ∈ _)
  have hproduct {n : Nat} {unit : Int} (hn : n < 10 ^ 12) (hunit : unit = 86400 ∨ unit = 3600 ∨ unit = 60) :
      rounded ((ofInt n).mul (ofInt unit)) = .ok (ofInt (n * unit)) := by
    rw [mul_ofInt]
    exact rounded_ofInt (by rw [precision]; rcases hunit with rfl | rfl | rfl <;> omega)
  have hsum {m n : Int} (hm : m.natAbs < 10 ^ 27) (hn : n.natAbs < 10 ^ 27) :
      rounded ((ofInt m).add (ofInt n)) = .ok (ofInt (m + n)) := by
    rw [add_ofInt]
    exact rounded_ofInt (by rw [precision]; omega)
  have htotal : rounded ((ofInt (Text.digitsValue d.days * 86400 + Text.digitsValue d.hours * 3600 +
      Text.digitsValue d.minutes * 60)).add (decimalOf false d.seconds.1 d.seconds.2)) = .ok d.total :=
    hmoderate.rounded_total
  rw [readDuration, whole_durationParts_iff.2 ⟨hd, rfl⟩]
  dsimp only
  rw [bind_of_ok (bounded_of_length hmoderate.years), bind_of_ok (bounded_of_length hmoderate.months),
    bind_of_ok (hproduct hdays (.inl rfl)), bind_of_ok (hproduct hhours (.inr (.inl rfl))),
    bind_of_ok (hsum (by omega) (by omega)), bind_of_ok (hproduct hminutes (.inr (.inr rfl))),
    bind_of_ok (hsum (by omega) (by omega)), bind_of_ok htotal, hd.monthCount_eq]
  rfl

/-- A text is read as a duration exactly if it is one, and the months and seconds are exactly those that it says. -/
theorem durations_exact {t : Text} (h : ∀ d : DurationParts, d.IsWritten → d.text = t → d.IsModerate) :
    ((∃ v, Value.read .duration t = .ok v) ↔ ∃ d : DurationParts, d.IsWritten ∧ d.text = t) ∧
    ∀ d : DurationParts, d.IsWritten → d.text = t →
      ∃ s, Value.read .duration t = .ok (.duration (signed d.negative d.monthCount) s) ∧
        s.toRat = (if d.negative then -1 else 1) * d.secondCount := by
  have hexact (d : DurationParts) (hd : d.IsWritten) (ht : d.text = t) :
      ∃ s, Value.read .duration t = .ok (.duration (signed d.negative d.monthCount) s) ∧
        s.toRat = (if d.negative then -1 else 1) * d.secondCount := by
    refine ⟨if d.negative then d.total.neg else d.total, ?_, ?_⟩
    · rw [Value.read, ← ht, readDuration_text hd (h d hd ht)]
      rfl
    · split
      · rw [toRat_neg, hd.toRat_total, neg_one_mul]
      · rw [hd.toRat_total, one_mul]
  refine ⟨⟨?_, ?_⟩, hexact⟩
  · rintro ⟨v, hv⟩
    cases hparts : whole durationParts t with
    | none =>
        rw [Value.read, readDuration, hparts] at hv
        cases hv
    | some d => exact ⟨d, whole_durationParts_iff.1 hparts⟩
  · rintro ⟨d, hd, ht⟩
    obtain ⟨s, hread, -⟩ := hexact d hd ht
    exact ⟨_, hread⟩

/-- A month, and a second and a half more than a day. -/
theorem durations_exact_longDay : ∃ s, Value.read .duration "-P1MT86401.50S" = .ok (.duration (-1) s) ∧
    s.toRat = -86401.5 := by
  have hparts : whole durationParts "-P1MT86401.50S" = some ⟨true, "", "1", "", "", "", ("86401", "50")⟩ := rfl
  obtain ⟨hwritten, htext⟩ := whole_durationParts_iff.1 hparts
  obtain ⟨-, hexact⟩ := durations_exact fun d hd ht => by
    obtain rfl := Option.some.inj ((whole_durationParts_iff.2 ⟨hd, ht⟩).symm.trans hparts)
    exact ⟨by decide, by decide, by decide, by decide⟩
  obtain ⟨s, hread, hs⟩ := hexact _ hwritten htext
  refine ⟨s, hread, hs.trans ?_⟩
  have hwhole : numeralValue "86401" = 86401 := rfl
  have hbehind : numeralValue "50" = 50 := rfl
  have hnone : numeralValue "" = 0 := rfl
  have hlength : List.length ("50" : Text) = 2 := rfl
  rw [DurationParts.secondCount, hwhole, hbehind, hnone, hlength]
  norm_num

end Lexical

end XmlSchema
