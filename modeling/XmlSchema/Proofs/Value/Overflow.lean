import XmlSchema.Proofs.Value.Digits
import XmlSchema.Proofs.Value.DurationForms

/-!
When a text has more digits than arithmetic allows. A decimal may have as many as it wants till they are counted; the
sums that a duration makes of its parts overflow at once.
-/

namespace XmlSchema

namespace Lexical

/-! ### Lengths of parts -/

theorem length_le_componentText (ds : Text) (unit : CodePoint) : ds.length ≤ (componentText ds unit).length := by
  rw [componentText]
  split
  · next hnil => rw [hnil]
  · rw [List.length_append]
    exact Nat.le_add_right ..

theorem length_le_secondsText (s : Text × Text) : s.1.length ≤ (secondsText s).length := by
  rw [secondsText]
  split
  · next hnil => rw [hnil]
  · rw [List.length_append]
    exact Nat.le_add_right ..

/-- The parts of a duration that count as seconds are no longer than its text. -/
theorem DurationParts.length_le_text (d : DurationParts) :
    ∀ ds ∈ [d.days, d.hours, d.minutes, d.seconds.1], ds.length ≤ d.text.length := by
  have htime : d.timeText.length ≤ (if d.timeText = [] then [] else ('T' : CodePoint) :: d.timeText).length := by
    split
    · next hnil => rw [hnil]
    · exact Nat.le_succ _
  have htext : d.dateText.length + d.timeText.length ≤ d.text.length := by
    rw [text, List.length_append, List.length_cons, List.length_append]
    omega
  have hdays := length_le_componentText d.days 'D'
  have hhours := length_le_componentText d.hours 'H'
  have hminutes := length_le_componentText d.minutes 'M'
  have hseconds := length_le_secondsText d.seconds
  simp only [dateText, timeText, List.length_append] at htext
  simp only [List.forall_mem_cons, List.not_mem_nil, IsEmpty.forall_iff, implies_true, and_true]
  omega

theorem Writes.length_le {t before behind : Text} {negative : Bool} (h : Writes t negative before behind) :
    before.length ≤ t.length := by
  obtain ⟨⟨sign, point, rfl, -⟩, -, -⟩ := h
  simp only [List.length_append]
  omega

/-! ### What texts denote -/

/-- So many digits the arithmetic of durations may add to those of a text. -/
def carries : Nat := 11

/-- Reading a text does not go beyond the digits that arithmetic allows. -/
abbrev StaysIn {α : Type} (P : α → Prop) (x : Except LexicalError α) : Prop := Ends P (· ≠ .overflow) x

section

variable {t : Text}

theorem staysIn_error {α : Type} {P : α → Prop} {e : LexicalError} (h : e ≠ .overflow) : StaysIn P (.error e) :=
  .error h

theorem decimalOf_below (negative : Bool) (before behind : Text) :
    (decimalOf negative before behind).Below before.length := by
  refine Decimal.below_ofScaled ?_
  rw [signed, ← List.length_append]
  have hlt := Text.digitsValue_lt (before ++ (behind.reverse.dropWhile (· = CodePoint.ofChar '0')).reverse)
  split
  · rwa [Int.natAbs_neg, Int.natAbs_natCast]
  · rwa [Int.natAbs_natCast]

theorem readDecimal_staysIn (t : Text) : StaysIn (Decimal.Below t.length) (readDecimal t) := by
  rw [readDecimal]
  split
  · next negative before behind h =>
      exact .ok ((decimalOf_below negative before behind).mono (takes_numeral.whole h).length_le)
  · exact staysIn_error (by decide)

theorem rounded_staysIn {n : Nat} {x : Decimal} (h : x.Below n) (hn : n < Decimal.maxWhole) :
    StaysIn (Decimal.Below (n + 1)) (rounded x) := by
  obtain ⟨y, hy, hbelow⟩ := h.round? hn
  unfold rounded
  split
  · next z hz =>
      cases hy.symm.trans hz
      exact .ok hbelow
  · next hz => exact nomatch hy.symm.trans hz

theorem bounded_staysIn (t : Text) : StaysIn (fun _ => True) (bounded t) := by
  rw [bounded]
  split
  · exact .ok trivial
  · exact staysIn_error nofun

theorem readDuration_staysIn (h : t.length + carries < Decimal.maxWhole) :
    StaysIn (fun _ => True) (readDuration t) := by
  rw [carries] at h
  -- a unit has five digits at most, and rounding carries into one more
  have hproduct (ds : Text) (unit : Int) (hds : ds.length ≤ t.length) (hunit : unit.natAbs < 10 ^ 5) :
      StaysIn (Decimal.Below (t.length + 6))
        (rounded ((Decimal.ofInt (Text.digitsValue ds)).mul (.ofInt unit))) := by
    have hbelow : (Decimal.ofInt (Text.digitsValue ds)).Below ds.length := Decimal.below_ofInt (Text.digitsValue_lt ds)
    exact rounded_staysIn ((hbelow.mono hds).mul (Decimal.below_ofInt hunit)) (by omega)
  have hsum {x y : Decimal} {n : Nat} (hx : x.Below n) (hy : y.Below n) (hn : n + 1 < Decimal.maxWhole) :
      StaysIn (Decimal.Below (n + 2)) (rounded (x.add y)) := rounded_staysIn (hx.add hy) hn
  rw [readDuration]
  split
  · exact staysIn_error nofun
  next d hd =>
  obtain ⟨-, rfl⟩ := whole_durationParts_iff.1 hd
  have hlength := d.length_le_text
  dsimp only
  -- the sums are bounded in the order in which they are made, each with two more digits than its parts
  refine (bounded_staysIn d.years).bind fun years _ => (bounded_staysIn d.months).bind fun months _ => ?_
  refine (hproduct d.days 86400 (hlength d.days (by simp)) (by omega)).bind fun days hdays => ?_
  refine (hproduct d.hours 3600 (hlength d.hours (by simp)) (by omega)).bind fun hours hhours => ?_
  refine (hsum hdays hhours (by omega)).bind fun daysAndHours hdaysAndHours => ?_
  refine (hproduct d.minutes 60 (hlength d.minutes (by simp)) (by omega)).bind fun minutes hminutes => ?_
  refine (hsum hdaysAndHours (hminutes.mono (by omega)) (by omega)).bind fun wholeMinutes hwholeMinutes => ?_
  have hseconds := (decimalOf_below false d.seconds.1 d.seconds.2).mono (hlength d.seconds.1 (by simp))
  exact (hsum hwholeMinutes (hseconds.mono (by omega)) (by omega)).bind fun _ _ => .ok trivial

theorem offset_staysIn (z : Zone) : StaysIn (fun _ => True) z.offset := by
  cases z with
  | absent | utc => exact .ok trivial
  | shifted negative hours minutes =>
      rw [Zone.offset]
      split
      · exact staysIn_error nofun
      · exact .ok trivial

theorem yearValue_staysIn (y : Year) : StaysIn (fun _ => True) y.value :=
  (bounded_staysIn y.digits).map fun _ _ => trivial

theorem month_staysIn (n : Nat) : StaysIn (fun _ => True) (month n) := by
  rw [month]
  split
  · exact .ok trivial
  · exact staysIn_error nofun

theorem moment_staysIn {year : Except LexicalError Int} (hyear : StaysIn (fun _ => True) year) (month day : Nat)
    (c : Clock) (z : Zone) : StaysIn (fun _ => True) (moment year month day c z) := by
  have houtside {α : Type} : StaysIn (fun _ : α => True) (.error .outsideCalendar) := staysIn_error nofun
  rw [moment]
  refine .guard (fun _ => staysIn_error nofun) fun _ => hyear.bind fun y _ => ?_
  refine .guard (fun _ => staysIn_error nofun) fun _ => ?_
  refine (offset_staysIn z).bind fun _ _ => ?_
  dsimp only
  split
  · exact houtside
  · refine .ite (fun _ => houtside) fun _ => .ite (fun _ => ?_) fun _ => .ok trivial
    split
    · exact houtside
    · exact .ok trivial

theorem readDate_staysIn (t : Text) : StaysIn (fun _ => True) (readDate t) := by
  rw [readDate]
  split
  · exact moment_staysIn (yearValue_staysIn _) ..
  · exact staysIn_error nofun

theorem readDateTime_staysIn (t : Text) : StaysIn (fun _ => True) (readDateTime t) := by
  rw [readDateTime]
  split
  · exact moment_staysIn (yearValue_staysIn _) ..
  · exact staysIn_error nofun

theorem readTime_staysIn (t : Text) : StaysIn (fun _ => True) (readTime t) := by
  rw [readTime]
  split
  · exact (moment_staysIn (.ok trivial) ..).map fun _ _ => trivial
  · exact staysIn_error nofun

theorem readGYear_staysIn (t : Text) : StaysIn (fun _ => True) (readGYear t) := by
  rw [readGYear]
  split
  · exact (offset_staysIn _).bind fun _ _ => yearValue_staysIn _
  · exact staysIn_error nofun

theorem readGYearMonth_staysIn (t : Text) : StaysIn (fun _ => True) (readGYearMonth t) := by
  rw [readGYearMonth]
  split
  · exact (offset_staysIn _).bind fun _ _ => (yearValue_staysIn _).bind fun _ _ =>
      (month_staysIn _).bind fun _ _ => .ok trivial
  · exact staysIn_error nofun

theorem readGMonthDay_staysIn (t : Text) : StaysIn (fun _ => True) (readGMonthDay t) := by
  rw [readGMonthDay]
  split
  · refine (month_staysIn _).bind fun _ _ => ?_
    split
    · exact .ok trivial
    · exact staysIn_error nofun
  · exact staysIn_error nofun

theorem readGDay_staysIn (t : Text) : StaysIn (fun _ => True) (readGDay t) := by
  rw [readGDay]
  split
  · split
    · exact .ok trivial
    · exact staysIn_error nofun
  · exact staysIn_error nofun

theorem readGMonth_staysIn (t : Text) : StaysIn (fun _ => True) (readGMonth t) := by
  rw [readGMonth]
  split
  · exact (month_staysIn _).bind fun _ _ => .ok trivial
  · exact staysIn_error nofun

theorem readBoolean_staysIn (t : Text) : StaysIn (fun _ => True) (readBoolean t) := by
  rw [readBoolean]
  split
  · exact .ok trivial
  split
  · exact .ok trivial
  · exact staysIn_error nofun

theorem readDouble_staysIn (t : Text) : StaysIn (fun _ => True) (readDouble t) := by
  rw [readDouble]
  split
  · exact .ok trivial
  split
  · exact .ok trivial
  split
  · exact .ok trivial
  split
  · exact .ok trivial
  · exact staysIn_error nofun

theorem readHex_staysIn (t : Text) : StaysIn (fun _ => True) (readHex t) := by
  rw [readHex]
  split
  · exact .ok trivial
  · exact staysIn_error nofun

theorem readBase64_staysIn (t : Text) : StaysIn (fun _ => True) (readBase64 t) := by
  rw [readBase64]
  dsimp only
  split
  · exact staysIn_error nofun
  · exact .ite (fun _ => .ok trivial) fun _ => staysIn_error nofun

theorem readQName_staysIn (t : Text) : StaysIn (fun _ => True) (readQName t) := by
  rw [readQName]
  dsimp only
  split
  · exact .ok trivial
  · exact staysIn_error nofun

end

end Lexical

open Lexical

/-- Of a text that is not too long, every primitive makes a value or says what is wrong, and decimals have few enough
digits before the point to be counted. -/
theorem Value.read_staysIn (p : Primitive) {t : Text} (h : t.length + carries < Decimal.maxWhole) :
    StaysIn (fun v => ∀ d, v = .decimal d → d.Below t.length) (Value.read p t) := by
  cases p with
  | anySimpleType | string | anyURI => exact .ok (nofun)
  | boolean => exact (readBoolean_staysIn t).map fun _ _ => nofun
  | decimal =>
      refine (readDecimal_staysIn t).map fun x hx d hd => ?_
      cases hd
      exact hx
  | float | double => exact (readDouble_staysIn t).map fun _ _ => nofun
  | duration => exact (readDuration_staysIn h).map fun _ _ => nofun
  | dateTime => exact (readDateTime_staysIn t).map fun _ _ => nofun
  | date => exact (readDate_staysIn t).map fun _ _ => nofun
  | time => exact (readTime_staysIn t).map fun _ _ => nofun
  | gYear => exact (readGYear_staysIn t).map fun _ _ => nofun
  | gYearMonth => exact (readGYearMonth_staysIn t).map fun _ _ => nofun
  | gMonthDay => exact (readGMonthDay_staysIn t).map fun _ _ => nofun
  | gDay => exact (readGDay_staysIn t).map fun _ _ => nofun
  | gMonth => exact (readGMonth_staysIn t).map fun _ _ => nofun
  | hexBinary => exact (readHex_staysIn t).map fun _ _ => nofun
  | base64Binary => exact (readBase64_staysIn t).map fun _ _ => nofun
  | qname | notationName => exact (readQName_staysIn t).map fun _ _ => nofun

/-- Only a very long text is beyond the digits that arithmetic allows. -/
theorem Value.length_of_overflow {p : Primitive} {t : Text} (h : Value.read p t = .error .overflow) :
    Decimal.maxWhole ≤ t.length + carries := by
  refine Nat.le_of_not_lt fun hlt => ?_
  have hstays := Value.read_staysIn p hlt
  rw [h] at hstays
  cases hstays with
  | error hne => exact hne rfl

end XmlSchema
