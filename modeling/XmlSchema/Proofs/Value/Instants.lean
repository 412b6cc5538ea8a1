import XmlSchema.Proofs.Value.Calendar
import XmlSchema.Proofs.Value.DateForms

/-!
Moments as texts. An instant is a number of microseconds since the start of year 1 in universal time; in a zone it is
written as the local date and time there, with the zone behind them. The text is read as a moment of the same instant,
in whatever zone, so that moments are ordered as instants.
-/

namespace XmlSchema

/-! ### Writing -/

namespace Lexical

def dayLength : Nat := 86400000000

/-- The local time of an instant, in a zone that is so many minutes ahead. -/
def localTime (instant offset : Int) : Int := instant + offset * 60000000

/-- A local time falls in the years 1 to 9999. -/
def InCalendar (localTime : Int) : Prop := 0 ≤ localTime ∧ localTime < Date.dayCount * dayLength

def dateText (d : Date) : Text :=
  Text.padded 4 d.year ++ ('-' : CodePoint) :: (Text.padded 2 d.month ++ ('-' : CodePoint) :: Text.padded 2 d.day)

/-- A time of day with its microseconds. -/
def clockText (microseconds : Nat) : Text :=
  Text.padded 2 (microseconds / 3600000000) ++ (':' : CodePoint) :: (Text.padded 2 (microseconds / 60000000 % 60) ++
    (':' : CodePoint) :: (Text.padded 2 (microseconds / 1000000 % 60) ++
      ('.' : CodePoint) :: Text.padded 6 (microseconds % 1000000)))

/-- An offset in minutes, as hours and minutes behind a sign. -/
def shiftText (negative : Bool) (minutes : Nat) : Text :=
  (if negative then '-' else '+' : CodePoint) ::
    (Text.padded 2 (minutes / 60) ++ (':' : CodePoint) :: Text.padded 2 (minutes % 60))

/-- How an offset in minutes can be written. -/
def zoneTexts (offset : Int) : List Text :=
  if offset = 0 then ["Z", shiftText false 0, shiftText true 0] else [shiftText (offset < 0) offset.natAbs]

/-- A local time with a zone, as a text. -/
def momentText? (localTime : Int) (zone : Text) : Option Text :=
  if 0 ≤ localTime then
    (Date.after? (localTime.toNat / dayLength)).map fun d =>
      dateText d ++ ('T' : CodePoint) :: (clockText (localTime.toNat % dayLength) ++ zone)
  else none

/-- The end of a day, with zeros behind the seconds. -/
def endText (d : Date) (zeros : Nat) (zone : Text) : Text :=
  dateText d ++ ('T' : CodePoint) :: ("24:00:00" ++
    ((if zeros = 0 then [] else ('.' : CodePoint) :: List.replicate zeros ('0' : CodePoint)) ++ zone))

end Lexical

/-! ### Reading -/

namespace Lexical

variable {t : Text}

theorem zone_shiftText (negative : Bool) {minutes : Nat} (h : minutes ≤ 840) :
    zone (shiftText negative minutes) = some (.shifted negative (minutes / 60) (minutes % 60), []) := by
  have hdigit : ∀ c ∈ Text.padded 2 (minutes / 60) ++ Text.padded 2 (minutes % 60), c.isDigit = true := by
    refine List.forall_mem_append.2 ⟨fun c hc => ?_, fun c hc => ?_⟩
    all_goals exact CodePoint.isDigit_of_isAsciiDigit (Text.isAsciiDigit_padded _ _ c hc)
  have hshift := WritesZone.shifted negative (Text.length_padded 2 _) (Text.length_padded 2 _) hdigit
  rw [Text.digitsValue_padded 2 (by omega), Text.digitsValue_padded 2 (by omega)] at hshift
  exact zone_of_writesZone hshift

theorem offset_shifted (negative : Bool) {minutes : Nat} (h : minutes ≤ 840) :
    Zone.offset (.shifted negative (minutes / 60) (minutes % 60)) = .ok (signed negative minutes) := by
  have hrange : ¬(14 < minutes / 60 ∨ 59 < minutes % 60 ∨ minutes / 60 = 14 ∧ minutes % 60 ≠ 0) := by omega
  have hminutes : minutes / 60 * 60 + minutes % 60 = minutes := by omega
  rw [Zone.offset, if_neg (by simpa [or_assoc] using hrange), hminutes]

/-- A zone is read as its offset, however it is written. -/
theorem zone_of_mem {offset : Int} (hrange : offset.natAbs ≤ 840) (h : t ∈ zoneTexts offset) :
    ∃ z, zone t = some (z, []) ∧ z.offset = .ok offset := by
  have hshift (negative : Bool) {minutes : Nat} (hle : minutes ≤ 840) (hoffset : signed negative minutes = offset) :
      ∃ z, zone (shiftText negative minutes) = some (z, []) ∧ z.offset = .ok offset :=
    ⟨_, zone_shiftText negative hle, by rw [offset_shifted negative hle, hoffset]⟩
  rw [zoneTexts] at h
  split at h
  · next hzero =>
      subst hzero
      simp only [List.mem_cons, List.not_mem_nil, or_false] at h
      rcases h with rfl | rfl | rfl
      · exact ⟨.utc, rfl, rfl⟩
      · exact hshift false (by decide) rfl
      · exact hshift true (by decide) rfl
  · obtain rfl := List.mem_singleton.1 h
    refine hshift _ hrange ?_
    rw [signed]
    split
    · next hnegative =>
        rw [decide_eq_true_eq] at hnegative
        omega
    · next hnegative =>
        rw [decide_eq_true_eq] at hnegative
        omega

/-! ### Moments -/

variable {d e : Date} {c : Clock} {z : Zone} {offset : Int}

theorem year_value {n : Nat} (h : n ≤ 9999) : Year.value ⟨false, Text.padded 4 n⟩ = .ok n := by
  have hdigits := Text.digitsValue_padded 4 (Nat.lt_succ_of_le h)
  rw [Year.value, bounded, Text.boundedValue?, Text.length_padded, if_pos (by decide), hdigits]
  rfl

theorem moment_eq (hzone : z.offset = .ok offset) (hhour : c.hour < 24) (hminute : c.minute < 60)
    (hsecond : c.second < 60) (hmicrosecond : c.microsecond < 1000000) :
    moment (.ok d.year) d.month d.day c z = .ok ⟨d, ⟨c.hour, c.minute, c.second, c.microsecond⟩, offset⟩ := by
  obtain ⟨hyear, _⟩ := d.inCalendar
  have hvalid : TimeOfDay.isValid ⟨c.hour, c.minute, c.second, c.microsecond⟩ = true := by
    simp [TimeOfDay.isValid, hhour, hminute, hsecond, hmicrosecond]
  have hnot : c.hour ≠ 24 := by omega
  have hlate : ¬((d.year : Int) < 1) := by omega
  simp only [moment, hnot, hlate, hzone, hvalid, Int.toNat_natCast, Date.ofFields?_self, bind, Except.bind,
    decide_false, Bool.false_and, Bool.false_eq_true, if_false, Bool.not_true]
  rfl

/-- The end of a day is the start of the next one. -/
theorem moment_end {fraction : Text} (hzone : z.offset = .ok offset) (hnext : d.next? = some e)
    (hfraction : Clock.microsecond ⟨24, 0, 0, fraction⟩ = 0) :
    moment (.ok d.year) d.month d.day ⟨24, 0, 0, fraction⟩ z = .ok ⟨e, .midnight, offset⟩ := by
  obtain ⟨hyear, _⟩ := d.inCalendar
  have hlate : ¬((d.year : Int) < 1) := by omega
  have hvalid : TimeOfDay.isValid ⟨0, 0, 0, 0⟩ = true := rfl
  simp only [moment, hfraction, hlate, hzone, hvalid, hnext, Int.toNat_natCast, Date.ofFields?_self, bind, Except.bind,
    if_false, if_true, Bool.not_true, ne_eq, not_true_eq_false, decide_false, Bool.or_false, Bool.and_false,
    Bool.false_eq_true]
  rfl

theorem read_dateTime (hc : c.IsWritten) (hzone : zone t = some (z, [])) :
    Value.read .dateTime (dateText d ++ ('T' : CodePoint) :: (c.text ++ t)) =
      (moment (.ok d.year) d.month d.day c z).map .moment := by
  obtain ⟨_, hyear, _, hmonth, _, hday⟩ := d.inCalendar
  have hday' : d.day < 100 := by
    have := daysInMonth_le d.year d.month
    omega
  have hwritten : Year.IsWritten ⟨false, Text.padded 4 d.year⟩ :=
    ⟨(Text.length_padded 4 d.year).ge, Text.isAsciiDigit_padded 4 d.year⟩
  have hread := DateForm.read_text (f := .dateTime ⟨false, Text.padded 4 d.year⟩ d.month d.day c)
    ⟨hwritten, by omega, hday', hc⟩ hzone
  rw [DateForm.value, year_value hyear] at hread
  rw [← hread]
  simp [dateText, DateForm.text, Year.text, DateForm.primitive]

def timeOfDay (microseconds : Nat) : TimeOfDay :=
  ⟨microseconds / 3600000000, microseconds / 60000000 % 60, microseconds / 1000000 % 60, microseconds % 1000000⟩

theorem microseconds_timeOfDay (n : Nat) : (timeOfDay n).microseconds = n := by
  simp only [timeOfDay, TimeOfDay.microseconds]
  omega

theorem read_moment {n : Nat} (hrange : offset.natAbs ≤ 840) (hzone : t ∈ zoneTexts offset) (hn : n < dayLength) :
    Value.read .dateTime (dateText d ++ ('T' : CodePoint) :: (clockText n ++ t)) =
      .ok (.moment ⟨d, timeOfDay n, offset⟩) := by
  obtain ⟨z, hread, hoffset⟩ := zone_of_mem hrange hzone
  have hhour : n / 3600000000 < 24 := by
    rw [dayLength] at hn
    omega
  have hfraction : Text.padded 6 (n % 1000000) ≠ [] := fun h => by
    have hlength := Text.length_padded 6 (n % 1000000)
    rw [h] at hlength
    cases hlength
  have hclock : clockText n = Clock.text ⟨n / 3600000000, n / 60000000 % 60, n / 1000000 % 60,
      Text.padded 6 (n % 1000000)⟩ := by
    rw [clockText, Clock.text, fractionText, if_neg hfraction]
  have hmicrosecond : Clock.microsecond ⟨n / 3600000000, n / 60000000 % 60, n / 1000000 % 60,
      Text.padded 6 (n % 1000000)⟩ = n % 1000000 := by
    rw [Clock.microsecond, List.take_left' (Text.length_padded 6 _), Text.digitsValue_padded 6 (by omega)]
  rw [hclock, read_dateTime ⟨by simp only; omega, by simp only; omega, by simp only; omega,
    Text.isAsciiDigit_padded _ _⟩ hread, moment_eq hoffset hhour (by simp only; omega) (by simp only; omega)
    (by rw [hmicrosecond]; omega), hmicrosecond]
  rfl

theorem read_end {zeros : Nat} (hrange : offset.natAbs ≤ 840) (hzone : t ∈ zoneTexts offset)
    (hnext : d.next? = some e) : Value.read .dateTime (endText d zeros t) = .ok (.moment ⟨e, .midnight, offset⟩) := by
  obtain ⟨z, hread, hoffset⟩ := zone_of_mem hrange hzone
  let fraction : Text := List.replicate zeros ('0' : CodePoint)
  have hdigits : ∀ digit ∈ fraction, digit.isAsciiDigit = true := fun digit hdigit => by
    rw [List.eq_of_mem_replicate hdigit]
    rfl
  have htext : endText d zeros t = dateText d ++ ('T' : CodePoint) :: (Clock.text ⟨24, 0, 0, fraction⟩ ++ t) := by
    have hnil : fraction = [] ↔ zeros = 0 := by simp [fraction]
    simp only [endText, Clock.text, fractionText, hnil, List.append_assoc]
    rfl
  have hmicrosecond : Clock.microsecond ⟨24, 0, 0, fraction⟩ = 0 := by
    have hzeros : (fraction ++ "000000").take 6 = List.replicate 6 ('0' : CodePoint) := by
      have hsix : ("000000" : Text) = List.replicate 6 ('0' : CodePoint) := rfl
      rw [hsix, List.replicate_append_replicate, List.take_replicate, Nat.min_eq_left (by omega)]
    rw [Clock.microsecond, hzeros]
    rfl
  have hwritten : Clock.IsWritten ⟨24, 0, 0, fraction⟩ :=
    ⟨(by decide : 24 < 100), (by decide : 0 < 100), (by decide : 0 < 100), hdigits⟩
  rw [htext, read_dateTime hwritten hread, moment_end hoffset hnext hmicrosecond]
  rfl

/-- What is written of an instant is read as a moment of this instant. -/
theorem read_momentText {i : Int} (hrange : offset.natAbs ≤ 840) (hi : InCalendar (localTime i offset))
    (hzone : t ∈ zoneTexts offset) : ∃ s m, momentText? (localTime i offset) t = some s ∧
      Value.read .dateTime s = .ok (.moment m) ∧ m.instant = i := by
  obtain ⟨hstart, hend⟩ := hi
  obtain ⟨n, hn⟩ := Int.eq_ofNat_of_zero_le hstart
  have hday : n / dayLength < Date.dayCount := by
    rw [Nat.div_lt_iff_lt_mul (by decide)]
    omega
  obtain ⟨d, hd⟩ := Date.exists_after_iff.2 hday
  refine ⟨_, ⟨d, timeOfDay (n % dayLength), offset⟩, ?_, read_moment hrange hzone (Nat.mod_lt n (by decide)), ?_⟩
  · rw [momentText?, if_pos hstart, hn, Int.toNat_natCast, hd, Option.map_some]
  · have hparts := Nat.div_add_mod n dayLength
    rw [DateTime.instant, Date.ordinal_after hd, microseconds_timeOfDay]
    simp only [localTime, dayLength] at hn hparts ⊢
    omega

/-- Moments are ordered as the instants that they are written for, and the end of a day is the same moment as the start
of the next one. -/
theorem moments_ordered {i j z w : Int} (hz : -840 ≤ z ∧ z ≤ 840) (hw : -840 ≤ w ∧ w ≤ 840)
    (hi : InCalendar (localTime i z)) (hj : InCalendar (localTime j w)) :
    (∀ zone ∈ zoneTexts z, ∀ zone' ∈ zoneTexts w, ∃ s t a b, momentText? (localTime i z) zone = some s ∧
      momentText? (localTime j w) zone' = some t ∧ Value.read .dateTime s = .ok a ∧ Value.read .dateTime t = .ok b ∧
      a.compare b = .ordered (compare i j)) ∧
    ∀ zone ∈ zoneTexts z, ∀ day zeros : Nat, localTime i z = (day + 1 : Nat) * (dayLength : Int) →
      ∃ d s a, Date.after? day = some d ∧ momentText? (localTime i z) zone = some s ∧ Value.read .dateTime s = .ok a ∧
        Value.read .dateTime (endText d zeros zone) = .ok a := by
  have hz' : z.natAbs ≤ 840 := by omega
  have hw' : w.natAbs ≤ 840 := by omega
  refine ⟨fun zone hzone zone' hzone' => ?_, fun zone hzone day zeros hmidnight => ?_⟩
  · obtain ⟨s, a, hs, ha, hinstant⟩ := read_momentText hz' hi hzone
    obtain ⟨t, b, ht, hb, hinstant'⟩ := read_momentText hw' hj hzone'
    refine ⟨s, t, _, _, hs, ht, ha, hb, ?_⟩
    rw [Value.compare, hinstant, hinstant']
  · have hlocal : localTime i z = ((day + 1) * dayLength : Nat) := by
      rw [hmidnight]
      push_cast
      rfl
    obtain ⟨hstart, hend⟩ := hi
    have hday : day + 1 < Date.dayCount := by
      have hless : (day + 1) * dayLength < Date.dayCount * dayLength := by
        rw [hlocal] at hend
        exact_mod_cast hend
      exact Nat.lt_of_mul_lt_mul_right hless
    obtain ⟨e, he⟩ := Date.exists_after_iff.2 hday
    obtain ⟨d, hd, hnext⟩ := Option.bind_eq_some_iff.1 he
    have hdate : (day + 1) * dayLength / dayLength = day + 1 := Nat.mul_div_cancel _ (by decide)
    have hread := read_moment (d := e) hz' hzone (Nat.mod_lt ((day + 1) * dayLength) (by decide : dayLength > 0))
    refine ⟨d, _, _, hd, ?_, hread, ?_⟩
    · rw [momentText?, if_pos hstart, hlocal, Int.toNat_natCast, hdate, he, Option.map_some]
    · rw [read_end hz' hzone hnext, Nat.mul_mod_left]
      rfl

/-- A midnight where the day begins first, and one microsecond later where it begins last. -/
theorem moments_ordered_far :
    ∃ a b, Value.read .dateTime "0001-01-03T00:00:00.000000+14:00" = .ok a ∧
      Value.read .dateTime "0001-01-02T24:00:00+14:00" = .ok a ∧
      Value.read .dateTime "0001-01-01T20:00:00.000001-14:00" = .ok b ∧ a.compare b = .ordered .lt := by
  obtain ⟨hordered, hmidnight⟩ := moments_ordered (i := 122400000000) (j := 122400000001) (z := 840) (w := -840)
    (by decide) (by decide) ⟨by decide, by decide⟩ ⟨by decide, by decide⟩
  obtain ⟨s, t, a, b, hs, ht, ha, hb, hcompare⟩ := hordered "+14:00" (by decide) "-14:00" (by decide)
  obtain ⟨d, s', a', hd, hs', ha', hend⟩ := hmidnight "+14:00" (by decide) 1 0 (by decide)
  have hday : Date.after? 1 = some ⟨1, 1, 2, by decide⟩ := by decide
  have hstart : momentText? (localTime 122400000000 840) "+14:00" = some "0001-01-03T00:00:00.000000+14:00" := by decide
  have hlater : momentText? (localTime 122400000001 (-840)) "-14:00" = some "0001-01-01T20:00:00.000001-14:00" := by
    decide
  obtain rfl := Option.some.inj (hday.symm.trans hd)
  obtain rfl := Option.some.inj (hstart.symm.trans hs)
  obtain rfl := Option.some.inj (hstart.symm.trans hs')
  obtain rfl := Option.some.inj (hlater.symm.trans ht)
  obtain rfl := Except.ok.inj (ha.symm.trans ha')
  exact ⟨a, b, ha, hend, hb, hcompare⟩

end Lexical

end XmlSchema
