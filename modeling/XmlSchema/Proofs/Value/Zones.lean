import Mathlib.Data.List.Infix
import XmlSchema.Proofs.Value.DateForms
import XmlSchema.Proofs.Value.Overflow

/-!
The zones of dates and times. A text and the same text with a zone behind it denote the same, but that moments are in
the zone. Five of the eight primitives refuse zones that are out of range; months, days and days of months have no use
for their zone and let any zone pass.
-/

namespace XmlSchema

namespace Lexical

variable {t s : Text} {z z' : Zone} {p : Primitive}

/-! ### Offsets -/

namespace Zone

/-- The minutes are less than an hour, and the zone is no farther than fourteen hours. -/
def IsInRange : Zone → Prop
  | absent | utc => True
  | shifted _ hours minutes => minutes ≤ 59 ∧ 60 * hours + minutes ≤ 840

/-- How many minutes ahead the zone is. -/
def minutes : Zone → Int
  | absent | utc => 0
  | shifted negative hours minutes => signed negative (hours * 60 + minutes)

theorem offset_of_isInRange (h : z.IsInRange) : z.offset = .ok z.minutes := by
  cases z with
  | absent | utc => rfl
  | shifted negative hours minutes =>
      have hrange : ¬(14 < hours ∨ 59 < minutes ∨ hours = 14 ∧ minutes ≠ 0) := by
        simp only [IsInRange] at h
        omega
      rw [offset, if_neg (by simpa [or_assoc] using hrange), Zone.minutes]

theorem offset_of_not_isInRange (h : ¬z.IsInRange) : z.offset = .error .zoneOutOfRange := by
  cases z with
  | absent | utc => exact absurd trivial h
  | shifted negative hours minutes =>
      have hrange : 14 < hours ∨ 59 < minutes ∨ hours = 14 ∧ minutes ≠ 0 := by
        simp only [IsInRange] at h
        omega
      rw [offset, if_pos (by simpa [or_assoc] using hrange)]

end Zone

theorem moment_inZone (hz : z.IsInRange) (year : Except LexicalError Int) (month day : Nat) (c : Clock) :
    moment year month day c z = (moment year month day c .absent).map fun t => { t with offset := z.minutes } := by
  have habsent : Zone.absent.offset = .ok 0 := rfl
  simp only [moment, Zone.offset_of_isInRange hz, habsent, bind, Except.bind]
  -- both sides branch alike
  split
  · rfl
  cases year with
  | error e => rfl
  | ok y =>
      dsimp only
      split
      · rfl
      cases Date.ofFields? y.toNat month day with
      | none => rfl
      | some date =>
          by_cases h24 : c.hour = 24
          · simp only [h24, if_true]
            split
            · rfl
            · cases date.next? <;> rfl
          · simp only [h24, if_false]
            split <;> rfl

theorem moment_outOfRange {year : Except LexicalError Int} (hyear : StaysIn (fun _ => True) year) (hz : ¬z.IsInRange)
    (month day : Nat) (c : Clock) : StaysIn (fun _ => False) (moment year month day c z) := by
  rw [moment, Zone.offset_of_not_isInRange hz]
  refine .guard (fun _ => staysIn_error (by decide)) fun _ => hyear.bind fun y _ => ?_
  exact .guard (fun _ => staysIn_error (by decide)) fun _ => staysIn_error (by decide)

end Lexical

/-- The value in a zone. Only moments are in one. -/
def Value.inZone (z : Lexical.Zone) : Value → Value
  | moment t => moment { t with offset := z.minutes }
  | v => v

namespace Lexical

variable {t s : Text} {z z' : Zone} {p : Primitive}

namespace DateForm

/-- The primitives that do not look at the zone. -/
def unzoned : List Primitive := [.gMonthDay, .gDay, .gMonth]

theorem map_inZone {α : Type} {x : Except LexicalError α} {f : α → Value} (hf : ∀ a, (f a).inZone z = f a) :
    x.map f = (x.map f).map (·.inZone z) := by
  cases x with
  | error e => rfl
  | ok a => exact congrArg Except.ok (hf a).symm

theorem value_inZone (f : DateForm) (hz : z.IsInRange) : f.value z = (f.value .absent).map (·.inZone z) := by
  have habsent : Zone.absent.offset = .ok 0 := rfl
  cases f with
  | dateTime y month day c =>
      rw [value, value, moment_inZone hz]
      cases moment y.value month day c .absent <;> rfl
  | date y month day =>
      rw [value, value, moment_inZone hz]
      cases moment y.value month day ⟨0, 0, 0, []⟩ .absent <;> rfl
  | time c =>
      rw [value, value, moment_inZone hz]
      cases moment (.ok 2000) 1 1 c .absent <;> rfl
  | gYear y =>
      rw [value, value, Zone.offset_of_isInRange hz, habsent]
      exact map_inZone fun _ => rfl
  | gYearMonth y m =>
      rw [value, value, Zone.offset_of_isInRange hz, habsent]
      exact map_inZone fun _ => rfl
  | gMonthDay m day => exact map_inZone fun _ => rfl
  | gDay day => exact map_inZone fun _ => rfl
  | gMonth m => exact map_inZone fun _ => rfl

theorem value_unzoned {f : DateForm} (hf : f.primitive ∈ unzoned) (z z' : Zone) : f.value z = f.value z' := by
  cases f with
  | dateTime | date | time | gYear | gYearMonth => simp [primitive, unzoned] at hf
  | gMonthDay | gDay | gMonth => rfl

theorem value_outOfRange {f : DateForm} (hf : f.primitive ∉ unzoned) (hz : ¬z.IsInRange) :
    StaysIn (fun _ => False) (f.value z) := by
  cases f with
  | dateTime y month day c =>
      exact (moment_outOfRange (yearValue_staysIn y) hz month day c).map fun _ => id
  | date y month day =>
      exact (moment_outOfRange (yearValue_staysIn y) hz month day ⟨0, 0, 0, []⟩).map fun _ => id
  | time c =>
      refine Ends.map (P := fun _ => False) ?_ fun _ => id
      exact (moment_outOfRange (.ok trivial) hz 1 1 c).map fun _ => id
  | gYear y =>
      rw [value, Zone.offset_of_not_isInRange hz]
      exact staysIn_error nofun
  | gYearMonth y month =>
      rw [value, Zone.offset_of_not_isInRange hz]
      exact staysIn_error nofun
  | gMonthDay | gDay | gMonth => simp [primitive, unzoned] at hf

end DateForm

/-! ### Texts that end in a zone -/

/-- The text has a zone at its end. -/
def EndsInZone (t : Text) : Prop := ∃ s z, WritesZone s z ∧ s <:+ t

theorem WritesZone.length_le (h : WritesZone s z) : s.length ≤ 6 := by
  cases h with
  | utc => decide
  | shifted negative hhours hminutes => simp [hhours, hminutes]

theorem WritesZone.mark_mem (h : WritesZone s z) : (':' : CodePoint) ∈ s ∨ ('Z' : CodePoint) ∈ s := by
  cases h with
  | utc => exact .inr List.mem_cons_self
  | shifted negative => exact .inl (List.mem_cons_of_mem _ (List.mem_append_right _ List.mem_cons_self))

theorem WritesZone.head_mem (h : WritesZone s z) : ('Z' : CodePoint) ∈ s ∨ ∃ negative, signMark negative ∈ s := by
  cases h with
  | utc => exact .inl List.mem_cons_self
  | shifted negative => exact .inr ⟨negative, List.mem_cons_self⟩

/-- A zone at the end of another one is all of it. -/
theorem WritesZone.eq_of_suffix (h : WritesZone s z) (h' : WritesZone t z') (hsuffix : s <:+ t) : s = t := by
  cases h with
  | utc =>
      cases h' with
      | utc => rfl
      | @shifted negative hours minutes hhours hminutes hdigits =>
          have hmark := hsuffix.subset List.mem_cons_self
          rw [List.mem_cons, List.mem_append, List.mem_cons] at hmark
          rcases hmark with hmark | hmark | hmark | hmark
          · cases negative <;> exact absurd hmark (by decide)
          · exact absurd (hdigits _ (List.mem_append_left _ hmark)) (by decide)
          · exact absurd hmark (by decide)
          · exact absurd (hdigits _ (List.mem_append_right _ hmark)) (by decide)
  | shifted negative hhours hminutes =>
      refine hsuffix.eq_of_length_le ?_
      rw [List.length_cons, List.length_append, List.length_cons, hhours, hminutes]
      exact h'.length_le

/-- What dates are written of. -/
def IsDateMark (c : CodePoint) : Prop := c.isAsciiDigit = true ∨ c = '-'

/-- What times of day are written of. -/
def IsClockMark (c : CodePoint) : Prop := c.isAsciiDigit = true ∨ c = ':' ∨ c = '.'

instance : DecidablePred IsDateMark := fun _ => inferInstanceAs (Decidable (_ ∨ _))

instance : DecidablePred IsClockMark := fun _ => inferInstanceAs (Decidable (_ ∨ _))

theorem Year.isDateMark {y : Year} (hy : y.IsWritten) : ∀ c ∈ y.text, IsDateMark c := by
  intro c hc
  rcases List.mem_append.1 hc with hc | hc
  · split at hc
    · exact .inr (List.mem_singleton.1 hc)
    · exact nomatch hc
  · exact .inl (hy.digits c hc)

theorem Clock.isClockMark {c : Clock} (hc : c.IsWritten) : ∀ d ∈ c.text, IsClockMark d := by
  have hpadded (n : Nat) : ∀ d ∈ Text.padded 2 n, IsClockMark d :=
    fun d hd => .inl (Text.isAsciiDigit_padded 2 n d hd)
  have hfraction : ∀ d ∈ fractionText c.fraction, IsClockMark d := by
    rw [fractionText]
    split
    · exact List.forall_mem_nil _
    · exact List.forall_mem_cons.2 ⟨.inr (.inr rfl), fun d hd => .inl (hc.fraction d hd)⟩
  simp only [Clock.text, List.forall_mem_append, List.forall_mem_cons]
  exact ⟨hpadded _, .inr (.inl rfl), hpadded _, .inr (.inl rfl), hpadded _, hfraction⟩

theorem Clock.le_length_text (c : Clock) : 8 ≤ c.text.length := by
  simp only [Clock.text, List.length_append, List.length_cons, Text.length_padded]
  omega

/-- A text of digits and hyphens does not end in a zone. -/
theorem not_endsInZone_of_date (h : ∀ c ∈ t, IsDateMark c) : ¬EndsInZone t := by
  rintro ⟨s, z, hzone, hsuffix⟩
  rcases hzone.mark_mem with hmark | hmark
  · exact absurd (h _ (hsuffix.subset hmark)) (by decide)
  · exact absurd (h _ (hsuffix.subset hmark)) (by decide)

/-- A text with a time of day at its end does not end in a zone. -/
theorem not_endsInZone_of_clock {c : Clock} (hc : c.IsWritten) (t : Text) : ¬EndsInZone (t ++ c.text) := by
  rintro ⟨s, z, hzone, hsuffix⟩
  have hlength : s.length ≤ c.text.length := Nat.le_trans hzone.length_le (Nat.le_trans (by decide) c.le_length_text)
  have hclock : s <:+ c.text := List.suffix_of_suffix_length_le hsuffix (List.suffix_append t _) hlength
  rcases hzone.head_mem with hhead | ⟨negative, hhead⟩
  · exact absurd (Clock.isClockMark hc _ (hclock.subset hhead)) (by decide)
  · have hnot := Clock.isClockMark hc _ (hclock.subset hhead)
    cases negative <;> exact absurd hnot (by decide)

namespace DateForm

theorem not_endsInZone_text {f : DateForm} (hf : f.IsWritten) : ¬EndsInZone f.text := by
  have hpadded (n : Nat) : ∀ d ∈ Text.padded 2 n, IsDateMark d := fun d hd => .inl (Text.isAsciiDigit_padded 2 n d hd)
  cases f with
  | dateTime y month day c =>
      have hclock := not_endsInZone_of_clock hf.2.2.2 (y.text ++ ('-' : CodePoint) :: (Text.padded 2 month ++
        ('-' : CodePoint) :: (Text.padded 2 day ++ [('T' : CodePoint)])))
      simpa [text] using hclock
  | time c => exact not_endsInZone_of_clock hf []
  | date y month day =>
      refine not_endsInZone_of_date ?_
      simp only [text, List.forall_mem_append, List.forall_mem_cons]
      exact ⟨Year.isDateMark hf.1, .inr rfl, hpadded _, .inr rfl, hpadded _⟩
  | gYear y => exact not_endsInZone_of_date (Year.isDateMark hf)
  | gYearMonth y month =>
      refine not_endsInZone_of_date ?_
      simp only [text, List.forall_mem_append, List.forall_mem_cons]
      exact ⟨Year.isDateMark hf.1, .inr rfl, hpadded _⟩
  | gMonthDay month day =>
      refine not_endsInZone_of_date ?_
      simp only [text, List.forall_mem_append, List.forall_mem_cons]
      exact ⟨.inr rfl, .inr rfl, hpadded _, .inr rfl, hpadded _⟩
  | gDay day =>
      refine not_endsInZone_of_date ?_
      simp only [text, List.forall_mem_cons]
      exact ⟨.inr rfl, .inr rfl, .inr rfl, hpadded _⟩
  | gMonth month =>
      refine not_endsInZone_of_date ?_
      simp only [text, List.forall_mem_cons]
      exact ⟨.inr rfl, .inr rfl, hpadded _⟩

/-- In front of a zone that a text ends in, a form is written whole. -/
theorem eq_text_of_zone {f : DateForm} (h : IsZonedForm f z' (t ++ s)) (hzone : WritesZone s z) : t = f.text := by
  obtain ⟨hf, tail, htext, htail⟩ := h
  rcases zone_eq_some_iff.1 htail with ⟨rfl, _⟩ | hwrites
  · rw [List.append_nil] at htext
    exact absurd ⟨s, z, hzone, htext ▸ List.suffix_append t s⟩ (not_endsInZone_text hf)
  · have hs : s <:+ t ++ s := List.suffix_append t s
    have htail' : tail <:+ t ++ s := htext ▸ List.suffix_append f.text tail
    have hsame : s = tail := by
      rcases List.suffix_or_suffix_of_suffix hs htail' with h | h
      · exact hzone.eq_of_suffix hwrites h
      · exact (hwrites.eq_of_suffix hzone h).symm
    exact List.append_cancel_right (hsame ▸ htext)

/-- A text without a zone is of a form, or of none whatever zone comes behind it. -/
theorem read_append_zone (hp : p ∈ zoned) (ht : ¬EndsInZone t) :
    (∃ f : DateForm, f.primitive = p ∧ Value.read p t = f.value .absent ∧
      ∀ s z, WritesZone s z → Value.read p (t ++ s) = f.value z) ∨
    Value.read p t = .error (refusal p) ∧
      ∀ s z, WritesZone s z → Value.read p (t ++ s) = .error (refusal p) := by
  by_cases hform : ∃ f : DateForm, f.primitive = p ∧ f.IsWritten ∧ f.text = t
  · obtain ⟨f, rfl, hf, rfl⟩ := hform
    refine .inl ⟨f, rfl, ?_, fun s z hzone => read_text hf (zone_of_writesZone hzone)⟩
    simpa using read_text (t := []) hf rfl
  · refine .inr ⟨?_, fun s z hzone => ?_⟩
    · rcases exists_form hp t with h | ⟨f, z, hf, hwritten, tail, rfl, htail⟩
      · exact h
      · rcases zone_eq_some_iff.1 htail with ⟨rfl, _⟩ | hwrites
        · exact absurd ⟨f, hf, hwritten, (List.append_nil _).symm⟩ hform
        · exact absurd ⟨tail, z, hwrites, List.suffix_append _ tail⟩ ht
    · rcases exists_form hp (t ++ s) with h | ⟨f, z', hf, hwritten⟩
      · exact h
      · exact absurd ⟨f, hf, hwritten.1, (eq_text_of_zone hwritten hzone).symm⟩ hform

theorem read_outOfRange (hp : p ∈ zoned) (hchecks : p ∉ unzoned) (t : Text) (hzone : WritesZone s z)
    (hz : ¬z.IsInRange) : StaysIn (fun _ => False) (Value.read p (t ++ s)) := by
  rcases exists_form hp (t ++ s) with h | ⟨f, z', rfl, hform⟩
  · rw [h]
    refine staysIn_error ?_
    cases p <;> decide
  · rw [eq_text_of_zone hform hzone, read_text hform.1 (zone_of_writesZone hzone)]
    exact value_outOfRange hchecks hz

end DateForm

open DateForm

/-- A zone in range leaves what a text denotes, but for the zone that a moment is in. A zone that is out of range is
refused, except by the three primitives that look at no zone. -/
theorem zones_checked (hp : p ∈ zoned) :
    (p ∉ unzoned → ∀ t s z, WritesZone s z → ¬z.IsInRange → ∃ e, e ≠ .overflow ∧ Value.read p (t ++ s) = .error e) ∧
    (∀ t, ¬EndsInZone t → ∀ s z, WritesZone s z → z.IsInRange →
      Value.read p (t ++ s) = (Value.read p t).map (·.inZone z)) ∧
    (p ∈ unzoned → ∀ t, ¬EndsInZone t → ∀ s z, WritesZone s z → Value.read p (t ++ s) = Value.read p t) := by
  refine ⟨fun hchecks t s z hzone hz => ?_, fun t ht s z hzone hz => ?_, fun hignores t ht s z hzone => ?_⟩
  · cases hread : Value.read p (t ++ s) with
    | ok v => exact nomatch hread ▸ read_outOfRange hp hchecks t hzone hz
    | error e =>
        have hends := hread ▸ read_outOfRange hp hchecks t hzone hz
        cases hends with
        | error he => exact ⟨e, he, rfl⟩
  · rcases read_append_zone hp ht with ⟨f, _, habsent, hread⟩ | ⟨habsent, hread⟩
    · rw [habsent, hread s z hzone, f.value_inZone hz]
    · rw [habsent, hread s z hzone]
      rfl
  · rcases read_append_zone hp ht with ⟨f, rfl, habsent, hread⟩ | ⟨habsent, hread⟩
    · rw [habsent, hread s z hzone]
      exact value_unzoned hignores z .absent
    · rw [habsent, hread s z hzone]

/-- The end of a day in the farthest zone and one minute beyond it, and a day in a zone that there is none of. -/
theorem zones_checked_farthest :
    (∃ e, e ≠ .overflow ∧ Value.read .time "24:00:00-14:01" = .error e) ∧
    Value.read .time "24:00:00-14:00" = .ok (.moment ⟨.reference, .midnight, -840⟩) ∧
    Value.read .gDay "---31+99:99" = Value.read .gDay "---31" := by
  have htime : ¬EndsInZone "24:00:00" := not_endsInZone_text (f := .time ⟨24, 0, 0, []⟩)
    ⟨(by decide : 24 < 100), (by decide : 0 < 100), (by decide : 0 < 100), nofun⟩
  have hday : ¬EndsInZone "---31" := not_endsInZone_text (f := .gDay 31) (by decide : 31 < 100)
  obtain ⟨hrefused, hread, -⟩ := zones_checked (p := .time) (by decide)
  obtain ⟨-, -, hignored⟩ := zones_checked (p := .gDay) (by decide)
  refine ⟨hrefused (by decide) "24:00:00" "-14:01" (.shifted true 14 1) ?_ (by simp [Zone.IsInRange]), ?_, ?_⟩
  · exact @WritesZone.shifted true "14" "01" rfl rfl (by decide)
  · have hzone : WritesZone "-14:00" (.shifted true 14 0) := @WritesZone.shifted true "14" "00" rfl rfl (by decide)
    exact hread "24:00:00" htime _ _ hzone (by simp [Zone.IsInRange])
  · exact hignored (by decide) "---31" hday _ _ (@WritesZone.shifted false "99" "99" rfl rfl (by decide))

end Lexical

end XmlSchema
