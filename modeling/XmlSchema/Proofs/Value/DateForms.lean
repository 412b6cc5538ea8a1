import XmlSchema.Proofs.Value.Scans

/-!
Dates and times as they are written. Each of the eight primitives has one form for its texts, which a zone may follow,
and a text of another form is refused.
-/

namespace XmlSchema.Lexical

/-- A date or a time as it is written, without the zone. -/
inductive DateForm where
  | dateTime (year : Year) (month day : Nat) (clock : Clock)
  | date (year : Year) (month day : Nat)
  | time (clock : Clock)
  | gYear (year : Year)
  | gYearMonth (year : Year) (month : Nat)
  | gMonthDay (month day : Nat)
  | gDay (day : Nat)
  | gMonth (month : Nat)

namespace DateForm

def primitive : DateForm → Primitive
  | dateTime .. => .dateTime
  | date .. => .date
  | time .. => .time
  | gYear .. => .gYear
  | gYearMonth .. => .gYearMonth
  | gMonthDay .. => .gMonthDay
  | gDay .. => .gDay
  | gMonth .. => .gMonth

def text : DateForm → Text
  | dateTime y month day c =>
    y.text ++ ('-' : CodePoint) :: (Text.padded 2 month ++ ('-' : CodePoint) :: (Text.padded 2 day ++
      ('T' : CodePoint) :: c.text))
  | date y month day =>
    y.text ++ ('-' : CodePoint) :: (Text.padded 2 month ++ ('-' : CodePoint) :: Text.padded 2 day)
  | time c => c.text
  | gYear y => y.text
  | gYearMonth y month => y.text ++ ('-' : CodePoint) :: Text.padded 2 month
  | gMonthDay month day =>
    ('-' : CodePoint) :: ('-' : CodePoint) :: (Text.padded 2 month ++ ('-' : CodePoint) :: Text.padded 2 day)
  | gDay day => ('-' : CodePoint) :: ('-' : CodePoint) :: ('-' : CodePoint) :: Text.padded 2 day
  | gMonth month => ('-' : CodePoint) :: ('-' : CodePoint) :: Text.padded 2 month

/-- Years have four digits or more, all other numbers two, and a point stands in front of a digit. -/
def IsWritten : DateForm → Prop
  | dateTime y month day c => y.IsWritten ∧ month < 100 ∧ day < 100 ∧ c.IsWritten
  | date y month day => y.IsWritten ∧ month < 100 ∧ day < 100
  | time c => c.IsWritten
  | gYear y => y.IsWritten
  | gYearMonth y month => y.IsWritten ∧ month < 100
  | gMonthDay month day => month < 100 ∧ day < 100
  | gDay day => day < 100
  | gMonth month => month < 100

/-- What the form denotes in a zone. The last three are the same in every zone, also in one that there is none of. -/
def value : DateForm → Zone → Except LexicalError Value
  | dateTime y m day c, z => (moment y.value m day c z).map .moment
  | date y m day, z => (moment y.value m day ⟨0, 0, 0, []⟩ z).map .moment
  | time c, z => ((moment (.ok 2000) 1 1 c z).map fun t => { t with date := .reference }).map .moment
  | gYear y, z => (do
      let _ ← z.offset
      y.value).map .integer
  | gYearMonth y m, z => (do
      let _ ← z.offset
      let y ← y.value
      let m ← month m
      return ((y : Int), (m : Int))).map fun (y, m) => .pair y m
  | gMonthDay m day, _ => (do
      let m ← month m
      match Date.ofFields? 2000 m day with
      | some _ => return ((m : Int), (day : Int))
      | none => .error .outsideCalendar).map fun (m, d) => .pair m d
  | gDay day, _ =>
    (if 1 ≤ day && day ≤ 31 then .ok (day : Int) else .error .notGDay : Except LexicalError Int).map .integer
  | gMonth m, _ => (do
      let m ← month m
      return (m : Int)).map .integer

variable {t : Text} {z : Zone}

theorem read_text {f : DateForm} (hf : f.IsWritten) (hz : zone t = some (z, [])) :
    Value.read f.primitive (f.text ++ t) = f.value z := by
  obtain ⟨hdigit, hpoint⟩ := zone_head hz
  cases f with
  | dateTime y month day c =>
      obtain ⟨hy, hmonth, hday, hc⟩ := hf
      simp only [primitive, text, List.append_assoc, List.cons_append, Value.read, readDateTime, whole]
      rw [scan_bind (year_text hy (undigited_cons.2 rfl)), scan_bind (expect_self _ _),
        scan_bind (twoDigits_padded hmonth _), scan_bind (expect_self _ _), scan_bind (twoDigits_padded hday _),
        scan_bind (expect_self _ _), scan_bind (clock_text hc hdigit hpoint), scan_bind hz]
      rfl
  | date y month day =>
      obtain ⟨hy, hmonth, hday⟩ := hf
      simp only [primitive, text, List.append_assoc, List.cons_append, Value.read, readDate, whole]
      rw [scan_bind (year_text hy (undigited_cons.2 rfl)), scan_bind (expect_self _ _),
        scan_bind (twoDigits_padded hmonth _), scan_bind (expect_self _ _), scan_bind (twoDigits_padded hday _),
        scan_bind hz]
      rfl
  | time c =>
      simp only [primitive, text, Value.read, readTime, whole]
      rw [scan_bind (clock_text hf hdigit hpoint), scan_bind hz]
      rfl
  | gYear y =>
      simp only [primitive, text, Value.read, readGYear, whole]
      rw [scan_bind (year_text hf hdigit), scan_bind hz]
      rfl
  | gYearMonth y month =>
      obtain ⟨hy, hmonth⟩ := hf
      simp only [primitive, text, List.append_assoc, List.cons_append, Value.read, readGYearMonth, whole]
      rw [scan_bind (year_text hy (undigited_cons.2 rfl)), scan_bind (expect_self _ _),
        scan_bind (twoDigits_padded hmonth _), scan_bind hz]
      rfl
  | gMonthDay month day =>
      obtain ⟨hmonth, hday⟩ := hf
      simp only [primitive, text, List.append_assoc, List.cons_append, Value.read, readGMonthDay, whole]
      rw [scan_bind (expect_self _ _), scan_bind (expect_self _ _), scan_bind (twoDigits_padded hmonth _),
        scan_bind (expect_self _ _), scan_bind (twoDigits_padded hday _), scan_bind hz]
      rfl
  | gDay day =>
      simp only [primitive, text, List.cons_append, Value.read, readGDay, whole]
      rw [scan_bind (expect_self _ _), scan_bind (expect_self _ _), scan_bind (expect_self _ _),
        scan_bind (twoDigits_padded hf _), scan_bind hz]
      rfl
  | gMonth month =>
      simp only [primitive, text, List.cons_append, Value.read, readGMonth, whole]
      rw [scan_bind (expect_self _ _), scan_bind (expect_self _ _), scan_bind (twoDigits_padded hf _), scan_bind hz]
      rfl

/-- How a text of another form is refused. -/
def refusal : Primitive → LexicalError
  | .dateTime => .notDateTime
  | .date => .notDate
  | .time => .notTime
  | .gYear => .notGYear
  | .gYearMonth => .notGYearMonth
  | .gMonthDay => .notGMonthDay
  | .gDay => .notGDay
  | _ => .notGMonth

def zoned : List Primitive := [.dateTime, .date, .time, .gYear, .gYearMonth, .gMonthDay, .gDay, .gMonth]

/-- The text is a form with a zone behind it, or with none. -/
def IsZonedForm (f : DateForm) (z : Zone) (t : Text) : Prop :=
  f.IsWritten ∧ ∃ tail, t = f.text ++ tail ∧ zone tail = some (z, [])

/-! ### What is taken -/

theorem takes_dateTime : Takes (fun taken (y, m, d, c, z) => IsZonedForm (dateTime y m d c) z taken) (do
    let y ← year
    expect '-'
    let month ← twoDigits
    expect '-'
    let day ← twoDigits
    expect 'T'
    return (y, month, day, ← clock, ← zone)) := by
  refine takes_year.bind fun t₁ y ⟨h₁, hy⟩ => (takes_expect '-').bind fun t₂ _ h₂ => ?_
  refine takes_twoDigits.bind fun t₃ month ⟨hmonth, h₃⟩ => (takes_expect '-').bind fun t₄ _ h₄ => ?_
  refine takes_twoDigits.bind fun t₅ day ⟨hday, h₅⟩ => (takes_expect 'T').bind fun t₆ _ h₆ => ?_
  refine takes_clock.bind fun t₇ c ⟨h₇, hc⟩ => takes_zone_whole.bind fun tail z hz => .pure ?_
  subst h₁ h₂ h₃ h₄ h₅ h₆ h₇
  exact ⟨⟨hy, hmonth, hday, hc⟩, tail, by simp [text], hz⟩

theorem takes_date : Takes (fun taken (y, m, d, z) => IsZonedForm (date y m d) z taken) (do
    let y ← year
    expect '-'
    let month ← twoDigits
    expect '-'
    return (y, month, ← twoDigits, ← zone)) := by
  refine takes_year.bind fun t₁ y ⟨h₁, hy⟩ => (takes_expect '-').bind fun t₂ _ h₂ => ?_
  refine takes_twoDigits.bind fun t₃ month ⟨hmonth, h₃⟩ => (takes_expect '-').bind fun t₄ _ h₄ => ?_
  refine takes_twoDigits.bind fun t₅ day ⟨hday, h₅⟩ => takes_zone_whole.bind fun tail z hz => .pure ?_
  subst h₁ h₂ h₃ h₄ h₅
  exact ⟨⟨hy, hmonth, hday⟩, tail, by simp [text], hz⟩

theorem takes_time : Takes (fun taken (c, z) => IsZonedForm (time c) z taken) (do return (← clock, ← zone)) := by
  refine takes_clock.bind fun t₁ c ⟨h₁, hc⟩ => takes_zone_whole.bind fun tail z hz => .pure ?_
  subst h₁
  exact ⟨hc, tail, by simp [text], hz⟩

theorem takes_gYear : Takes (fun taken (y, z) => IsZonedForm (gYear y) z taken) (do return (← year, ← zone)) := by
  refine takes_year.bind fun t₁ y ⟨h₁, hy⟩ => takes_zone_whole.bind fun tail z hz => .pure ?_
  subst h₁
  exact ⟨hy, tail, by simp [text], hz⟩

theorem takes_gYearMonth : Takes (fun taken (y, m, z) => IsZonedForm (gYearMonth y m) z taken) (do
    let y ← year
    expect '-'
    return (y, ← twoDigits, ← zone)) := by
  refine takes_year.bind fun t₁ y ⟨h₁, hy⟩ => (takes_expect '-').bind fun t₂ _ h₂ => ?_
  refine takes_twoDigits.bind fun t₃ month ⟨hmonth, h₃⟩ => takes_zone_whole.bind fun tail z hz => .pure ?_
  subst h₁ h₂ h₃
  exact ⟨⟨hy, hmonth⟩, tail, by simp [text], hz⟩

theorem takes_gMonthDay : Takes (fun taken (m, d, z) => IsZonedForm (gMonthDay m d) z taken) (do
    expect '-'
    expect '-'
    let m ← twoDigits
    expect '-'
    return (m, ← twoDigits, ← zone)) := by
  refine (takes_expect '-').bind fun t₁ _ h₁ => (takes_expect '-').bind fun t₂ _ h₂ => ?_
  refine takes_twoDigits.bind fun t₃ month ⟨hmonth, h₃⟩ => (takes_expect '-').bind fun t₄ _ h₄ => ?_
  refine takes_twoDigits.bind fun t₅ day ⟨hday, h₅⟩ => takes_zone_whole.bind fun tail z hz => .pure ?_
  subst h₁ h₂ h₃ h₄ h₅
  exact ⟨⟨hmonth, hday⟩, tail, by simp [text], hz⟩

theorem takes_gDay : Takes (fun taken (d, z) => IsZonedForm (gDay d) z taken) (do
    expect '-'
    expect '-'
    expect '-'
    return (← twoDigits, ← zone)) := by
  refine (takes_expect '-').bind fun t₁ _ h₁ => (takes_expect '-').bind fun t₂ _ h₂ => ?_
  refine (takes_expect '-').bind fun t₃ _ h₃ => takes_twoDigits.bind fun t₄ day ⟨hday, h₄⟩ => ?_
  refine takes_zone_whole.bind fun tail z hz => .pure ?_
  subst h₁ h₂ h₃ h₄
  exact ⟨hday, tail, by simp [text], hz⟩

theorem takes_gMonth : Takes (fun taken (m, z) => IsZonedForm (gMonth m) z taken) (do
    expect '-'
    expect '-'
    return (← twoDigits, ← zone)) := by
  refine (takes_expect '-').bind fun t₁ _ h₁ => (takes_expect '-').bind fun t₂ _ h₂ => ?_
  refine takes_twoDigits.bind fun t₃ month ⟨hmonth, h₃⟩ => takes_zone_whole.bind fun tail z hz => .pure ?_
  subst h₁ h₂ h₃
  exact ⟨hmonth, tail, by simp [text], hz⟩

/-- A text of no form is refused. -/
theorem exists_form {p : Primitive} (hp : p ∈ zoned) (t : Text) :
    Value.read p t = .error (refusal p) ∨ ∃ f z, f.primitive = p ∧ IsZonedForm f z t := by
  simp only [zoned, List.mem_cons, List.not_mem_nil, or_false] at hp
  rcases hp with rfl | rfl | rfl | rfl | rfl | rfl | rfl | rfl
  · rw [Value.read, readDateTime]
    split
    · next y m d c z h => exact .inr ⟨dateTime y m d c, z, rfl, takes_dateTime.whole h⟩
    · exact .inl rfl
  · rw [Value.read, readDate]
    split
    · next y m d z h => exact .inr ⟨date y m d, z, rfl, takes_date.whole h⟩
    · exact .inl rfl
  · rw [Value.read, readTime]
    split
    · next c z h => exact .inr ⟨time c, z, rfl, takes_time.whole h⟩
    · exact .inl rfl
  · rw [Value.read, readGYear]
    split
    · next y z h => exact .inr ⟨gYear y, z, rfl, takes_gYear.whole h⟩
    · exact .inl rfl
  · rw [Value.read, readGYearMonth]
    split
    · next y m z h => exact .inr ⟨gYearMonth y m, z, rfl, takes_gYearMonth.whole h⟩
    · exact .inl rfl
  · rw [Value.read, readGMonthDay]
    split
    · next m d z h => exact .inr ⟨gMonthDay m d, z, rfl, takes_gMonthDay.whole h⟩
    · exact .inl rfl
  · rw [Value.read, readGDay]
    split
    · next d z h => exact .inr ⟨gDay d, z, rfl, takes_gDay.whole h⟩
    · exact .inl rfl
  · rw [Value.read, readGMonth]
    split
    · next m z h => exact .inr ⟨gMonth m, z, rfl, takes_gMonth.whole h⟩
    · exact .inl rfl

end DateForm

end XmlSchema.Lexical
