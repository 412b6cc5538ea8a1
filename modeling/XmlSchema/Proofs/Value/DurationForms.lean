import XmlSchema.Proofs.Value.Scans

/-!
Durations as they are written, and that these are the texts that are read as parts of a duration.
-/

namespace XmlSchema.Lexical

/-! ### The grammar -/

/-- A number in front of its unit. A component that is left out has no digits. -/
def componentText (ds : Text) (unit : CodePoint) : Text := if ds = [] then [] else ds ++ [unit]

def secondsText (s : Text × Text) : Text := if s.1 = [] then [] else s.1 ++ (fractionText s.2 ++ [('S' : CodePoint)])

namespace DurationParts

variable (d : DurationParts)

def dateText : Text := componentText d.years 'Y' ++ (componentText d.months 'M' ++ componentText d.days 'D')

def timeText : Text := componentText d.hours 'H' ++ (componentText d.minutes 'M' ++ secondsText d.seconds)

def text : Text :=
  (if d.negative then [('-' : CodePoint)] else []) ++ ('P' : CodePoint) ::
    (d.dateText ++ if d.timeText = [] then [] else ('T' : CodePoint) :: d.timeText)

/-- Numbers are written in ASCII digits, the seconds have a fraction only behind whole seconds, and some component is
not left out. -/
structure IsWritten : Prop where
  digits : ∀ ds ∈ [d.years, d.months, d.days, d.hours, d.minutes, d.seconds.1, d.seconds.2],
    ∀ c ∈ ds, c.isAsciiDigit = true
  fraction : d.seconds.1 = [] → d.seconds.2 = []
  nonempty : d.dateText ++ d.timeText ≠ []

end DurationParts

variable {t rest ds : Text} {unit : CodePoint}

@[simp] theorem componentText_eq_nil_iff : componentText ds unit = [] ↔ ds = [] := by
  rw [componentText]
  split <;> simp_all

@[simp] theorem secondsText_eq_nil_iff {s : Text × Text} : secondsText s = [] ↔ s.1 = [] := by
  rw [secondsText]
  split <;> simp_all

/-! ### What is taken -/

theorem takes_number (unit : CodePoint) :
    Takes (fun taken ds => taken = ds ++ [unit] ∧ ds ≠ [] ∧ ∀ c ∈ ds, c.isAsciiDigit = true) (do
      let ds ← digits1
      expect unit
      return ds) := by
  refine takes_digits1.bind fun t₁ ds ⟨h₁, hne, hds⟩ => (takes_expect unit).bind fun t₂ _ h₂ => .pure ?_
  subst h₁ h₂
  exact ⟨by rw [List.append_nil], hne, hds⟩

theorem takes_component (unit : CodePoint) :
    Takes (fun taken ds => taken = componentText ds unit ∧ ∀ c ∈ ds, c.isAsciiDigit = true) (component unit) := by
  intro t ds rest h
  rw [component] at h
  split at h
  · next hfound =>
      cases h
      obtain ⟨taken, rfl, rfl, hne, hds⟩ := takes_number unit t ds rest hfound
      exact ⟨_, rfl, by rw [componentText, if_neg hne], hds⟩
  · cases h
    exact ⟨[], rfl, rfl, nofun⟩

theorem takes_seconds : Takes (fun taken s => taken = secondsText s ∧ (∀ c ∈ s.1, c.isAsciiDigit = true) ∧
    (∀ c ∈ s.2, c.isAsciiDigit = true) ∧ (s.1 = [] → s.2 = [])) seconds := by
  have hpresent : Takes (fun taken s => taken = secondsText s ∧ (∀ c ∈ s.1, c.isAsciiDigit = true) ∧
      (∀ c ∈ s.2, c.isAsciiDigit = true) ∧ (s.1 = [] → s.2 = [])) (do
        let before ← digits1
        let point ← accept '.'
        let behind ← if point then digits1 else pure []
        expect 'S'
        return (before, behind)) := by
    refine takes_digits1.bind fun t₁ before ⟨h₁, hne, hbefore⟩ => .fraction fun behind hbehind => ?_
    refine (takes_expect 'S').bind fun t₂ _ h₂ => .pure ?_
    subst h₁ h₂
    rw [secondsText, if_neg hne, List.append_nil]
    exact ⟨rfl, hbefore, hbehind, fun hnil => absurd hnil hne⟩
  intro t s rest h
  rw [seconds] at h
  split at h
  · next hfound =>
      cases h
      exact hpresent t s rest hfound
  · cases h
    exact ⟨[], rfl, rfl, nofun, nofun, fun _ => rfl⟩

theorem takes_durationParts : Takes (fun taken d => d.IsWritten ∧ taken = DurationParts.text d) durationParts := by
  refine (takes_accept '-').bind fun t₁ negative h₁ => (takes_expect 'P').bind fun t₂ _ h₂ => ?_
  refine (takes_component 'Y').bind fun t₃ years ⟨h₃, hyears⟩ => ?_
  refine (takes_component 'M').bind fun t₄ months ⟨h₄, hmonths⟩ => ?_
  refine (takes_component 'D').bind fun t₅ days ⟨h₅, hdays⟩ => (takes_accept 'T').bind fun t₆ timed h₆ => ?_
  subst h₁ h₂ h₃ h₄ h₅ h₆
  cases timed with
  | false =>
      simp only [Bool.false_eq_true, if_false, pure_bind, Bool.false_and]
      refine .ite (fun _ => .failure_bind) fun hne => .pure ⟨⟨?_, fun _ => rfl, ?_⟩, ?_⟩
      · simpa using ⟨hyears, hmonths, hdays⟩
      · simpa [DurationParts.dateText, DurationParts.timeText] using hne
      · simp [DurationParts.text, DurationParts.dateText, DurationParts.timeText]
  | true =>
      simp only [if_true, Bool.not_true, Bool.and_false, Bool.false_eq_true, if_false, Bool.true_and]
      refine (takes_component 'H').bind fun t₇ hours ⟨h₇, hhours⟩ => ?_
      refine (takes_component 'M').bind fun t₈ minutes ⟨h₈, hminutes⟩ => ?_
      refine takes_seconds.bind fun t₉ secs ⟨h₉, hwhole, hbehind, hfraction⟩ => ?_
      subst h₇ h₈ h₉
      refine .ite (fun _ => .failure_bind) fun hne => .pure ?_
      have htime : DurationParts.timeText ⟨negative, years, months, days, hours, minutes, secs⟩ ≠ [] := by
        simpa [DurationParts.timeText, and_assoc] using hne
      refine ⟨⟨?_, hfraction, List.append_ne_nil_of_right_ne_nil _ htime⟩, ?_⟩
      · simpa using ⟨hyears, hmonths, hdays, hhours, hminutes, hwhole, hbehind⟩
      · rw [DurationParts.text, if_neg htime]
        simp [DurationParts.dateText, DurationParts.timeText]

/-! ### Written forms that are found -/

/-- What comes behind the digits that a text starts with. -/
def unit? (t : Text) : Option CodePoint := (t.dropWhile CodePoint.isAsciiDigit).head?

theorem unit?_append (hds : ∀ c ∈ ds, c.isAsciiDigit = true) (rest : Text) : unit? (ds ++ rest) = unit? rest := by
  rw [unit?, List.dropWhile_append_of_pos hds, unit?]

theorem unit?_cons {c : CodePoint} (hc : c.isAsciiDigit = false) (rest : Text) : unit? (c :: rest) = some c := by
  rw [unit?, List.dropWhile_cons_of_neg (by simp [hc]), List.head?_cons]

theorem notMem_unit?_componentText (hds : ∀ c ∈ ds, c.isAsciiDigit = true) (hunit : unit.isAsciiDigit = false)
    {c : CodePoint} (hc : unit ≠ c) (hrest : c ∉ unit? rest) : c ∉ unit? (componentText ds unit ++ rest) := by
  rw [componentText]
  split
  · exact hrest
  · rw [List.append_assoc, unit?_append hds, List.singleton_append, unit?_cons hunit]
    exact fun h => hc (Option.some.inj h)

/-- A component that is left out is not found where no other one of its unit comes first. -/
theorem component_text (hds : ∀ c ∈ ds, c.isAsciiDigit = true) (hunit : unit.isAsciiDigit = false)
    (hrest : unit ∉ unit? rest) : component unit (componentText ds unit ++ rest) = some (ds, rest) := by
  rw [componentText]
  split
  · next hnil =>
      have habsent : (do
          let ds ← digits1
          expect unit
          return ds : Scan Text) rest = none := by
        refine Option.eq_none_iff_forall_ne_some.2 fun (ds, rest') hfound => hrest ?_
        obtain ⟨taken, rfl, rfl, _, hds⟩ := takes_number unit rest ds rest' hfound
        rw [List.append_assoc, unit?_append hds, List.singleton_append, unit?_cons hunit]
        rfl
      subst hnil
      rw [component, List.nil_append, habsent]
  · next hne =>
      have hfound : (do
          let ds ← digits1
          expect unit
          return ds : Scan Text) (ds ++ unit :: rest) = some (ds, rest) := by
        rw [scan_bind (digits1_append hds hne (undigited_cons.2 hunit)), scan_bind (expect_self unit rest)]
        rfl
      rw [component, List.append_assoc, List.singleton_append, hfound]

theorem undigited_fractionText (behind : Text) : Undigited (fractionText behind ++ ('S' : CodePoint) :: rest) := by
  rw [fractionText]
  split
  · exact undigited_cons.2 rfl
  · exact undigited_cons.2 rfl

theorem notMem_unit?_secondsText {s : Text × Text} (hs : ∀ c ∈ s.1, c.isAsciiDigit = true) {c : CodePoint}
    (hpoint : ('.' : CodePoint) ≠ c) (hunit : ('S' : CodePoint) ≠ c) : c ∉ unit? (secondsText s) := by
  rw [secondsText]
  split
  · exact nofun
  · rw [unit?_append hs, fractionText]
    split
    · exact fun h => hunit (Option.some.inj h)
    · exact fun h => hpoint (Option.some.inj h)

theorem seconds_text {s : Text × Text} (hwhole : ∀ c ∈ s.1, c.isAsciiDigit = true)
    (hbehind : ∀ c ∈ s.2, c.isAsciiDigit = true) (hfraction : s.1 = [] → s.2 = []) :
    seconds (secondsText s) = some (s, []) := by
  obtain ⟨before, behind⟩ := s
  rw [secondsText]
  split
  · next hnil =>
      obtain rfl : before = [] := hnil
      obtain rfl : behind = [] := hfraction rfl
      rfl
  · next hne =>
      have hfound : (do
          let before ← digits1
          let point ← accept '.'
          let behind ← if point then digits1 else pure []
          expect 'S'
          return (before, behind) : Scan (Text × Text)) (before ++ (fractionText behind ++ [('S' : CodePoint)])) =
            some ((before, behind), []) := by
        rw [scan_bind (digits1_append hwhole hne (undigited_fractionText behind))]
        exact fraction_text hbehind (undigited_cons.2 rfl) fun h => absurd (Option.some.inj h) (by decide)
      rw [seconds, hfound]

namespace DurationParts

variable {α : Type} {d : DurationParts}

/-- The components of a date are found where nothing but the mark of a time comes behind them. -/
theorem IsWritten.scan_date (hd : d.IsWritten) (hrest : ∀ c ∈ unit? rest, c = 'T')
    {f : Text → Text → Text → Scan α} : (do
      let years ← component 'Y'
      let months ← component 'M'
      let days ← component 'D'
      f years months days) (d.dateText ++ rest) = f d.years d.months d.days rest := by
  have hyears := hd.digits d.years (by simp)
  have hmonths := hd.digits d.months (by simp)
  have hdays := hd.digits d.days (by simp)
  have hmark {c : CodePoint} (hc : c ≠ 'T') : c ∉ unit? rest := fun h => hc (hrest c h)
  have hday {c : CodePoint} (hc : ('D' : CodePoint) ≠ c) (hc' : c ≠ 'T') :
      c ∉ unit? (componentText d.days 'D' ++ rest) := notMem_unit?_componentText hdays rfl hc (hmark hc')
  have hmonth : ('Y' : CodePoint) ∉ unit? (componentText d.months 'M' ++ (componentText d.days 'D' ++ rest)) :=
    notMem_unit?_componentText hmonths rfl (by decide) (hday (by decide) (by decide))
  rw [dateText, List.append_assoc, List.append_assoc, scan_bind (component_text hyears rfl hmonth),
    scan_bind (component_text hmonths rfl (hday (by decide) (by decide))),
    scan_bind (component_text hdays rfl (hmark (by decide)))]

theorem IsWritten.scan_time (hd : d.IsWritten) {f : Text → Text → Text × Text → Scan α} : (do
      let hours ← component 'H'
      let minutes ← component 'M'
      let secs ← Lexical.seconds
      f hours minutes secs) d.timeText = f d.hours d.minutes d.seconds [] := by
  have hhours := hd.digits d.hours (by simp)
  have hminutes := hd.digits d.minutes (by simp)
  have hwhole := hd.digits d.seconds.1 (by simp)
  have hsecond : ('M' : CodePoint) ∉ unit? (secondsText d.seconds) :=
    notMem_unit?_secondsText hwhole (by decide) (by decide)
  have hminute : ('H' : CodePoint) ∉ unit? (componentText d.minutes 'M' ++ secondsText d.seconds) :=
    notMem_unit?_componentText hminutes rfl (by decide) (notMem_unit?_secondsText hwhole (by decide) (by decide))
  rw [timeText, scan_bind (component_text hhours rfl hminute), scan_bind (component_text hminutes rfl hsecond),
    scan_bind (seconds_text hwhole (hd.digits d.seconds.2 (by simp)) hd.fraction)]

theorem IsWritten.eq_of_timeText (hd : d.IsWritten) (h : d.timeText = []) :
    d = ⟨d.negative, d.years, d.months, d.days, [], [], ([], [])⟩ := by
  obtain ⟨negative, years, months, days, hours, minutes, secs⟩ := d
  obtain ⟨rfl, rfl, hwhole⟩ : hours = [] ∧ minutes = [] ∧ secs.1 = [] := by simpa [timeText] using h
  obtain rfl : secs = ([], []) := Prod.ext hwhole (hd.fraction hwhole)
  rfl

end DurationParts

theorem durationParts_text {d : DurationParts} (hd : d.IsWritten) : durationParts d.text = some (d, []) := by
  have hsign (tail : Text) : accept '-' ((if d.negative then [('-' : CodePoint)] else []) ++ ('P' : CodePoint) :: tail) =
      some (d.negative, ('P' : CodePoint) :: tail) := by
    cases d.negative <;> rfl
  rw [DurationParts.text, durationParts, scan_bind (hsign _), scan_bind (expect_self _ _)]
  by_cases htime : d.timeText = []
  · have hnothing : ∀ c ∈ unit? [], c = 'T' := fun _ h => absurd h (Option.not_mem_none _)
    have hdate : ¬(d.years.isEmpty && d.months.isEmpty && d.days.isEmpty && !false) = true := by
      simpa [DurationParts.dateText, htime] using hd.nonempty
    have hmark : accept 'T' [] = some (false, []) := rfl
    rw [if_pos htime, hd.scan_date hnothing, scan_bind hmark]
    simp only [Bool.false_eq_true, if_false, pure_bind, Bool.false_and]
    rw [if_neg hdate]
    exact congrArg (fun found => some (found, [])) (hd.eq_of_timeText htime).symm
  · have hmark : ∀ c ∈ unit? (('T' : CodePoint) :: d.timeText), c = 'T' := by
      rw [unit?_cons rfl]
      exact fun c hc => (Option.some.inj hc).symm
    rw [if_neg htime, hd.scan_date hmark, scan_bind (accept_self _ _)]
    simp only [if_true, Bool.not_true, Bool.and_false, Bool.false_eq_true, if_false, Bool.true_and]
    rw [hd.scan_time, if_neg (by simpa [DurationParts.timeText, and_assoc] using htime)]
    rfl

theorem whole_durationParts_iff {d : DurationParts} : whole durationParts t = some d ↔ d.IsWritten ∧ d.text = t := by
  constructor
  · intro h
    obtain ⟨hd, rfl⟩ := takes_durationParts.whole h
    exact ⟨hd, rfl⟩
  · rintro ⟨hd, rfl⟩
    rw [whole, durationParts_text hd]

end XmlSchema.Lexical
