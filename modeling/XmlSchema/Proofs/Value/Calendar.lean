import Mathlib.Algebra.Order.Ring.Nat
import XmlSchema.Value.Calendar

/-!
The calendar as a sequence of days: the ordinal number of a date counts the days that come before it, from the first day
of year 1, and every number below that of the days of the calendar is the ordinal of one date.
-/

namespace XmlSchema

/-- The days of the years 1 to 9999. -/
def Date.dayCount : Nat := 3652059

def Date.first : Date := ⟨1, 1, 1, by decide⟩

def Date.last : Date := ⟨9999, 12, 31, by decide⟩

/-- The date so many days after the first. -/
def Date.after? : Nat → Option Date
  | 0 => some first
  | n + 1 => (after? n).bind next?

/-! ### Lengths of months and years -/

theorem le_daysInMonth (year month : Nat) : 28 ≤ daysInMonth year month := by
  rw [daysInMonth]
  split
  · split <;> decide
  · split <;> decide

theorem daysInMonth_le (year month : Nat) : daysInMonth year month ≤ 31 := by
  rw [daysInMonth]
  split
  · split <;> decide
  · split <;> decide

theorem Date.daysBeforeMonth_succ (year : Nat) {month : Nat} (h : 1 ≤ month) :
    daysBeforeMonth year (month + 1) = daysBeforeMonth year month + daysInMonth year month := by
  obtain ⟨month, rfl⟩ := Nat.exists_eq_add_of_le' h
  simp [daysBeforeMonth, List.range_succ]

theorem Date.daysBeforeMonth_december (year : Nat) :
    daysBeforeMonth year 12 = if isLeapYear year then 335 else 334 := by
  cases hleap : isLeapYear year <;> simp [daysBeforeMonth, daysInMonth, List.range_succ, hleap]

theorem isLeapYear_iff (year : Nat) : isLeapYear year = true ↔ 4 ∣ year ∧ (100 ∣ year → 400 ∣ year) := by
  simp only [isLeapYear, Bool.and_eq_true, Bool.or_eq_true, decide_eq_true_eq, Nat.dvd_iff_mod_eq_zero]
  by_cases h : year % 100 = 0 <;> simp [h]

theorem Date.daysBeforeYear_succ {year : Nat} (h : 1 ≤ year) :
    daysBeforeYear (year + 1) = daysBeforeYear year + if isLeapYear year then 366 else 365 := by
  obtain ⟨y, rfl⟩ := Nat.exists_eq_add_of_le' h
  have hle : y / 100 ≤ y / 4 := Nat.div_le_div_left (by decide) (by decide)
  have h100 : 100 ∣ y + 1 → 4 ∣ y + 1 := Nat.dvd_trans (by decide)
  have h400 : 400 ∣ y + 1 → 100 ∣ y + 1 := Nat.dvd_trans (by decide)
  simp only [daysBeforeYear, Nat.add_sub_cancel, Nat.succ_div, isLeapYear_iff]
  generalize y / 4 = a at *
  generalize y / 100 = b at *
  by_cases h4 : 4 ∣ y + 1 <;> by_cases h100' : 100 ∣ y + 1 <;> by_cases h400' : 400 ∣ y + 1 <;>
    simp_all <;> omega

/-! ### One day after the other -/

namespace Date

variable {d e : Date} {n : Nat}

theorem ofFields?_eq_some {year month day : Nat} (h : ofFields? year month day = some d) :
    d.year = year ∧ d.month = month ∧ d.day = day := by
  rw [ofFields?] at h
  split at h
  · obtain rfl := Option.some.inj h
    exact ⟨rfl, rfl, rfl⟩
  · cases h

theorem ofFields?_self (d : Date) : ofFields? d.year d.month d.day = some d := dif_pos d.inCalendar

theorem ordinal_next (h : d.next? = some e) : e.ordinal = d.ordinal + 1 := by
  obtain ⟨hyear, _, hmonth, hmonth', hday, hday'⟩ := d.inCalendar
  rw [next?] at h
  split at h
  · obtain ⟨hy, hm, hd⟩ := ofFields?_eq_some h
    rw [ordinal, ordinal, hy, hm, hd]
    omega
  · next hlast =>
      have hfull : d.day = daysInMonth d.year d.month := by omega
      -- Then comes the first day of the next month, or of the next year.
      split at h
      · obtain ⟨hy, hm, hd⟩ := ofFields?_eq_some h
        rw [ordinal, ordinal, hy, hm, hd, daysBeforeMonth_succ _ hmonth]
        omega
      · next hdecember =>
          obtain ⟨hy, hm, hd⟩ := ofFields?_eq_some h
          have hmonth : d.month = 12 := by omega
          have hlength : d.day = 31 := by rw [hfull, hmonth]; rfl
          have hfirst : daysBeforeMonth (d.year + 1) 1 = 0 := rfl
          rw [ordinal, ordinal, hy, hm, hd, hmonth, hlength, hfirst, daysBeforeYear_succ hyear,
            daysBeforeMonth_december]
          split <;> omega

/-- Only the last day of the calendar has no next one. -/
theorem eq_last_of_next?_eq_none (h : d.next? = none) : d = last := by
  obtain ⟨year, month, day, hcalendar⟩ := d
  have hcalendar' := hcalendar
  obtain ⟨hyear, hyear', hmonth, hmonth', hday, hday'⟩ := hcalendar'
  have hlong := le_daysInMonth year (month + 1)
  simp only [next?, ofFields?] at h
  split at h
  · rw [dif_pos (by omega)] at h
    cases h
  · next hfull =>
      split at h
      · rw [dif_pos (by omega)] at h
        cases h
      · next hdecember =>
          obtain rfl : month = 12 := by omega
          have hlength : daysInMonth year 12 = 31 := rfl
          rw [hlength] at hfull hday'
          obtain rfl : day = 31 := by omega
          split at h
          · cases h
          · next hnone =>
              have hjanuary : daysInMonth (year + 1) 1 = 31 := rfl
              obtain rfl : year = 9999 := by omega
              rfl

theorem ordinal_after (h : after? n = some d) : d.ordinal = n := by
  induction n generalizing d with
  | zero =>
      obtain rfl := Option.some.inj h
      rfl
  | succ n ih =>
      obtain ⟨e, he, hnext⟩ := Option.bind_eq_some_iff.1 h
      rw [ordinal_next hnext, ih he]

theorem ordinal_lt (d : Date) : d.ordinal < dayCount := by
  obtain ⟨hyear, hyear', hmonth, hmonth', hday, hday'⟩ := d.inCalendar
  have hmonths {month other : Nat} (h : 1 ≤ month) (hle : month ≤ other) :
      daysBeforeMonth d.year month ≤ daysBeforeMonth d.year other := by
    induction other, hle using Nat.le_induction with
    | base => rfl
    | succ other hle ih =>
        rw [daysBeforeMonth_succ _ (h.trans hle)]
        omega
  have hyears {year other : Nat} (h : 1 ≤ year) (hle : year ≤ other) : daysBeforeYear year ≤ daysBeforeYear other := by
    induction other, hle using Nat.le_induction with
    | base => rfl
    | succ other hle ih =>
        rw [daysBeforeYear_succ (h.trans hle)]
        omega
  have hbefore := hmonths (Nat.succ_pos d.month) (Nat.succ_le_succ hmonth')
  have hdecember : daysInMonth d.year 12 = 31 := rfl
  have hend := hyears (Nat.succ_pos d.year) (Nat.succ_le_succ hyear')
  have hlast : daysBeforeYear 10000 = dayCount := by decide
  rw [daysBeforeMonth_succ _ hmonth, daysBeforeMonth_succ _ (by decide), daysBeforeMonth_december, hdecember] at hbefore
  rw [daysBeforeYear_succ hyear, hlast] at hend
  rw [ordinal]
  split at hbefore <;> split at hend <;> omega

/-- The calendar has no gaps, and ends with its last day. -/
theorem exists_after_iff : (∃ d, after? n = some d) ↔ n < dayCount := by
  constructor
  · rintro ⟨d, hd⟩
    rw [← ordinal_after hd]
    exact d.ordinal_lt
  · intro h
    induction n with
    | zero => exact ⟨first, rfl⟩
    | succ n ih =>
        obtain ⟨d, hd⟩ := ih (Nat.lt_of_succ_lt h)
        cases hnext : d.next? with
        | some e => exact ⟨e, by rw [after?, hd, Option.bind_some, hnext]⟩
        | none =>
            obtain rfl := eq_last_of_next?_eq_none hnext
            have hlast : last.ordinal = dayCount - 1 := by decide
            have := ordinal_after hd
            omega

end Date

end XmlSchema
