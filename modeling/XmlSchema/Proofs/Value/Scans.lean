import Mathlib.Algebra.Order.Ring.Nat
import Mathlib.Data.List.Basic
import Mathlib.Data.List.Induction
import Mathlib.Data.List.TakeDrop
import Mathlib.Data.List.TakeWhile
import XmlSchema.Value.Lexical

/-!
What scans take of a text. For each scan there are two statements: what it takes is a written form of what it finds, and
it finds a written form that nothing goes on with.
-/

namespace XmlSchema

/-! ### Digits -/

theorem CodePoint.digitValue?_of_isAsciiDigit {c : CodePoint} (h : c.isAsciiDigit = true) :
    c.digitValue? = some (c.val - 0x30) := by
  have hval : c.val < 0x80 := by
    simp only [isAsciiDigit, Bool.and_eq_true, decide_eq_true_eq] at h
    omega
  rw [digitValue?, if_pos hval, if_pos h]

theorem CodePoint.isDigit_of_isAsciiDigit {c : CodePoint} (h : c.isAsciiDigit = true) : c.isDigit = true := by
  rw [isDigit, digitValue?_of_isAsciiDigit h, Option.isSome_some]

namespace Text

def digit (n : Nat) : CodePoint := CodePoint.clamp (0x30 + n % 10)

/-- The last digits of a number, with zeros in front. -/
def padded : (width n : Nat) → Text
  | 0, _ => []
  | width + 1, n => padded width (n / 10) ++ [digit n]

theorem digit_val (n : Nat) : (digit n).val = 0x30 + n % 10 := Nat.min_eq_left (by omega)

theorem isAsciiDigit_digit (n : Nat) : (digit n).isAsciiDigit = true := by
  have := digit_val n
  simp only [CodePoint.isAsciiDigit, Bool.and_eq_true, decide_eq_true_eq]
  omega

theorem digitValue?_digit (n : Nat) : (digit n).digitValue? = some (n % 10) := by
  rw [CodePoint.digitValue?_of_isAsciiDigit (isAsciiDigit_digit n), digit_val, Nat.add_sub_cancel_left]

theorem length_padded (width n : Nat) : (padded width n).length = width := by
  induction width generalizing n with
  | zero => rfl
  | succ width ih => rw [padded, List.length_append, ih, List.length_singleton]

theorem isAsciiDigit_padded (width n : Nat) : ∀ c ∈ padded width n, c.isAsciiDigit = true := by
  induction width generalizing n with
  | zero => simp [padded]
  | succ width ih =>
      rw [padded, List.forall_mem_append, List.forall_mem_singleton]
      exact ⟨ih _, isAsciiDigit_digit n⟩

theorem digitsValue_padded (width : Nat) {n : Nat} (h : n < 10 ^ width) : digitsValue (padded width n) = n := by
  induction width generalizing n with
  | zero =>
      obtain rfl : n = 0 := by simpa using h
      rfl
  | succ width ih =>
      have hless : n / 10 < 10 ^ width := by
        rw [Nat.pow_succ] at h
        omega
      rw [padded, digitsValue_concat, ih hless, digitValue?_digit, Option.getD_some]
      omega

theorem exists_digit {c : CodePoint} (h : c.isAsciiDigit = true) : ∃ n < 10, c = digit n := by
  simp only [CodePoint.isAsciiDigit, Bool.and_eq_true, decide_eq_true_eq] at h
  refine ⟨c.val - 0x30, by omega, CodePoint.ext_val ?_⟩
  rw [digit_val]
  omega

theorem exists_padded {ds : Text} (h : ∀ c ∈ ds, c.isAsciiDigit = true) :
    ∃ n < 10 ^ ds.length, ds = padded ds.length n := by
  induction ds using List.reverseRecOn with
  | nil => exact ⟨0, Nat.one_pos, rfl⟩
  | append_singleton ds c ih =>
      rw [List.forall_mem_append, List.forall_mem_singleton] at h
      obtain ⟨n, hn, hds⟩ := ih h.1
      obtain ⟨m, hm, rfl⟩ := exists_digit h.2
      refine ⟨10 * n + m, ?_, ?_⟩
      · rw [List.length_append, List.length_singleton, Nat.pow_succ]
        omega
      · have hlast : digit (10 * n + m) = digit m := by
          rw [digit, digit, Nat.mul_add_mod]
        have hlead : (10 * n + m) / 10 = n := by omega
        rw [List.length_append, List.length_singleton, padded, hlead, hlast, ← hds]

end Text

namespace Lexical

variable {α β : Type} {scan : Scan α} {t ds rest : Text} {a : α} {c d : CodePoint}

/-! ### Written forms that are found -/

theorem scan_bind {f : α → Scan β} (h : scan t = some (a, rest)) : (scan >>= f) t = f a rest := by
  change (scan t).bind (fun p => f p.1 p.2) = f a rest
  rw [h, Option.bind_some]

theorem expect_self (c : CodePoint) (rest : Text) : expect c (c :: rest) = some ((), rest) := if_pos rfl

theorem accept_self (c : CodePoint) (rest : Text) : accept c (c :: rest) = some (true, rest) := if_pos rfl

theorem accept_other (h : c ∉ rest.head?) : accept c rest = some (false, rest) := by
  cases rest with
  | nil => rfl
  | cons d rest => exact if_neg fun hd => h (congrArg some hd)

/-- No digit comes next. -/
def Undigited (rest : Text) : Prop := ∀ c ∈ rest.head?, c.isAsciiDigit = false

@[simp] theorem undigited_nil : Undigited [] := fun _ h => nomatch h

@[simp] theorem undigited_cons : Undigited (c :: rest) ↔ c.isAsciiDigit = false := by simp [Undigited]

theorem digits_append (hds : ∀ d ∈ ds, d.isAsciiDigit = true) (hrest : Undigited rest) :
    digits (ds ++ rest) = some (ds, rest) := by
  have hstop : rest.takeWhile CodePoint.isAsciiDigit = [] ∧ rest.dropWhile CodePoint.isAsciiDigit = rest := by
    cases rest with
    | nil => exact ⟨rfl, rfl⟩
    | cons c rest =>
        have hc : ¬ c.isAsciiDigit = true := by simpa using hrest
        exact ⟨List.takeWhile_cons_of_neg hc, List.dropWhile_cons_of_neg hc⟩
  rw [digits, List.span_eq_takeWhile_dropWhile, List.takeWhile_append_of_pos hds, List.dropWhile_append_of_pos hds,
    hstop.1, hstop.2, List.append_nil]

theorem digits1_append (hds : ∀ d ∈ ds, d.isAsciiDigit = true) (hne : ds ≠ []) (hrest : Undigited rest) :
    digits1 (ds ++ rest) = some (ds, rest) := by
  rw [digits1, scan_bind (digits_append hds hrest), if_neg (by simpa using hne)]
  rfl

theorem digitPair_padded {isDigit : CodePoint → Bool} (hdigit : ∀ n, isDigit (Text.digit n) = true) {n : Nat}
    (h : n < 100) (rest : Text) : digitPair isDigit (Text.padded 2 n ++ rest) = some (n, rest) := by
  have hvalue : Text.digitsValue [Text.digit (n / 10), Text.digit n] = n := Text.digitsValue_padded 2 h
  change (if isDigit (Text.digit (n / 10)) && isDigit (Text.digit n) then _ else none) = _
  rw [hdigit, hdigit, hvalue]
  rfl

theorem twoDigits_padded {n : Nat} (h : n < 100) (rest : Text) : twoDigits (Text.padded 2 n ++ rest) = some (n, rest) :=
  digitPair_padded Text.isAsciiDigit_digit h rest

/-! ### What is taken -/

/-- What a scan takes of a text has a property. -/
def Takes {α : Type} (P : Text → α → Prop) (scan : Scan α) : Prop :=
  ∀ t a rest, scan t = some (a, rest) → ∃ taken, t = taken ++ rest ∧ P taken a

namespace Takes

variable {P P' : Text → α → Prop} {Q : Text → β → Prop} {scan' : Scan α}

theorem pure (h : P [] a) : Takes P (pure a) := by
  rintro t _ _ ⟨⟩
  exact ⟨[], rfl, h⟩

theorem failure : Takes P failure := fun _ _ _ h => nomatch h

theorem failure_bind {f : α → Scan β} : Takes Q (Alternative.failure >>= f) := fun _ _ _ h => nomatch h

theorem bind {f : α → Scan β} (hscan : Takes P scan)
    (hf : ∀ taken a, P taken a → Takes (fun t => Q (taken ++ t)) (f a)) :
    Takes Q (scan >>= f) := by
  intro t b rest h
  obtain ⟨⟨a, rest'⟩, ha, hb⟩ := Option.bind_eq_some_iff.1 (show (scan t).bind (fun p => f p.1 p.2) = _ from h)
  obtain ⟨taken, rfl, hP⟩ := hscan t a rest' ha
  obtain ⟨taken', rfl, hQ⟩ := hf taken a hP rest' b rest hb
  exact ⟨taken ++ taken', (List.append_assoc ..).symm, hQ⟩

theorem ite {c : Prop} [Decidable c] (h : c → Takes P scan) (h' : ¬c → Takes P scan') :
    Takes P (if c then scan else scan') := by
  split
  · next hc => exact h hc
  · next hc => exact h' hc

theorem imp (h : Takes P scan) (hP : ∀ taken a, P taken a → P' taken a) : Takes P' scan := by
  intro t a rest ha
  obtain ⟨taken, ht, hp⟩ := h t a rest ha
  exact ⟨taken, ht, hP taken a hp⟩

theorem whole (h : Takes P scan) (ha : whole scan t = some a) : P t a := by
  rw [Lexical.whole] at ha
  split at ha
  · next b hb =>
      cases ha
      obtain ⟨taken, rfl, hP⟩ := h t _ [] hb
      rwa [List.append_nil]
  · exact nomatch ha

end Takes

theorem takes_expect (c : CodePoint) : Takes (fun taken _ => taken = [c]) (expect c) := by
  intro t _ rest h
  cases t with
  | nil => exact nomatch h
  | cons d t =>
      simp only [expect, Option.ite_none_right_eq_some, Option.some.injEq, Prod.mk.injEq] at h
      obtain ⟨rfl, _, rfl⟩ := h
      exact ⟨[d], rfl, rfl⟩

theorem takes_accept (c : CodePoint) : Takes (fun taken found => taken = if found then [c] else []) (accept c) := by
  intro t found rest h
  cases t with
  | nil =>
      cases h
      exact ⟨[], rfl, rfl⟩
  | cons d t =>
      rw [accept] at h
      split at h <;> cases h
      · next hd => exact ⟨[d], rfl, by rw [hd]; rfl⟩
      · exact ⟨[], rfl, rfl⟩

theorem takes_digits : Takes (fun taken ds => taken = ds ∧ ∀ c ∈ ds, c.isAsciiDigit = true) digits := by
  intro t ds rest h
  rw [digits, List.span_eq_takeWhile_dropWhile] at h
  cases h
  exact ⟨_, (List.takeWhile_append_dropWhile ..).symm, rfl, fun _ => List.mem_takeWhile_imp⟩

theorem takes_digits1 : Takes (fun taken ds => taken = ds ∧ ds ≠ [] ∧ ∀ c ∈ ds, c.isAsciiDigit = true) digits1 := by
  refine takes_digits.bind fun taken ds ⟨htaken, hds⟩ => .ite (fun _ => .failure) fun hne => .pure ?_
  rw [List.append_nil]
  exact ⟨htaken, by simpa using hne, hds⟩

theorem takes_digitPair (isDigit : CodePoint → Bool) : Takes (fun taken n => taken.length = 2 ∧
    (∀ c ∈ taken, isDigit c = true) ∧ Text.digitsValue taken = n) (digitPair isDigit) := by
  rintro (_ | ⟨a, _ | ⟨b, t⟩⟩) n rest h
  · exact nomatch h
  · exact nomatch h
  · simp only [digitPair, Bool.and_eq_true, Option.ite_none_right_eq_some, Option.some.injEq, Prod.mk.injEq] at h
    obtain ⟨⟨ha, hb⟩, rfl, rfl⟩ := h
    exact ⟨[a, b], rfl, rfl, by simp [ha, hb], rfl⟩

theorem takes_twoDigits : Takes (fun taken n => n < 100 ∧ taken = Text.padded 2 n) twoDigits := by
  refine (takes_digitPair CodePoint.isAsciiDigit).imp fun taken n ⟨hlength, hdigits, hvalue⟩ => ?_
  obtain ⟨m, hm, htaken⟩ := Text.exists_padded hdigits
  rw [hlength] at hm htaken
  rw [htaken, Text.digitsValue_padded 2 hm] at hvalue
  exact ⟨hvalue ▸ hm, hvalue ▸ htaken⟩

/-! ### Fractions -/

/-- The digits behind a point; no point is written in front of none. -/
def fractionText (behind : Text) : Text := if behind = [] then [] else ('.' : CodePoint) :: behind

/-- A fraction is found where it is written, or no point comes next. -/
theorem fraction_text {behind : Text} {f : Text → Scan α} (hbehind : ∀ c ∈ behind, c.isAsciiDigit = true)
    (hrest : Undigited rest) (hpoint : ('.' : CodePoint) ∉ rest.head?) :
    (do
      let point ← accept '.'
      let behind ← if point then digits1 else pure []
      f behind) (fractionText behind ++ rest) = f behind rest := by
  rw [fractionText]
  split
  · next hnil =>
      rw [hnil, List.nil_append, scan_bind (accept_other hpoint)]
      rfl
  · next hne =>
      rw [List.cons_append, scan_bind (accept_self '.' _), if_pos rfl, scan_bind (digits1_append hbehind hne hrest)]

theorem Takes.fraction {Q : Text → α → Prop} {f : Text → Scan α}
    (hf : ∀ behind : Text, (∀ c ∈ behind, c.isAsciiDigit = true) →
      Takes (fun t => Q (fractionText behind ++ t)) (f behind)) :
    Takes Q (do
      let point ← accept '.'
      let behind ← if point then digits1 else Pure.pure []
      f behind) := by
  refine (takes_accept '.').bind fun taken point htaken => ?_
  subst htaken
  cases point with
  | true =>
      refine takes_digits1.bind fun _ behind ⟨htaken, hne, hdigits⟩ => ?_
      have h := hf behind hdigits
      rw [fractionText, if_neg hne] at h
      exact htaken ▸ h
  | false => exact hf [] nofun

/-! ### Years and times of day -/

def Year.text (y : Year) : Text := (if y.negative then [('-' : CodePoint)] else []) ++ y.digits

structure Year.IsWritten (y : Year) : Prop where
  long : 4 ≤ y.digits.length
  digits : ∀ c ∈ y.digits, c.isAsciiDigit = true

theorem year_text {y : Year} (hy : y.IsWritten) (hrest : Undigited rest) : year (y.text ++ rest) = some (y, rest) := by
  obtain ⟨negative, ds⟩ := y
  obtain ⟨hlong, hdigits⟩ := hy
  have haccept : accept '-' (Year.text ⟨negative, ds⟩ ++ rest) = some (negative, ds ++ rest) := by
    cases negative with
    | true => exact accept_self '-' _
    | false =>
        obtain ⟨c, cs, rfl⟩ := List.exists_cons_of_length_pos (Nat.lt_of_lt_of_le (by decide) hlong)
        refine accept_other fun hc => ?_
        have hdigit := hdigits c List.mem_cons_self
        rw [Option.some.inj hc] at hdigit
        exact nomatch hdigit
  rw [year, scan_bind haccept, scan_bind (digits_append hdigits hrest), if_neg (Nat.not_lt.2 hlong)]
  rfl

theorem takes_year : Takes (fun taken y => taken = y.text ∧ y.IsWritten) year := by
  refine (takes_accept '-').bind fun taken negative htaken => takes_digits.bind fun taken' ds ⟨htaken', hdigits⟩ => ?_
  refine .ite (fun _ => .failure) fun hlong => .pure ⟨?_, Nat.not_lt.1 hlong, hdigits⟩
  rw [htaken, htaken', List.append_nil]
  rfl

def Clock.text (c : Clock) : Text :=
  Text.padded 2 c.hour ++ (':' : CodePoint) :: (Text.padded 2 c.minute ++ (':' : CodePoint) ::
    (Text.padded 2 c.second ++ fractionText c.fraction))

structure Clock.IsWritten (c : Clock) : Prop where
  hour : c.hour < 100
  minute : c.minute < 100
  second : c.second < 100
  fraction : ∀ d ∈ c.fraction, d.isAsciiDigit = true

theorem clock_text {c : Clock} (hc : c.IsWritten) (hrest : Undigited rest) (hpoint : ('.' : CodePoint) ∉ rest.head?) :
    clock (c.text ++ rest) = some (c, rest) := by
  rw [Clock.text]
  simp only [List.append_assoc, List.cons_append]
  rw [clock, scan_bind (twoDigits_padded hc.hour _), scan_bind (expect_self _ _),
    scan_bind (twoDigits_padded hc.minute _), scan_bind (expect_self _ _), scan_bind (twoDigits_padded hc.second _)]
  exact fraction_text hc.fraction hrest hpoint

theorem takes_clock : Takes (fun taken c => taken = Clock.text c ∧ c.IsWritten) clock := by
  refine takes_twoDigits.bind fun taken₁ hour ⟨hhour, h₁⟩ => (takes_expect ':').bind fun taken₂ _ h₂ => ?_
  refine takes_twoDigits.bind fun taken₃ minute ⟨hminute, h₃⟩ => (takes_expect ':').bind fun taken₄ _ h₄ => ?_
  refine takes_twoDigits.bind fun taken₅ second ⟨hsecond, h₅⟩ => .fraction fun fraction hfraction => .pure ?_
  subst h₁ h₂ h₃ h₄ h₅
  exact ⟨by simp [Clock.text], hhour, hminute, hsecond, hfraction⟩

/-! ### Zones -/

theorem digitPair_append {isDigit : CodePoint → Bool} (hlength : ds.length = 2) (hds : ∀ c ∈ ds, isDigit c = true)
    (rest : Text) : digitPair isDigit (ds ++ rest) = some (Text.digitsValue ds, rest) := by
  obtain ⟨a, b, rfl⟩ := List.length_eq_two.1 hlength
  simp only [List.forall_mem_cons, List.not_mem_nil, IsEmpty.forall_iff, implies_true, and_true] at hds
  exact if_pos (by rw [hds.1, hds.2]; rfl)

def signMark (negative : Bool) : CodePoint := if negative then '-' else '+'

/-- A zone as it is written: a `Z`, or a sign in front of hours and minutes, which digits of any script may give. -/
inductive WritesZone : Text → Zone → Prop
  | utc : WritesZone [('Z' : CodePoint)] .utc
  | shifted (negative : Bool) {hours minutes : Text} (hhours : hours.length = 2) (hminutes : minutes.length = 2)
      (hdigits : ∀ c ∈ hours ++ minutes, c.isDigit = true) :
      WritesZone (signMark negative :: (hours ++ (':' : CodePoint) :: minutes))
        (.shifted negative (Text.digitsValue hours) (Text.digitsValue minutes))

theorem zone_of_writesZone {z : Zone} (h : WritesZone t z) : zone t = some (z, []) := by
  cases h with
  | utc => rfl
  | @shifted negative hours minutes hhours hminutes hdigits =>
      rw [List.forall_mem_append] at hdigits
      have hlast : digitPair CodePoint.isDigit minutes = some (Text.digitsValue minutes, []) := by
        simpa using digitPair_append hminutes hdigits.2 []
      have hbody (sign : Bool) : (do
          let hours ← digitPair CodePoint.isDigit
          expect ':'
          return .shifted sign hours (← digitPair CodePoint.isDigit) : Scan Zone)
            (hours ++ (':' : CodePoint) :: minutes) =
          some (.shifted sign (Text.digitsValue hours) (Text.digitsValue minutes), []) := by
        rw [scan_bind (digitPair_append hhours hdigits.1 _), scan_bind (expect_self _ _), scan_bind hlast]
        rfl
      cases negative
      · exact hbody false
      · exact hbody true

theorem takes_shift {c : CodePoint} {negative : Bool} (hc : c = signMark negative) :
    Takes (fun taken z => WritesZone (c :: taken) z) (do
      let hours ← digitPair CodePoint.isDigit
      expect ':'
      return .shifted (c = '-') hours (← digitPair CodePoint.isDigit)) := by
  refine (takes_digitPair _).bind fun hours _ ⟨hhours, hdigits, h₁⟩ => (takes_expect ':').bind fun mark _ h₂ => ?_
  refine (takes_digitPair _).bind fun minutes _ ⟨hminutes, hdigits', h₃⟩ => .pure ?_
  have hnegative : decide (signMark negative = '-') = negative := by cases negative <;> decide
  subst h₁ h₂ h₃ hc
  rw [hnegative, List.append_nil]
  exact .shifted negative hhours hminutes (List.forall_mem_append.2 ⟨hdigits, hdigits'⟩)

theorem takes_zone : Takes (fun taken z => taken = [] ∧ z = .absent ∨ WritesZone taken z) zone := by
  intro t z rest h
  have hshift {c : CodePoint} {t : Text} (negative : Bool) (hc : c = signMark negative)
      (h : (do
        let hours ← digitPair CodePoint.isDigit
        expect ':'
        return .shifted (c = '-') hours (← digitPair CodePoint.isDigit) : Scan Zone) t = some (z, rest)) :
      ∃ taken, c :: t = taken ++ rest ∧ (taken = [] ∧ z = .absent ∨ WritesZone taken z) := by
    obtain ⟨taken, rfl, hwrites⟩ := takes_shift hc t z rest h
    exact ⟨c :: taken, rfl, .inr hwrites⟩
  cases t with
  | nil =>
      cases h
      exact ⟨[], rfl, .inl ⟨rfl, rfl⟩⟩
  | cons c t =>
      rw [zone] at h
      split at h
      · next hc =>
          cases h
          exact ⟨[c], rfl, .inr (hc ▸ .utc)⟩
      split at h
      · next hsign =>
          rcases Bool.or_eq_true .. ▸ hsign with hc | hc
          · exact hshift false (of_decide_eq_true hc) h
          · exact hshift true (of_decide_eq_true hc) h
      · exact nomatch h

/-- A zone is read exactly where none or one is written. -/
theorem zone_eq_some_iff {z : Zone} : zone t = some (z, []) ↔ t = [] ∧ z = .absent ∨ WritesZone t z := by
  constructor
  · intro h
    obtain ⟨taken, rfl, hwrites⟩ := takes_zone t z [] h
    rwa [List.append_nil]
  · rintro (⟨rfl, rfl⟩ | h)
    · rfl
    · exact zone_of_writesZone h

theorem takes_zone_whole : Takes (fun taken z => zone taken = some (z, [])) zone :=
  takes_zone.imp fun _ _ => zone_eq_some_iff.2

/-- Nothing that a zone starts with goes on with a number. -/
theorem zone_head {z : Zone} (h : zone t = some (z, [])) : Undigited t ∧ ('.' : CodePoint) ∉ t.head? := by
  rcases zone_eq_some_iff.1 h with ⟨rfl, _⟩ | h
  · exact ⟨undigited_nil, nofun⟩
  · cases h with
    | utc => exact ⟨undigited_cons.2 rfl, fun h => absurd (Option.some.inj h) (by decide)⟩
    | shifted negative =>
        cases negative
        · exact ⟨undigited_cons.2 rfl, fun h => absurd (Option.some.inj h) (by decide)⟩
        · exact ⟨undigited_cons.2 rfl, fun h => absurd (Option.some.inj h) (by decide)⟩

end Lexical

end XmlSchema
