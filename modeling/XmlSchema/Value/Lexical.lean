import XmlSchema.NameCharacter
import XmlSchema.Text.Blank
import XmlSchema.Value.Basic

/-!
The lexical forms of the primitive datatypes. `Value.read` gives the value that a text denotes, or the first reason
why it denotes none.
-/

namespace XmlSchema

/-- Why a text denotes no value of a primitive. The last three have no text of their own. -/
inductive LexicalError where
  | notDecimal | notFloat | notBoolean | notDate | notDateTime | notTime | notDuration | notGYear | notGYearMonth
  | notGMonthDay | notGDay | notGMonth | notQName | notHexBinary | notBase64Binary
  | zoneOutOfRange | hour24 | yearTooEarly | monthOutOfRange
  | outsideCalendar | numeralTooLong | overflow
deriving DecidableEq

def LexicalError.message? : LexicalError → Option Text
  | notDecimal => some "not a decimal number"
  | notFloat => some "not a floating-point number"
  | notBoolean => some "not a boolean"
  | notDate => some "not a date"
  | notDateTime => some "not a dateTime"
  | notTime => some "not a time"
  | notDuration => some "not a duration"
  | notGYear => some "not a gYear"
  | notGYearMonth => some "not a gYearMonth"
  | notGMonthDay => some "not a gMonthDay"
  | notGDay => some "not a gDay"
  | notGMonth => some "not a gMonth"
  | notQName => some "not a QName"
  | notHexBinary => some "not hexBinary"
  | notBase64Binary => some "not base64Binary"
  | zoneOutOfRange => some "timezone offset out of range"
  | hour24 => some "hour 24 is only allowed as 24:00:00"
  | yearTooEarly => some "years before 0001 are not supported"
  | monthOutOfRange => some "month out of range"
  | outsideCalendar => none
  | numeralTooLong => none
  | overflow => none

namespace Lexical

/-- A reader of the front of a text. -/
abbrev Scan := StateT Text Option

def whole {α : Type} (scan : Scan α) (t : Text) : Option α :=
  match scan t with
  | some (a, []) => some a
  | _ => none

def expect (c : CodePoint) : Scan Unit := fun t =>
  match t with
  | [] => none
  | d :: rest => if d = c then some ((), rest) else none

def accept (c : CodePoint) : Scan Bool := fun t =>
  match t with
  | [] => some (false, [])
  | d :: rest => if d = c then some (true, rest) else some (false, d :: rest)

def digits : Scan Text := fun t => some (t.span CodePoint.isAsciiDigit)

def digits1 : Scan Text := do
  let ds ← digits
  if ds.isEmpty then failure else return ds

def digitPair (isDigit : CodePoint → Bool) : Scan Nat := fun t =>
  match t with
  | a :: b :: rest => if isDigit a && isDigit b then some (Text.digitsValue [a, b], rest) else none
  | _ => none

def twoDigits : Scan Nat := digitPair CodePoint.isAsciiDigit

/-! ### Numbers -/

/-- A sign and the digits before and behind the point, with a digit somewhere. -/
def numeral : Scan (Bool × Text × Text) := do
  let negative ← accept '-'
  if !negative then let _ ← accept '+'
  let before ← digits
  let point ← accept '.'
  let behind ← if point then digits else pure []
  if before.isEmpty && behind.isEmpty then failure else return (negative, before, behind)

def signed (negative : Bool) (n : Nat) : Int := if negative then -(n : Int) else n

/-- The decimal with these digits before and behind the point. -/
def decimalOf (negative : Bool) (before behind : Text) : Decimal :=
  let behind := (behind.reverse.dropWhile (· = CodePoint.ofChar '0')).reverse
  Decimal.ofScaled (signed negative (Text.digitsValue (before ++ behind))) behind.length

def readDecimal (t : Text) : Except LexicalError Decimal :=
  match whole numeral t with
  | some (negative, before, behind) => .ok (decimalOf negative before behind)
  | none => .error .notDecimal

def exponent : Scan Int := do
  let lower ← accept 'e'
  let upper ← if lower then pure false else accept 'E'
  if lower || upper then
    let negative ← accept '-'
    if !negative then let _ ← accept '+'
    return signed negative (Text.digitsValue (← digits1))
  else return 0

/-- The double nearest to a decimal number with an exponent. -/
def finiteDouble? (t : Text) : Option Double :=
  (whole (do return (← numeral, ← exponent)) t).map fun ((negative, before, behind), e) =>
    Double.ofDecimal negative (Text.digitsValue (before ++ behind)) (e - behind.length)

def readDouble (t : Text) : Except LexicalError Double :=
  if t = "NaN" then .ok .nan
  else if t = "INF" || t = "+INF" then .ok (.infinite false)
  else if t = "-INF" then .ok (.infinite true)
  else match finiteDouble? t with
    | some d => .ok d
    | none => .error .notFloat

def readBoolean (t : Text) : Except LexicalError Bool :=
  if t = "true" || t = "1" then .ok true
  else if t = "false" || t = "0" then .ok false
  else .error .notBoolean

/-- The number of ASCII digits, if there are not too many. -/
def bounded (t : Text) : Except LexicalError Nat :=
  match Text.boundedValue? t with
  | some n => .ok n
  | none => .error .numeralTooLong

/-! ### Dates and times -/

/-- A zone as written: none, universal time, or a sign with hours and minutes. -/
inductive Zone where
  | absent
  | utc
  | shifted (negative : Bool) (hours minutes : Nat)

/-- The zone at the end of a text. Its digits may be of any script. -/
def zone : Scan Zone := fun t =>
  match t with
  | [] => some (.absent, [])
  | c :: rest =>
    if c = 'Z' then some (.utc, rest)
    else if c = '+' || c = '-' then
      (do
        let hours ← digitPair CodePoint.isDigit
        expect ':'
        return .shifted (c = '-') hours (← digitPair CodePoint.isDigit) : Scan Zone) rest
    else none

/-- The offset of a zone in minutes; no zone is farther than fourteen hours. -/
def Zone.offset : Zone → Except LexicalError Int
  | absent => .ok 0
  | utc => .ok 0
  | shifted negative hours minutes =>
    if 14 < hours || 59 < minutes || (hours = 14 && minutes ≠ 0) then .error .zoneOutOfRange
    else .ok (signed negative (hours * 60 + minutes))

structure Year where
  negative : Bool
  digits : Text

/-- A year: at least four digits, and a minus for years before the first. -/
def year : Scan Year := do
  let negative ← accept '-'
  let ds ← digits
  if ds.length < 4 then failure else return ⟨negative, ds⟩

def Year.value (y : Year) : Except LexicalError Int := (bounded y.digits).map (signed y.negative)

/-- A time of day as written: hours may be 24, and the fraction may have any number of digits. -/
structure Clock where
  hour : Nat
  minute : Nat
  second : Nat
  fraction : Text

/-- The fraction cut to microseconds. -/
def Clock.microsecond (c : Clock) : Nat := Text.digitsValue ((c.fraction ++ "000000").take 6)

def clock : Scan Clock := do
  let hour ← twoDigits
  expect ':'
  let minute ← twoDigits
  expect ':'
  let second ← twoDigits
  let point ← accept '.'
  let fraction ← if point then digits1 else pure []
  return ⟨hour, minute, second, fraction⟩

/-- The moment of a date and time; 24:00:00 is the start of the next day. -/
def moment (year : Except LexicalError Int) (month day : Nat) (c : Clock) (zone : Zone) :
    Except LexicalError DateTime := do
  if c.hour = 24 && (c.minute ≠ 0 || c.second ≠ 0 || c.microsecond ≠ 0) then .error .hour24
  let y ← year
  if y < 1 then .error .yearTooEarly
  let offset ← zone.offset
  let time : TimeOfDay := ⟨if c.hour = 24 then 0 else c.hour, c.minute, c.second, c.microsecond⟩
  match Date.ofFields? y.toNat month day with
  | none => .error .outsideCalendar
  | some date =>
    if !time.isValid then .error .outsideCalendar
    else if c.hour = 24 then
      match date.next? with
      | none => .error .outsideCalendar
      | some next => return ⟨next, time, offset⟩
    else return ⟨date, time, offset⟩

def readDate (t : Text) : Except LexicalError DateTime :=
  match whole (do
      let y ← year
      expect '-'
      let month ← twoDigits
      expect '-'
      return (y, month, ← twoDigits, ← zone)) t with
  | some (y, month, day, z) => moment y.value month day ⟨0, 0, 0, []⟩ z
  | none => .error .notDate

def readDateTime (t : Text) : Except LexicalError DateTime :=
  match whole (do
      let y ← year
      expect '-'
      let month ← twoDigits
      expect '-'
      let day ← twoDigits
      expect 'T'
      return (y, month, day, ← clock, ← zone)) t with
  | some (y, month, day, c, z) => moment y.value month day c z
  | none => .error .notDateTime

/-- A time of day is put on one day, also when it was 24:00:00. -/
def readTime (t : Text) : Except LexicalError DateTime :=
  match whole (do return (← clock, ← zone)) t with
  | some (c, z) => (moment (.ok 2000) 1 1 c z).map fun m => { m with date := .reference }
  | none => .error .notTime

def month (n : Nat) : Except LexicalError Nat := if 1 ≤ n && n ≤ 12 then .ok n else .error .monthOutOfRange

def readGYear (t : Text) : Except LexicalError Int :=
  match whole (do return (← year, ← zone)) t with
  | some (y, z) => do
    let _ ← z.offset
    y.value
  | none => .error .notGYear

def readGYearMonth (t : Text) : Except LexicalError (Int × Int) :=
  match whole (do
      let y ← year
      expect '-'
      return (y, ← twoDigits, ← zone)) t with
  | some (y, m, z) => do
    let _ ← z.offset
    let y ← y.value
    let m ← month m
    return (y, m)
  | none => .error .notGYearMonth

/-- The day must occur in a leap year. The zone is not looked at. -/
def readGMonthDay (t : Text) : Except LexicalError (Int × Int) :=
  match whole (do
      expect '-'
      expect '-'
      let m ← twoDigits
      expect '-'
      return (m, ← twoDigits, ← zone)) t with
  | some (m, day, _) => do
    let m ← month m
    match Date.ofFields? 2000 m day with
    | some _ => return (m, day)
    | none => .error .outsideCalendar
  | none => .error .notGMonthDay

def readGDay (t : Text) : Except LexicalError Int :=
  match whole (do
      expect '-'
      expect '-'
      expect '-'
      return (← twoDigits, ← zone)) t with
  | some (day, _) => if 1 ≤ day && day ≤ 31 then .ok day else .error .notGDay
  | none => .error .notGDay

def readGMonth (t : Text) : Except LexicalError Int :=
  match whole (do
      expect '-'
      expect '-'
      return (← twoDigits, ← zone)) t with
  | some (m, _) => do
    let m ← month m
    return m
  | none => .error .notGMonth

/-! ### Durations -/

/-- The number before a unit, or nothing when no such component comes next. -/
def component (mark : CodePoint) : Scan Text := fun t =>
  match (do let ds ← digits1; expect mark; return ds : Scan Text) t with
  | some (ds, rest) => some (ds, rest)
  | none => some ([], t)

/-- The seconds, whole and fraction, or nothing. -/
def seconds : Scan (Text × Text) := fun t =>
  match (do
      let before ← digits1
      let point ← accept '.'
      let behind ← if point then digits1 else pure []
      expect 'S'
      return (before, behind) : Scan (Text × Text)) t with
  | some (s, rest) => some (s, rest)
  | none => some (([], []), t)

structure DurationParts where
  negative : Bool
  years : Text
  months : Text
  days : Text
  hours : Text
  minutes : Text
  seconds : Text × Text

/-- Years, months and days, and behind a `T` hours, minutes and seconds; each part that is opened starts with a
digit. -/
def durationParts : Scan DurationParts := do
  let negative ← accept '-'
  expect 'P'
  let years ← component 'Y'
  let months ← component 'M'
  let days ← component 'D'
  let timed ← accept 'T'
  let hours ← if timed then component 'H' else pure []
  let minutes ← if timed then component 'M' else pure []
  let secs ← if timed then seconds else pure ([], [])
  if years.isEmpty && months.isEmpty && days.isEmpty && !timed then failure
  if timed && hours.isEmpty && minutes.isEmpty && secs.1.isEmpty then failure
  return ⟨negative, years, months, days, hours, minutes, secs⟩

def rounded (x : Decimal) : Except LexicalError Decimal :=
  match x.round? with
  | some y => .ok y
  | none => .error .overflow

/-- Months and seconds of a duration. Each product and sum keeps the significant digits of decimals. -/
def readDuration (t : Text) : Except LexicalError (Int × Decimal) :=
  match whole durationParts t with
  | none => .error .notDuration
  | some d => do
    let years ← bounded d.years
    let months ← bounded d.months
    let times (ds : Text) (unit : Int) : Except LexicalError Decimal :=
      rounded ((Decimal.ofInt (Text.digitsValue ds)).mul (.ofInt unit))
    let days ← times d.days 86400
    let daysAndHours ← rounded (days.add (← times d.hours 3600))
    let wholeMinutes ← rounded (daysAndHours.add (← times d.minutes 60))
    let total ← rounded (wholeMinutes.add (decimalOf false d.seconds.1 d.seconds.2))
    return (signed d.negative (years * 12 + months), if d.negative then total.neg else total)

/-! ### Binary values and names -/

def hexBytes? : Text → Option (List UInt8)
  | [] => some []
  | [_] => none
  | a :: b :: rest =>
    match a.hexValue?, b.hexValue? with
    | some x, some y => (hexBytes? rest).map (UInt8.ofNat (16 * x + y) :: ·)
    | _, _ => none

def readHex (t : Text) : Except LexicalError (List UInt8) :=
  match hexBytes? t with
  | some b => .ok b
  | none => .error .notHexBinary

/-- The six bits of a character of the base64 alphabet. -/
def sextet? (c : CodePoint) : Option Nat :=
  if c.isAsciiUpper then some (c.val - 0x41)
  else if c.isAsciiLower then some (c.val - 0x61 + 26)
  else if c.isAsciiDigit then some (c.val - 0x30 + 52)
  else if c = '+' then some 62
  else if c = '/' then some 63
  else none

/-- The whole bytes in groups of four sextets; the odd bits of a short last group are dropped. -/
def joinSextets : List Nat → List UInt8
  | a :: b :: c :: d :: rest =>
    UInt8.ofNat (a * 4 + b / 16) :: UInt8.ofNat (b % 16 * 16 + c / 4) :: UInt8.ofNat (c % 4 * 64 + d) ::
      joinSextets rest
  | [a, b, c] => [UInt8.ofNat (a * 4 + b / 16), UInt8.ofNat (b % 16 * 16 + c / 4)]
  | [a, b] => [UInt8.ofNat (a * 4 + b / 16)]
  | _ => []

/-- Blanks are dropped. A last group of two or three characters is filled up with padding; behind whole groups, of
which there is one, any padding is let pass. -/
def readBase64 (t : Text) : Except LexicalError (List UInt8) :=
  let pad : CodePoint := '='
  let (body, padding) := (t.filter (!·.isBlank)).span (· ≠ pad)
  match body.mapM sextet? with
  | none => .error .notBase64Binary
  | some sextets =>
    let filled := match sextets.length % 4 with
      | 0 => padding.isEmpty || !sextets.isEmpty
      | 1 => false
      | r => padding.length = 4 - r
    if padding.all (· = pad) && filled then .ok (joinSextets sextets) else .error .notBase64Binary

/-- The part before the last colon, if not empty, and the part behind it are names without a colon. -/
def readQName (t : Text) : Except LexicalError Text :=
  let (lead, last) := (Text.splitLast? ':' t).getD ([], t)
  if (lead.isEmpty || NameCharacter.isNCName lead) && NameCharacter.isNCName last then .ok t else .error .notQName

end Lexical

namespace Value

open Lexical

def read (p : Primitive) (t : Text) : Except LexicalError Value :=
  match p with
  | .anySimpleType | .string | .anyURI => .ok (.text t)
  | .boolean => (readBoolean t).map .boolean
  | .decimal => (readDecimal t).map .decimal
  | .float | .double => (readDouble t).map .double
  | .duration => (readDuration t).map fun (m, s) => .duration m s
  | .dateTime => (readDateTime t).map .moment
  | .date => (readDate t).map .moment
  | .time => (readTime t).map .moment
  | .gYear => (readGYear t).map .integer
  | .gYearMonth => (readGYearMonth t).map fun (y, m) => .pair y m
  | .gMonthDay => (readGMonthDay t).map fun (m, d) => .pair m d
  | .gDay => (readGDay t).map .integer
  | .gMonth => (readGMonth t).map .integer
  | .hexBinary => (readHex t).map .bytes
  | .base64Binary => (readBase64 t).map .bytes
  | .qname | .notationName => (readQName t).map .text

/-- The length that the length facets measure: bytes of binary values, code points of texts. -/
def length? (p : Primitive) (lexical : Text) (v : Value) : Option Nat :=
  if !p.hasLength then none
  else match v with
    | bytes b => some b.length
    | _ => some lexical.length

end Value

end XmlSchema
