import XmlSchema.Json.Basic
import XmlSchema.Text.Blank

/-!
Reading of JSON. Tokens are read one after another, and each changes what may come next; the arrays and objects that
are still open are kept in a list, the innermost first. `NaN` and the infinities also count as numbers.
-/

namespace XmlSchema.Json

inductive ReadError where
  | malformed
  /-- Too many arrays and objects inside one another. -/
  | tooDeep
  /-- An integer of too many digits. -/
  | numberTooLong
deriving DecidableEq

inductive Token where
  | beginObject
  | endObject
  | beginArray
  | endArray
  | comma
  | colon
  | scalar (value : Json)

/-! ### Tokens -/

/-- The single code point that an escape stands for. -/
def escape? (c : CodePoint) : Option CodePoint :=
  ([('"', 0x22), ('\\', 0x5C), ('/', 0x2F), ('b', 0x8), ('f', 0xC), ('n', 0xA), ('r', 0xD), ('t', 0x9)] :
    List (Char × Nat)).findSome? fun (letter, code) =>
      if c = CodePoint.ofChar letter then some (CodePoint.clamp code) else none

/-- The number of four hexadecimal digits. -/
def hexFour? (a b c d : CodePoint) : Option Nat := do
  return 4096 * (← a.hexValue?) + 256 * (← b.hexValue?) + 16 * (← c.hexValue?) + (← d.hexValue?)

def isHigh (n : Nat) : Bool := 0xD800 ≤ n && n ≤ 0xDBFF

def isLow (n : Nat) : Bool := 0xDC00 ≤ n && n ≤ 0xDFFF

/-- The code point of a pair of surrogates. -/
def joinPair (high low : Nat) : CodePoint := CodePoint.clamp (0x10000 + 0x400 * (high - 0xD800) + (low - 0xDC00))

def quote : CodePoint := '"'

def backslash : CodePoint := '\\'

/-- What has been read of a string, the last code point first. A high surrogate that was escaped last waits for a low
one. -/
structure Pending where
  high? : Option Nat := none
  read : Text := []

/-- Without waiting: the high surrogate stays alone. -/
def Pending.flush (p : Pending) : Text :=
  match p.high? with
  | some high => CodePoint.clamp high :: p.read
  | none => p.read

/-- A code point that is no part of a pair. -/
def Pending.push (p : Pending) (c : CodePoint) : Pending := ⟨none, c :: p.flush⟩

/-- An escaped number; a low surrogate directly behind an escaped high one makes one code point with it. -/
def Pending.pushEscaped (p : Pending) (n : Nat) : Pending :=
  match p.high?, isLow n with
  | some high, true => ⟨none, joinPair high n :: p.read⟩
  | _, _ => if isHigh n then ⟨some n, p.flush⟩ else p.push (CodePoint.clamp n)

/-- Reads a string from behind its opening quote. Control characters have to be escaped. -/
def readString (p : Pending) : Text → Option (Text × Text)
  | [] => none
  | c :: t =>
    if c = quote then some (p.flush.reverse, t)
    else if c = backslash then
      match t with
      | [] => none
      | d :: t =>
        if d = CodePoint.ofChar 'u' then
          match t with
          | h₁ :: h₂ :: h₃ :: h₄ :: t =>
            match hexFour? h₁ h₂ h₃ h₄ with
            | some n => readString (p.pushEscaped n) t
            | none => none
          | _ => none
        else
          match escape? d with
          | some e => readString (p.push e) t
          | none => none
    else if c.val < 0x20 then none
    else readString (p.push c) t

def maxDigits : Nat := Text.maxDigits

/-- What follows an exponent, if one comes next. -/
def readExponent (t : Text) : Text × Text :=
  match t with
  | [] => ([], [])
  | c :: rest =>
    let (sign, digits) := match rest with
      | s :: digits => if s = CodePoint.ofChar '-' || s = CodePoint.ofChar '+' then ([s], digits) else ([], rest)
      | [] => ([], [])
    let (power, rest) := digits.span CodePoint.isAsciiDigit
    if c.toAsciiLower = CodePoint.ofChar 'e' && !power.isEmpty then (c :: sign ++ power, rest) else ([], t)

/-- A fraction and what follows it; a point without digits is none. -/
def readFraction (t : Text) : Text × Text :=
  match Text.dropPrefix? "." t with
  | some rest =>
    let (digits, rest) := rest.span CodePoint.isAsciiDigit
    if digits.isEmpty then ([], t) else ("." ++ digits, rest)
  | none => ([], t)

/-- Reads a number behind its sign. Zeros in front are not part of it. -/
def readNumber (sign t : Text) : Except ReadError (Json × Text) :=
  let (digits, rest) := t.span CodePoint.isAsciiDigit
  let (whole, rest) := match digits with
    | c :: more => if c = CodePoint.ofChar '0' then ([c], more ++ rest) else (digits, rest)
    | [] => ([], rest)
  if whole.isEmpty then .error .malformed
  else
    let (fraction, rest) := readFraction rest
    let (power, rest) := readExponent rest
    if fraction.isEmpty && power.isEmpty && maxDigits < whole.length then .error .numberTooLong
    else .ok (number (sign ++ whole ++ fraction ++ power), rest)

def words : List (Text × Json) :=
  [("null", null), ("true", bool true), ("false", bool false), ("NaN", number "NaN"), ("Infinity", number "Infinity"),
    ("-Infinity", number "-Infinity")]

/-- The value of a word that a text begins with, and what follows it. -/
def readWord? (t : Text) : Option (Json × Text) :=
  words.findSome? fun (word, value) => (Text.dropPrefix? word t).map (value, ·)

def readScalar (t : Text) : Except ReadError (Json × Text) :=
  match readWord? t, Text.dropPrefix? "\"" t, Text.dropPrefix? "-" t with
  | some found, _, _ => .ok found
  | none, some inside, _ =>
    match readString {} inside with
    | some (s, rest) => .ok (string s, rest)
    | none => .error .malformed
  | none, none, some unsigned => readNumber "-" unsigned
  | none, none, none => readNumber [] t

def mark? (c : CodePoint) : Option Token :=
  if c = CodePoint.ofChar '\x7b' then some .beginObject
  else if c = CodePoint.ofChar '\x7d' then some .endObject
  else if c = CodePoint.ofChar '[' then some .beginArray
  else if c = CodePoint.ofChar ']' then some .endArray
  else if c = CodePoint.ofChar ',' then some .comma
  else if c = CodePoint.ofChar ':' then some .colon
  else none

/-! ### Structure -/

/-- An array or object that is open, with what it holds so far, the last first. An object waits for the value of a
key. -/
inductive Frame where
  | array (items : List Json)
  | object (members : List (Text × Json)) (key : Text)

/-- What may come next. -/
inductive Expected where
  | value
  /-- A value, or the end of the array that was just begun. -/
  | firstItem
  /-- A key, or the end of the object that was just begun. -/
  | firstKey (members : List (Text × Json))
  | key (members : List (Text × Json))
  | colon
  /-- A value is complete: a comma, or the end of what it is in. -/
  | separator (value : Json)

structure State where
  expected : Expected := .value
  frames : List Frame := []

/-- The most arrays and objects inside one another. -/
def maxDepth : Nat := 968

def State.depth (s : State) : Nat :=
  match s.expected with
  | .firstKey _ | .key _ => s.frames.length + 1
  | _ => s.frames.length

def State.step (s : State) (token : Token) : Except ReadError State :=
  match s.expected, token, s.frames with
  | .value, .scalar v, frames => .ok ⟨.separator v, frames⟩
  | .firstItem, .scalar v, frames => .ok ⟨.separator v, frames⟩
  | .value, .beginArray, frames => begun ⟨.firstItem, .array [] :: frames⟩
  | .firstItem, .beginArray, frames => begun ⟨.firstItem, .array [] :: frames⟩
  | .value, .beginObject, frames => begun ⟨.firstKey [], frames⟩
  | .firstItem, .beginObject, frames => begun ⟨.firstKey [], frames⟩
  | .firstItem, .endArray, .array _ :: frames => .ok ⟨.separator (array []), frames⟩
  | .firstKey _, .endObject, frames => .ok ⟨.separator (object []), frames⟩
  | .firstKey members, .scalar (string k), frames => .ok ⟨.colon, .object members k :: frames⟩
  | .key members, .scalar (string k), frames => .ok ⟨.colon, .object members k :: frames⟩
  | .colon, .colon, frames => .ok ⟨.value, frames⟩
  | .separator v, .comma, .array items :: frames => .ok ⟨.value, .array (v :: items) :: frames⟩
  | .separator v, .comma, .object members k :: frames => .ok ⟨.key ((k, v) :: members), frames⟩
  | .separator v, .endArray, .array items :: frames => .ok ⟨.separator (array (v :: items).reverse), frames⟩
  | .separator v, .endObject, .object members k :: frames =>
    .ok ⟨.separator (object ((k, v) :: members).reverse), frames⟩
  | _, _, _ => .error .malformed
where
  begun (s : State) : Except ReadError State := if maxDepth < s.depth then .error .tooDeep else .ok s

/-- Takes at most `count` tokens from a text, which has to end with them. -/
def readFrom : (count : Nat) → State → Text → Except ReadError Json
  | 0, _, _ => .error .malformed
  | count + 1, s, t =>
    match t.dropWhile CodePoint.isSpace with
    | [] =>
      match s.expected, s.frames with
      | .separator v, [] => .ok v
      | _, _ => .error .malformed
    | c :: rest =>
      match mark? c with
      | some token => do readFrom count (← s.step token) rest
      | none => do
        let (v, rest) ← readScalar (c :: rest)
        readFrom count (← s.step (.scalar v)) rest

/-- Reads a text that is one value. Every token takes at least one code point. -/
def read (t : Text) : Except ReadError Json := readFrom (t.length + 1) {} t

end XmlSchema.Json
