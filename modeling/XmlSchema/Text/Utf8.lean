import XmlSchema.Text

/-!
Text as bytes: one to four for a code point. `decode` reads any bytes and marks each maximal piece that is not the
writing of a code point; strict and lenient reading differ in what they make of the marks.
-/

namespace XmlSchema.Text.Utf8

def lowSix (n : Nat) : UInt8 := UInt8.ofNat (0x80 + n % 64)

def encodeOne (c : CodePoint) : List UInt8 :=
  let n := c.val
  if n < 0x80 then [UInt8.ofNat n]
  else if n < 0x800 then [UInt8.ofNat (0xC0 + n / 64), lowSix n]
  else if n < 0x10000 then [UInt8.ofNat (0xE0 + n / 4096), lowSix (n / 64), lowSix n]
  else [UInt8.ofNat (0xF0 + n / 262144), lowSix (n / 4096), lowSix (n / 64), lowSix n]

def encode (t : Text) : List UInt8 := t.flatMap encodeOne

def sizeOne (c : CodePoint) : Nat :=
  if c.val < 0x80 then 1 else if c.val < 0x800 then 2 else if c.val < 0x10000 then 3 else 4

def size (t : Text) : Nat := t.foldl (fun n c => n + sizeOne c) 0

theorem length_encodeOne (c : CodePoint) : (encodeOne c).length = sizeOne c := by
  simp only [encodeOne, sizeOne]
  repeat' split
  all_goals rfl

theorem foldl_sizeOne (t : Text) (n : Nat) : t.foldl (fun n c => n + sizeOne c) n = n + (encode t).length := by
  induction t generalizing n with
  | nil => rfl
  | cons c t ih =>
    have h : encode (c :: t) = encodeOne c ++ encode t := rfl
    rw [List.foldl_cons, ih, h, List.length_append, length_encodeOne]
    omega

theorem size_eq (t : Text) : size t = (encode t).length := (foldl_sizeOne t 0).trans (Nat.zero_add _)

/-- What a first byte announces: the number of bytes that follow, its own part of the number, and the bounds of the
byte behind it, which keep out overlong writings, surrogates and numbers beyond the last code point. -/
structure Lead where
  following : Nat
  part : Nat
  low : Nat := 0x80
  high : Nat := 0xBF

def lead? (b : UInt8) : Option Lead :=
  let n := b.toNat
  if n < 0x80 then some ⟨0, n, 0x80, 0xBF⟩
  else if n < 0xC2 then none
  else if n < 0xE0 then some ⟨1, n - 0xC0, 0x80, 0xBF⟩
  else if n < 0xF0 then
    some ⟨2, n - 0xE0, if n = 0xE0 then 0xA0 else 0x80, if n = 0xED then 0x9F else 0xBF⟩
  else if n < 0xF5 then
    some ⟨3, n - 0xF0, if n = 0xF0 then 0x90 else 0x80, if n = 0xF4 then 0x8F else 0xBF⟩
  else none

/-- Reads the bytes behind a first byte: the number they make, if all are there, and the bytes behind them. -/
def readFollowing : (count value low high : Nat) → List UInt8 → Option Nat × List UInt8
  | 0, value, _, _, bytes => (some value, bytes)
  | _ + 1, _, _, _, [] => (none, [])
  | count + 1, value, low, high, b :: bytes =>
    if low ≤ b.toNat && b.toNat ≤ high then readFollowing count (value * 64 + (b.toNat - 0x80)) 0x80 0xBF bytes
    else (none, b :: bytes)

/-- Decodes at most `count` pieces; `read` are those read before, the last one first. -/
def decodeFrom : (count : Nat) → (read : List (Option CodePoint)) → List UInt8 → List (Option CodePoint)
  | 0, read, _ => read.reverse
  | _, read, [] => read.reverse
  | count + 1, read, b :: bytes =>
    match lead? b with
    | none => decodeFrom count (none :: read) bytes
    | some lead =>
      let (value, rest) := readFollowing lead.following lead.part lead.low lead.high bytes
      decodeFrom count (value.bind CodePoint.ofNat? :: read) rest

def decode (bytes : List UInt8) : List (Option CodePoint) := decodeFrom bytes.length [] bytes

/-- The text that bytes write, if they do. -/
def decode? (bytes : List UInt8) : Option Text := (decode bytes).mapM id

/-- The text that bytes write, with a mark for each piece that writes nothing. -/
def decodeLossy (bytes : List UInt8) : Text := (decode bytes).map fun c => c.getD (CodePoint.clamp 0xFFFD)

end XmlSchema.Text.Utf8
