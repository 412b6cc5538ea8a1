import XmlSchema.Text.Utf8

/-!
Percent escapes. A percent sign with two hexadecimal digits stands for a byte; the bytes of an unbroken run of ASCII are
decoded together.
-/

namespace XmlSchema.Text.Percent

/-- The bytes of a run of ASCII, the last one first. -/
def bytesFrom (read : List UInt8) : Text → List UInt8
  | [] => read
  | [a] => UInt8.ofNat a.val :: read
  | [a, b] => UInt8.ofNat b.val :: UInt8.ofNat a.val :: read
  | a :: b :: c :: t =>
    if a = '%' then
      match b.hexValue?, c.hexValue? with
      | some high, some low => bytesFrom (UInt8.ofNat (16 * high + low) :: read) t
      | _, _ => bytesFrom (UInt8.ofNat a.val :: read) (b :: c :: t)
    else bytesFrom (UInt8.ofNat a.val :: read) (b :: c :: t)

/-- The bytes of a run of ASCII in which escapes stand for bytes; a broken escape stands for itself. -/
def bytes (run : Text) : List UInt8 := (bytesFrom [] run).reverse

def isAscii (c : CodePoint) : Bool := c.val < 0x80

def decodeRun (run : Text) : Text := if run.isEmpty then [] else Utf8.decodeLossy (bytes run)

def decode (t : Text) : Text :=
  let (run, parts) := t.foldr (fun c (run, parts) =>
    if isAscii c then (c :: run, parts) else ([], [c] :: decodeRun run :: parts)) (([], []) : Text × List Text)
  (decodeRun run :: parts).flatten

end XmlSchema.Text.Percent
