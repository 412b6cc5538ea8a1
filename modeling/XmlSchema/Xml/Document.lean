import XmlSchema.Xml.Reader

/-!
Loading of documents within limits of size, and without document type declarations.
-/

namespace XmlSchema.Xml

structure Limits where
  maxSize : Int := 5000000
  maxNodes : Int := 200000

/-- Why a text is not loaded. -/
inductive LoadError where
  | tooLarge (size : Nat) (limit : Int)
  | documentType
  | notUnicode (index : Nat)
  | malformed (line : Nat)
  | tooManyNodes (limit : Int)

namespace LoadError

/-- What is wrong; a fault in the markup is told by its line alone. -/
def message? : LoadError → Option Text
  | tooLarge size limit =>
    some ("XML document exceeds maximum size (" ++ Text.grouped size ++ " chars > " ++ Text.groupedInt limit ++
      " limit)")
  | documentType => some "DOCTYPE declarations are not supported"
  | notUnicode index =>
    some ("text is not valid Unicode: surrogates not allowed at character " ++ Text.ofNat index)
  | malformed _ => none
  | tooManyNodes limit => some ("XML document exceeds maximum node count (" ++ Text.groupedInt limit ++ ")")

def line? : LoadError → Option Nat
  | malformed line => some line
  | _ => none

end LoadError

/-- When the text begins with `opening`, what stands from the third character of the next `closing` on, if that
comes. -/
def passed? (opening closing t : Text) : Option (Option Text) :=
  (Text.dropPrefix? opening t).map fun inside =>
    (Text.splitAt? closing inside).map fun (_, after) => closing.drop 2 ++ after

theorem passed?_length {opening closing t next : Text} (h : passed? opening closing t = some (some next)) :
    opening.length + next.length ≤ t.length := by
  simp only [passed?, Option.map_eq_some_iff] at h
  obtain ⟨inside, hi, ⟨before, after⟩, hp, rfl⟩ := h
  have := Text.dropPrefix?_length hi
  have : closing.length + after.length ≤ inside.length := Text.splitAt?_length hp
  simp only [List.length_append, List.length_drop]
  omega

/-- From the first opening of markup on. -/
def fromMarkup (t : Text) : Text := t.dropWhile fun c => c.val ≠ 0x3C

theorem fromMarkup_length (t : Text) : (fromMarkup t).length ≤ t.length := (List.dropWhile_sublist _).length_le

def documentTypeMark : Text := "<!DOCTYPE"

/-- Whether a document type declaration, in any case, comes before the first element. Comments and instructions are
passed over; one that does not end hides all that follows. -/
def declaresType (t : Text) : Bool :=
  match _hi : passed? "<?" "?>" (fromMarkup t), _hc : passed? "<!--" "-->" (fromMarkup t) with
  | some (some next), _ => declaresType next
  | some none, _ => false
  | none, some (some next) => declaresType next
  | none, some none => false
  | none, none => ((fromMarkup t).take documentTypeMark.length).map CodePoint.toAsciiUpper = documentTypeMark
termination_by t.length
decreasing_by
  · have h := passed?_length _hi
    have : ("<?" : Text).length = 2 := rfl
    have := fromMarkup_length t
    omega
  · have h := passed?_length _hc
    have : ("<!--" : Text).length = 4 := rfl
    have := fromMarkup_length t
    omega

def load (limits : Limits) (t : Text) : Except LoadError Element := do
  let size := t.length
  if limits.maxSize < size then throw (.tooLarge size limits.maxSize)
  if declaresType t then throw .documentType
  if let some index := t.findIdx? (·.isSurrogate) then throw (.notUnicode index)
  match (Cursor.start t).document with
  | .error line => throw (.malformed line)
  | .ok root =>
    if limits.maxNodes < root.toNode.count then throw (.tooManyNodes limits.maxNodes)
    return root

end XmlSchema.Xml
