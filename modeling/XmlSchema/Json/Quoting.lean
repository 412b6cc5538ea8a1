import XmlSchema.Json.Basic
import XmlSchema.Value.Lexical

/-!
Quoting of values that were read. Not all that can be read can be written: numbers have to be finite, and surrogates
have to come in pairs.
-/

namespace XmlSchema.Json

/-- Members whose names begin so are not quoted. -/
def hiddenMark : Text := "_sa"

mutual

/-- Adds the scalars of a value as it is quoted, names among them. Of members of one name only the last is quoted. -/
def scalarsFrom (found : List Json) : Json → List Json
  | array items => scalarsOfItems found items
  | object members => scalarsOfMembers found members
  | scalar => scalar :: found

def scalarsOfItems (found : List Json) : List Json → List Json
  | [] => found
  | item :: later => scalarsOfItems (scalarsFrom found item) later

def scalarsOfMembers (found : List Json) : List (Text × Json) → List Json
  | [] => found
  | member :: later =>
    let isQuoted := !Text.startsWith member.1 hiddenMark && !later.any (·.1 = member.1)
    scalarsOfMembers (if isQuoted then scalarsOfMember found member else found) later

def scalarsOfMember (found : List Json) : Text × Json → List Json
  | (name, value) => scalarsFrom (string name :: found) value

end

/-- Whether a scalar is no number, or a finite one. Numbers with a fraction or an exponent are doubles. -/
def isFinite : Json → Bool
  | number digits =>
    if digits.all fun c => c.isAsciiDigit || c = CodePoint.ofChar '-' then true
    else match Lexical.finiteDouble? digits with
      | some (.finite ..) => true
      | _ => false
  | _ => true

/-- Whether a scalar is no string, or one without lone surrogates. -/
def isUnicode : Json → Bool
  | string t => t.all (!·.isSurrogate)
  | _ => true

end XmlSchema.Json
