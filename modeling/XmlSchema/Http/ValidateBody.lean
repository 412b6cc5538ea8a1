import XmlSchema.Http.Message
import XmlSchema.Json.Encoding
import XmlSchema.Json.Reader

/-!
The body of a request for validation: an object with the two texts, each under one of several names.
-/

namespace XmlSchema.Http

structure ValidateBody where
  document : Text
  schema : Text

namespace ValidateBody

inductive Fault where
  /-- The body is no such object. What is wrong with it is quoted. -/
  | unprocessable (quoted : List Json)
  /-- The body is beyond what is read. -/
  | unreadable

/-- The text under the first of the names that there is, or the value there that is no text; under none, the text is
empty. -/
def textOf (names : List Text) (body : Json) : Except Json Text :=
  match names.findSome? fun name => body.member? name with
  | some (.string t) => .ok t
  | some other => .error other
  | none => .ok []

def documentNames : List Text := ["documentText", "xmlContent", "document_text"]

def schemaNames : List Text := ["schemaText", "xsdContent", "schema_text"]

def ofJson (body : Json) : Except Fault ValidateBody :=
  match body with
  | .object _ =>
    match textOf documentNames body, textOf schemaNames body with
    | .ok document, .ok schema => .ok ⟨document, schema⟩
    | .error other, .ok _ | .ok _, .error other => .error (.unprocessable [other])
    | .error document, .error schema => .error (.unprocessable [document, schema])
  | other => .error (.unprocessable [other])

def read (body : Text) : Except Fault ValidateBody :=
  match Json.meantText? body with
  | none => .error .unreadable
  | some text =>
    match Json.read text with
    | .ok value => ofJson value
    | .error .malformed => .error (.unprocessable [])
    | .error _ => .error .unreadable

end ValidateBody

end XmlSchema.Http
