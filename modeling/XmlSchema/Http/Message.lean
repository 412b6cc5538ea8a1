import XmlSchema.Json.Basic
import XmlSchema.Text.Percent

/-!
Requests and responses.
-/

namespace XmlSchema.Http

/-- The target is the path, with percent escapes, and perhaps a query. The body comes in pieces. -/
structure Request where
  method : Text := "GET"
  target : Text
  headers : List (Text × Text) := []
  body : List Text := []

/-- Whether a request can be sent: its texts hold no surrogates. -/
def Request.isSendable (r : Request) : Bool :=
  (r.body ++ r.headers.map Prod.snd).all fun t => t.all (!·.isSurrogate)

/-- A response may have no body that matters. -/
structure Response where
  status : Nat
  body : Option Json

def Request.path (r : Request) : Text := Text.Percent.decode (r.target.takeWhile (· ≠ CodePoint.ofChar '?'))

def Request.header? (r : Request) (name : Text) : Option Text :=
  (r.headers.find? fun (other, _) => other.map CodePoint.toAsciiLower = name).map Prod.snd

def Request.text (r : Request) : Text := r.body.flatten

end XmlSchema.Http
