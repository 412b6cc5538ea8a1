import XmlSchema.Http.Message
import XmlSchema.Text.Blank
import XmlSchema.Text.Utf8

/-!
The limit of request bodies. A body is refused for its announced length, before it is read, and for its length.
-/

namespace XmlSchema.Http

/-- The part of a path that the limit goes by: up to a mark that would begin a query or a fragment, without breaks. -/
def limitPath (path : Text) : Text :=
  (path.takeWhile fun c => c ≠ CodePoint.ofChar '?' && c ≠ CodePoint.ofChar '#').filter fun c =>
    c.val ≠ 0x9 && c.val ≠ 0xA && c.val ≠ 0xD

def mebibyte : Nat := 1024 * 1024

/-- The most bytes of a body: those of two documents for a validation, and few for all else. -/
def bodyLimit (path : Text) : Nat := if Text.endsWith (limitPath path) "/validate" then 10 * mebibyte else mebibyte

def detail (body : Json) : Json := .object [("detail", body)]

def invalidInput (message : Text) : Json :=
  detail (.object [("error", .string "INVALID_INPUT"), ("message", .string message)])

def tooLarge (limit : Nat) : Response :=
  ⟨413, invalidInput ("Request body too large (max " ++ Text.ofNat (limit / mebibyte) ++ " MB)")⟩

def sendsBody (method : Text) : Bool := ([("POST" : Text), "PUT", "PATCH"] : List Text).contains method

/-- Whether a body is longer than a limit; pieces behind the limit are not looked at. -/
def exceeds (limit : Nat) : (size : Nat) → List Text → Bool
  | _, [] => false
  | size, piece :: later =>
    let size := piece.foldl (fun n c => n + (Text.Utf8.encodeOne c).length) size
    if limit < size then true else exceeds limit size later

def refuseBody? (r : Request) : Option Response :=
  let limit := bodyLimit r.path
  let announced : Except Response Unit := match r.header? "content-length" with
    | none => .ok ()
    | some value =>
      match if value.all (·.val < 0x80) then Text.toInt? value else none with
      | none => .error ⟨400, invalidInput "Invalid Content-Length header"⟩
      | some length => if (limit : Int) < length then .error (tooLarge limit) else .ok ()
  match announced with
  | .error refusal => some refusal
  | .ok () => if sendsBody r.method && exceeds limit 0 r.body then some (tooLarge limit) else none

end XmlSchema.Http
