import XmlSchema.Configuration.Launch
import XmlSchema.Http.BodyLimit
import XmlSchema.Http.ValidateBody
import XmlSchema.Json.Quoting
import XmlSchema.Service

/-!
The routes of the interface, and their responses.
-/

namespace XmlSchema.Http

inductive Route where
  | health
  | tree
  | content (path : Text)
  | validate
  /-- A page that describes the interface. -/
  | manual

namespace Route

def methods : Route → List Text
  | validate => ["POST"]
  | manual => ["GET", "HEAD"]
  | _ => ["GET"]

def manualPaths : List Text := ["/docs", "/redoc", "/openapi.json", "/docs/oauth2-redirect"]

def contentPath : Text := "/xsd-content/"

/-- A path may end with a line feed, which does not count. -/
def withoutFinalBreak (path : Text) : Text :=
  match path.reverse with
  | c :: before => if c.val = 0xA then before.reverse else path
  | [] => []

def ofPath? (path : Text) : Option Route :=
  let path := withoutFinalBreak path
  match Text.dropPrefix? contentPath path with
  | some inside => if inside.any (·.val = 0xA) then none else some (content inside)
  | none =>
    if path = Text.ofString "/health" then some health
    else if path = Text.ofString "/xsd-tree" then some tree
    else if path = Text.ofString "/validate" then some validate
    else if manualPaths.contains path then some manual
    else none

/-- A path with a slash at its end, or without, where there was none or one. -/
def otherEnding (path : Text) : Text :=
  if Text.endsWith path "/" then (path.reverse.dropWhile (· = CodePoint.ofChar '/')).reverse else path ++ "/"

end Route

/-! ### Bodies -/

mutual

def nodeJson : Catalog.Node → Json
  | .directory name path children =>
    .object [("name", .string name), ("path", .string path), ("kind", .string "directory"),
      ("children", .array (nodesJson children))]
  | .file name path => .object [("name", .string name), ("path", .string path), ("kind", .string "file")]

def nodesJson : List Catalog.Node → List Json
  | [] => []
  | node :: later => nodeJson node :: nodesJson later

end

def findingJson (f : Finding) : Json :=
  .object [("message", .string f.violation.message), ("line", .ofNat f.line), ("column", .null),
    ("path", .string f.path)]

def verdictJson (findings : List Finding) : Json :=
  .object [("outcome", .string (if findings.isEmpty then ("valid" : Text) else "invalid")),
    ("diagnostics", .array (findings.map fun f => .string f.diagnostic.text)),
    ("details", .array (findings.map findingJson))]

def statusOf : FailureCode → Nat
  | .notFound => 404
  | .pathTraversal => 403
  | .internalFailure => 500
  | _ => 400

/-- What fails inside is not told. -/
def failureJson (f : Failure) : Json :=
  let code : Text × Json := ("error", .string f.code.text)
  detail (.object (if f.code = .internalFailure then
    [code, ("message", .string "An internal error occurred while processing the request")]
  else
    code :: Json.optional "message" .string f.message? ++ Json.optional "line" .ofNat f.line?))

def failureResponse (f : Failure) : Response := ⟨statusOf f.code, failureJson f⟩

/-! ### Responses -/

/-- Why there is no response. -/
inductive Breakdown where
  | catalog (cause : Catalog.Breakdown)
  | unsendable
  /-- A response would have to quote a number that is not finite. -/
  | infiniteNumber
  /-- A response would have to quote a lone surrogate. -/
  | loneSurrogate

def healthJson : Json := .object [("status", .string "ok"), ("version", .string applicationVersion)]

def respondContent (s : Service) (path : Text) : Except Breakdown Response :=
  match s.read path with
  | .ok text => .ok ⟨200, some (.object [("content", .string text)])⟩
  | .error f =>
    match f.breakdown? with
    | some cause => .error (.catalog cause)
    | none => .ok (failureResponse f)

def refuseValues (quoted : List Json) : Except Breakdown Response :=
  let scalars := Json.scalarsOfItems [] quoted
  if !scalars.all Json.isFinite then .error .infiniteNumber
  else if !scalars.all Json.isUnicode then .error .loneSurrogate
  else .ok ⟨422, none⟩

def respondValidate (s : Service) (body : Text) : Except Breakdown Response :=
  match ValidateBody.read body with
  | .error (.unprocessable quoted) => refuseValues quoted
  | .error .unreadable => .ok ⟨400, detail (.string "There was an error parsing the body")⟩
  | .ok texts =>
    match s.validateBeside {} texts.document texts.schema with
    | .ok findings => .ok ⟨200, verdictJson findings⟩
    | .error f => .ok (failureResponse f)

def respondRoute (s : Service) (r : Request) : Route → Except Breakdown Response
  | .health => .ok ⟨200, healthJson⟩
  | .tree => (s.list.mapError .catalog).map fun nodes => ⟨200, some (.array (nodesJson nodes))⟩
  | .content path => respondContent s path
  | .validate => respondValidate s r.text
  | .manual => .ok ⟨200, none⟩

/-- The response to a request. A path that would be a route with its slash at the end added or removed is redirected. -/
def respond (s : Service) (r : Request) : Except Breakdown Response :=
  if !r.isSendable then .error .unsendable
  else match refuseBody? r with
  | some refusal => .ok refusal
  | none =>
    match Route.ofPath? r.path with
    | some route =>
      if route.methods.contains r.method then respondRoute s r route
      else .ok ⟨405, detail (.string "Method Not Allowed")⟩
    | none =>
      if (Route.ofPath? (Route.otherEnding r.path)).isSome then .ok ⟨307, none⟩
      else .ok ⟨404, detail (.string "Not Found")⟩

end XmlSchema.Http
