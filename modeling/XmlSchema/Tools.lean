import XmlSchema.Service

/-!
The answers of the tools as texts for a reader: the catalog as an indented tree, a schema, and the verdict on a
document.
-/

namespace XmlSchema.Tools

inductive Fault where
  | notInitialised
  | failed (cause : Failure)
  | brokenOff (cause : Catalog.Breakdown)

def indent (level : Nat) : Text := (List.replicate level ("  " : Text)).flatten

mutual

/-- The lines of a node; what a directory holds stands one level deeper. -/
def nodeLines (level : Nat) : Catalog.Node → List Text
  | .directory name _ children => (indent level ++ name ++ "/") :: treeLines (level + 1) children
  | .file name path => [indent level ++ name ++ "  (" ++ path ++ ")"]

def treeLines (level : Nat) : List Catalog.Node → List Text
  | [] => []
  | node :: later => nodeLines level node ++ treeLines level later

end

def catalogText (nodes : List Catalog.Node) : Text :=
  if nodes.isEmpty then "The catalog is empty." else Text.join "\n" (treeLines 0 nodes)

def findingLine (f : Finding) : Text :=
  let place : Text := if f.path.isEmpty then [] else "  (at " ++ f.path ++ ")"
  "  " ++ f.diagnostic.text ++ place

def verdictText (findings : List Finding) : Text :=
  if findings.isEmpty then "Document is valid."
  else Text.join "\n" (("Document is invalid (" ++ Text.ofNat findings.length ++ " problem(s)):") ::
    findings.map findingLine)

/-- A failure with its code, and its line if it has one. What fails inside is not told. -/
def failureText? (f : Failure) : Option Text :=
  let code := "[" ++ f.code.text ++ "] "
  if f.code = .internalFailure then some (code ++ "internal error, see server logs")
  else f.message?.map fun message =>
    code ++ message ++ match f.line? with
      | some line => " (line " ++ Text.ofNat line ++ ")"
      | none => []

/-- The text of a fault; a text that is no markup is told by its code and line alone. -/
def Fault.text? : Fault → Option Text
  | notInitialised => some "Validation service not initialised"
  | failed cause => failureText? cause
  | brokenOff _ => none

def fault (f : Failure) : Fault :=
  match f.breakdown? with
  | some cause => .brokenOff cause
  | none => .failed f

/-- The service, once it has been set up. -/
def service (s : Option Service) : Except Fault Service :=
  match s with
  | some s => .ok s
  | none => .error .notInitialised

def listCatalog (s : Option Service) : Except Fault Text := do
  return catalogText (← (← service s).list.mapError .brokenOff)

def getSchema (s : Option Service) (path : Text) : Except Fault Text := do
  ((← service s).read path).mapError fault

def validateDocument (s : Option Service) (document schema : Text) : Except Fault Text := do
  return verdictText (← ((← service s).validate {} document schema).mapError fault)

end XmlSchema.Tools
