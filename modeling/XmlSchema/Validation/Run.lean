import XmlSchema.Schema.Reader
import XmlSchema.Validation.Document

/-!
Validation of one text against another. A run passes checkpoints on its way: one behind the reading of both texts, one
behind the reading of the schema, one before every element and those of the matching of its children. It can be
stopped at any of them, and then tells nothing.
-/

namespace XmlSchema.Validation

/-- Why a document is not judged. -/
inductive Refusal where
  | missingText (field : Text)
  | document (cause : Xml.LoadError)
  | schemaText (cause : Xml.LoadError)
  | schema (cause : SchemaError)
  | brokenOff (cause : Breakdown)
  /-- The run was stopped. -/
  | stopped

/-- Whether a run breaks off at something that no rule for documents or schemas foresees. -/
def Refusal.isUnexpected : Refusal → Bool
  | .schema (.malformed _ _) => false
  | .schema _ | .brokenOff _ => true
  | _ => false

/-- What a run comes to, and how many checkpoints it passes until then. -/
structure Run where
  outcome : Except Refusal (List Finding)
  checkpoints : Nat

/-- What a report comes to at the end of a run. -/
def Settings.outcome (s : Settings) (r : Report) : Except Refusal (List Finding) :=
  match r.breakdown? with
  | some cause => .error (.brokenOff cause)
  | none => if s.stops r then .error .stopped else .ok r.inOrder

structure Engine where
  limits : Xml.Limits := {}
  maxDepth : Int := 256

namespace Engine

/-- Reads both texts, the document first. Neither may be blank. -/
def readTexts (e : Engine) (document schema : Text) : Except Refusal (Xml.Element × Xml.Element) := do
  if (Text.trim document).isEmpty then throw (.missingText "documentText")
  if (Text.trim schema).isEmpty then throw (.missingText "schemaText")
  let root ← (Xml.load e.limits document).mapError .document
  let schemaRoot ← (Xml.load e.limits schema).mapError .schemaText
  return (root, schemaRoot)

/-- A run in which at most `allowance` checkpoints may be passed: it is stopped at the next one. -/
def run (e : Engine) (allowance : Option Nat) (document schema : Text) : Run :=
  let stops (checkpoints : Nat) : Bool := allowance.any (· < checkpoints)
  match e.readTexts document schema with
  | .error refusal => ⟨.error refusal, 0⟩
  | .ok (root, schemaRoot) =>
    if stops 1 then ⟨.error .stopped, 1⟩
    else match Schema.ofElement schemaRoot with
    | .error cause => ⟨.error (.schema cause), 1⟩
    | .ok schema =>
      if stops 2 then ⟨.error .stopped, 2⟩
      else
        let settings : Settings := ⟨schema, e.maxDepth, allowance⟩
        let report := checkDocument settings root { checkpoints := 2 }
        ⟨settings.outcome report, report.checkpoints⟩

/-- The verdict on a document, of a run that nothing stops. -/
def validate (e : Engine) (document schema : Text) : Except Refusal (List Finding) :=
  (e.run none document schema).outcome

end Engine

end XmlSchema.Validation
