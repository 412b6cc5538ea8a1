import XmlSchema.Text

/-!
What is wrong with a document, where: the line and the path of the element.
-/

namespace XmlSchema

/-- The line is not checked: callers may make diagnostics of their own. -/
structure Diagnostic where
  message : Text
  line : Option Int := none
  path : Option Text := none

/-- The message, behind the line when that is known. -/
def Diagnostic.text (d : Diagnostic) : Text :=
  match d.line with
  | some line => "line " ++ Text.ofInt line ++ ": " ++ d.message
  | none => d.message

end XmlSchema
