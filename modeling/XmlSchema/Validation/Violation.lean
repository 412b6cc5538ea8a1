import XmlSchema.Content.Recovery
import XmlSchema.SimpleType.Check
import XmlSchema.Validation.Diagnostic

/-!
The ways in which a document can break the rules of a schema. Elements are called by the local parts of their names.
-/

namespace XmlSchema

inductive Violation where
  | unexpectedRoot (name : Name) (expected : List Text)
  | tooDeep (element : Text) (maximum : Int)
  | abstractElement (element : Text)
  | abstractType (element type : Text)
  | undeclaredTypePrefix (typeName : Text)
  | unknownType (typeName element : Text)
  | unrelatedType (typeName element declared : Text)
  | invalidNil (value : Text)
  | notNillable (element : Text)
  | nilNotEmpty (element : Text)
  | nilWithFixed (element : Text)
  | elementValue (element : Text) (problem : Problem)
  | fixedValue (element fixed : Text)
  | childInText (element child : Text)
  | textInEmpty (element text : Text)
  | textAmongElements (element text : Text)
  | children (element : Text) (mismatch : Mismatch)
  | undeclaredElement (element : Text)
  | forbiddenAttribute (name element : Text)
  | prohibitedAttribute (name element : Text)
  | undeclaredAttribute (name element : Text)
  | missingAttribute (name element : Text)
  | attributeValue (name : Text) (problem : Problem)
  | fixedAttribute (name fixed : Text)

namespace Violation

/-- Whether a number has more digits than arithmetic allows. -/
def isOverflow : Violation → Bool
  | elementValue _ problem | attributeValue _ problem => problem.isOverflow
  | _ => false

/-- The most characters of stray text that a message shows. -/
def shownCharacters : Nat := 40

def inNamespace (uri : Text) : Text := if uri.isEmpty then [] else " in namespace '" ++ uri ++ "'"

def rootList (expected : List Text) : Text :=
  if expected.isEmpty then "none declared" else Text.join ", " (expected.map Text.quoted)

def message : Violation → Text
  | unexpectedRoot name expected =>
    "unexpected root element '" ++ name.localPart ++ "'" ++ inNamespace name.uri ++ "; expected one of: " ++
      rootList expected
  | tooDeep element maximum =>
    "element '" ++ element ++ "' exceeds the maximum nesting depth of " ++ Text.ofInt maximum
  | abstractElement element => "element '" ++ element ++ "' is abstract and cannot appear in a document"
  | abstractType element type =>
    "element '" ++ element ++ "' has abstract type '" ++ type ++ "'; use xsi:type to select a concrete type"
  | undeclaredTypePrefix typeName => "xsi:type '" ++ typeName ++ "' uses an undeclared prefix"
  | unknownType typeName element =>
    "xsi:type '" ++ typeName ++ "' on element '" ++ element ++ "' names an unknown type"
  | unrelatedType typeName element declared =>
    "xsi:type '" ++ typeName ++ "' on element '" ++ element ++ "' is not derived from the declared type '" ++
      declared ++ "'"
  | invalidNil value => "xsi:nil value '" ++ value ++ "' is not a boolean"
  | notNillable element => "element '" ++ element ++ "' is not nillable"
  | nilNotEmpty element => "element '" ++ element ++ "' is nil and must be empty"
  | nilWithFixed element => "element '" ++ element ++ "' has a fixed value and cannot be nil"
  | elementValue element problem => "element '" ++ element ++ "': " ++ problem.message
  | fixedValue element fixed => "element '" ++ element ++ "' must have the fixed value '" ++ fixed ++ "'"
  | childInText element child =>
    "element '" ++ element ++ "' has simple content and cannot contain child element '" ++ child ++ "'"
  | textInEmpty element text =>
    "element '" ++ element ++ "' must be empty; found text '" ++ text.take shownCharacters ++ "'"
  | textAmongElements element text =>
    "element '" ++ element ++ "' cannot contain text; found text '" ++ text.take shownCharacters ++ "'"
  | children element mismatch => mismatch.message element
  | undeclaredElement element => "element '" ++ element ++ "' matches a strict wildcard but is not declared"
  | forbiddenAttribute name element => "attribute '" ++ name ++ "' is not allowed on element '" ++ element ++ "'"
  | prohibitedAttribute name element => "attribute '" ++ name ++ "' is prohibited on element '" ++ element ++ "'"
  | undeclaredAttribute name element =>
    "attribute '" ++ name ++ "' on element '" ++ element ++ "' matches a strict wildcard but is not declared"
  | missingAttribute name element =>
    "required attribute '" ++ name ++ "' is missing on element '" ++ element ++ "'"
  | attributeValue name problem => "attribute '" ++ name ++ "': " ++ problem.message
  | fixedAttribute name fixed => "attribute '" ++ name ++ "' must have the fixed value '" ++ fixed ++ "'"

end Violation

/-- A violation, with the line and the path of the element that it is about. -/
structure Finding where
  violation : Violation
  line : Nat
  path : Text

def Finding.diagnostic (f : Finding) : Diagnostic := ⟨f.violation.message, some (f.line : Int), some f.path⟩

end XmlSchema
