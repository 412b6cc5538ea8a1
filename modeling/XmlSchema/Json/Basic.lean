import XmlSchema.Text

/-!
JSON values. Numbers are kept as they are written, and an object keeps every member in order.
-/

namespace XmlSchema

inductive Json where
  | null
  | bool (value : Bool)
  | number (digits : Text)
  | string (value : Text)
  | array (items : List Json)
  | object (members : List (Text × Json))

namespace Json

def ofNat (n : Nat) : Json := number (Text.ofNat n)

/-- A member that is left out when there is no value. -/
def optional {α : Type} (name : Text) (f : α → Json) (value : Option α) : List (Text × Json) :=
  (value.map fun a => (name, f a)).toList

/-- The last member of a name counts. -/
def member? (name : Text) : Json → Option Json
  | object members => members.reverse.lookup name
  | _ => none

end Json

end XmlSchema
