import XmlSchema.Text.Blank

/-!
The three treatments of white space in a value, from the laxest to the strictest.
-/

namespace XmlSchema

inductive WhiteSpace where
  | preserve
  | replace
  | collapse
deriving DecidableEq

namespace WhiteSpace

def name : WhiteSpace → Text
  | preserve => "preserve"
  | replace => "replace"
  | collapse => "collapse"

def ofName? (t : Text) : Option WhiteSpace := [preserve, replace, collapse].find? fun w => w.name = t

def strictness : WhiteSpace → Nat
  | preserve => 0
  | replace => 1
  | collapse => 2

def spaced (t : Text) : Text := t.map fun c => if c.isSpace then ' ' else c

/-- Every run of blanks as one blank. -/
def squeezed (t : Text) : Text :=
  t.foldr (fun (c : CodePoint) rest => if c = ' ' && rest.head? = some (' ' : CodePoint) then rest else c :: rest) []

theorem squeezed_cons (c : CodePoint) (t : Text) : squeezed (c :: t) =
    if c = ' ' && (squeezed t).head? = some (' ' : CodePoint) then squeezed t else c :: squeezed t := rfl

def apply : WhiteSpace → Text → Text
  | preserve, t => t
  | replace, t => spaced t
  | collapse, t => Text.strip (· = ' ') (squeezed (spaced t))

end WhiteSpace

end XmlSchema
