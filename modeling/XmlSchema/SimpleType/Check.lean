import XmlSchema.SimpleType.Basic
import XmlSchema.Value.Lexical

/-!
Checking of texts against simple types. `SimpleType.check` gives the problems of a text, none when it is a value of
the type; `SimpleType.sameValue?` compares two texts in the value space.
-/

namespace XmlSchema

/-- The bounds that a facet can set. -/
inductive BoundKind where
  | minInclusive
  | maxInclusive
  | minExclusive
  | maxExclusive
deriving DecidableEq

namespace BoundKind

def wording : BoundKind → Text
  | minInclusive => "less than minimum inclusive"
  | maxInclusive => "greater than maximum inclusive"
  | minExclusive => "not greater than minimum exclusive"
  | maxExclusive => "not less than maximum exclusive"

/-- Whether a value that compares so with the bound lies on its right side. -/
def accepts : BoundKind → Ordering → Bool
  | minInclusive, o => o.isGE
  | maxInclusive, o => o.isLE
  | minExclusive, o => o.isGT
  | maxExclusive, o => o.isLT

end BoundKind

/-- What the length facets count. -/
inductive LengthUnit where
  | length
  | items

def LengthUnit.name : LengthUnit → Text
  | length => "length"
  | items => "number of items"

/-- What is wrong with a text as a value of a simple type. -/
inductive Problem where
  | invalid (lexical description : Text)
  | pattern (lexical : Text) (sources : List Text)
  | enumeration (lexical : Text) (allowed : List Text)
  | length (lexical : Text) (count : Nat) (unit : LengthUnit) (required : Int)
  | tooShort (lexical : Text) (unit : LengthUnit) (minimum : Int)
  | tooLong (lexical : Text) (unit : LengthUnit) (maximum : Int)
  | bound (lexical : Text) (kind : BoundKind) (limit : Text)
  | totalDigits (lexical : Text) (total : Nat) (maximum : Int)
  | fractionDigits (lexical : Text) (fraction : Nat) (maximum : Int)
  | noMember (lexical : Text) (descriptions : List Text)
  /-- The number has more digits than arithmetic allows. It cannot be told whether it is a value of the type. -/
  | overflow (lexical : Text)

namespace Problem

def isOverflow : Problem → Bool
  | overflow _ => true
  | _ => false

/-- The most allowed values that a message lists. -/
def shownValues : Nat := 10

def valueList (allowed : List Text) : Text :=
  let shown := Text.join ", " ((allowed.take shownValues).map Text.quoted)
  if shownValues < allowed.length then shown ++ ", ... (" ++ Text.ofNat allowed.length ++ " values)" else shown

def message : Problem → Text
  | invalid lexical description => "value '" ++ lexical ++ "' is not a valid " ++ description
  | pattern lexical sources =>
    "value '" ++ lexical ++ "' does not match required pattern '" ++ Text.join " | " sources ++ "'"
  | enumeration lexical allowed => "value '" ++ lexical ++ "' is not one of the allowed values: " ++ valueList allowed
  | length lexical count unit required =>
    "value '" ++ lexical ++ "' has length " ++ Text.ofNat count ++ "; the required " ++ unit.name ++ " is " ++
      Text.ofInt required
  | tooShort lexical unit minimum =>
    "value '" ++ lexical ++ "' is shorter than the minimum " ++ unit.name ++ " " ++ Text.ofInt minimum
  | tooLong lexical unit maximum =>
    "value '" ++ lexical ++ "' is longer than the maximum " ++ unit.name ++ " " ++ Text.ofInt maximum
  | bound lexical kind limit => "value '" ++ lexical ++ "' is " ++ kind.wording ++ " '" ++ limit ++ "'"
  | totalDigits lexical total maximum =>
    "value '" ++ lexical ++ "' has " ++ Text.ofNat total ++ " total digits; at most " ++ Text.ofInt maximum ++
      " are allowed"
  | fractionDigits lexical fraction maximum =>
    "value '" ++ lexical ++ "' has " ++ Text.ofNat fraction ++ " fraction digits; at most " ++ Text.ofInt maximum ++
      " are allowed"
  | noMember lexical descriptions =>
    "value '" ++ lexical ++ "' does not match any member type of the union (" ++ Text.join ", " descriptions ++ ")"
  | overflow lexical => "value '" ++ lexical ++ "' has more digits than can be counted"

end Problem

namespace Facets

def checkPatterns (f : Facets) (lexical : Text) : List Problem :=
  if f.patterns.isEmpty || f.patterns.any (·.isMatch lexical) then []
  else [.pattern lexical (f.patterns.map (·.source))]

def checkEnumeration (f : Facets) (lexical : Text) (value : Value) : List Problem :=
  match f.enumeration with
  | none => []
  | some allowed =>
    if allowed.any fun l => value.equal l.value then [] else [.enumeration lexical (allowed.map (·.lexical))]

def checkLength (f : Facets) (lexical : Text) (length : Nat) (unit : LengthUnit) : List Problem :=
  (match f.length with
    | some n => if length = n then [] else [.length lexical length unit n]
    | none => []) ++
  (match f.minLength with
    | some n => if length < n then [.tooShort lexical unit n] else []
    | none => []) ++
  (match f.maxLength with
    | some n => if n < length then [.tooLong lexical unit n] else []
    | none => [])

def checkBound (kind : BoundKind) (bound : Option Literal) (lexical : Text) (value : Value) : List Problem :=
  match bound with
  | none => []
  | some b =>
    let fits := !value.isNaN && (match value.compare b.value with
      | .ordered o => kind.accepts o
      | _ => false)
    if fits then [] else [.bound lexical kind b.lexical]

def checkDigits (f : Facets) (lexical : Text) (value : Value) : List Problem :=
  match value with
  | .decimal d =>
    if f.totalDigits.isNone && f.fractionDigits.isNone then []
    else match d.digits? with
      | none => [.overflow lexical]
      | some (total, fraction) =>
        (match f.totalDigits with
          | some n => if n < total then [.totalDigits lexical total n] else []
          | none => []) ++
        (match f.fractionDigits with
          | some n => if n < fraction then [.fractionDigits lexical fraction n] else []
          | none => [])
  | _ => []

/-- The problems of a value with the facets of one step. -/
def check (f : Facets) (lexical : Text) (value : Value) (length : Option Nat) (unit : LengthUnit) : List Problem :=
  f.checkPatterns lexical ++ f.checkEnumeration lexical value ++
    (match length with
      | some n => f.checkLength lexical n unit
      | none => []) ++
    checkBound .minInclusive f.minInclusive lexical value ++ checkBound .maxInclusive f.maxInclusive lexical value ++
    checkBound .minExclusive f.minExclusive lexical value ++ checkBound .maxExclusive f.maxExclusive lexical value ++
    f.checkDigits lexical value

end Facets

namespace SimpleType

def listItems (lexical : Text) : List Text := if lexical.isEmpty then [] else Text.splitOn ' ' lexical

/-- The problems of a text with all steps, when it is a list of `items` or a text of a union. -/
def checkSteps (steps : List Facets) (lexical : Text) (length : Option Nat) (unit : LengthUnit) : List Problem :=
  steps.flatMap fun f => f.check lexical (.text lexical) length unit

mutual

/-- Checks against a type of which only the base `t` is left to look at: `top` is the type itself, and `steps` are
the facets of the steps from `t` to `top`, the most basic first. -/
def checkFrom : (t : SimpleType) → (top : SimpleType) → (steps : List Facets) → Text → List Problem
  | primitive p, top, steps, text =>
    let lexical := top.whiteSpace.apply text
    match Value.read p lexical with
    | .error .overflow => [.overflow lexical]
    | .error _ => [.invalid lexical top.description]
    | .ok value =>
      let length := Value.length? p lexical value
      (facets (primitive p) :: steps).flatMap fun f => f.check lexical value length .length
  | restriction _ base facets, top, steps, text => checkFrom base top (facets :: steps) text
  | list _ none facets, _, steps, text =>
    let lexical := WhiteSpace.collapse.apply text
    checkSteps (facets :: steps) lexical (some (listItems lexical).length) .items
  | list _ (some item) facets, _, steps, text =>
    let lexical := WhiteSpace.collapse.apply text
    let items := listItems lexical
    items.flatMap (fun i => checkFrom item item [] i) ++ checkSteps (facets :: steps) lexical (some items.length) .items
  | union _ members facets, _, steps, text =>
    let lexical := WhiteSpace.collapse.apply text
    match members, rejections? members text with
    | _ :: _, some [] => [.noMember lexical (members.map description)]
    | _ :: _, some overflows => overflows
    | _, _ => checkSteps (facets :: steps) lexical none .length

/-- If no member accepts a text: its overflows, of which the first ends the search. -/
def rejections? : List SimpleType → Text → Option (List Problem)
  | [], _ => some []
  | m :: ms, text =>
    match checkFrom m m [] text with
    | [] => none
    | problem :: problems =>
      match (problem :: problems).filter Problem.isOverflow with
      | [] => rejections? ms text
      | overflows => some overflows

end

def check (t : SimpleType) (text : Text) : List Problem := checkFrom t t [] text

/-- Whether two texts denote the same value; texts that denote none are compared as they are. It cannot be told where a
number has more digits than arithmetic allows, unless the left text denotes no value. -/
def sameValue? (t : SimpleType) (left right : Text) : Option Bool :=
  let l := t.whiteSpace.apply left
  let r := t.whiteSpace.apply right
  if t.variety = .atomic then
    match Value.read t.primitiveOf l with
    | .error .overflow => none
    | .error _ => some (l = r)
    | .ok x =>
      match Value.read t.primitiveOf r with
      | .error .overflow => none
      | .error _ => some (l = r)
      | .ok y => some (x.equal y)
  else some (l = r)

end SimpleType

end XmlSchema
