import XmlSchema.Particle
import XmlSchema.Pattern.Expression
import XmlSchema.Value.Basic

/-!
What can be wrong with a schema, and how it is told.
-/

namespace XmlSchema

inductive SchemaFault where
  | notASchema (root : Name)
  | foreignElement (child : Name) (parent : Text)
  | unexpectedInside (child parent : Text)
  | notBoolean (key value : Text)
  | invalidName (value : Text)
  | undeclaredPrefix (lead value : Text)
  | unnamedDefinition (kind : Text)
  | unexpectedDefinition (kind : Text)
  | repeatedDefinition (kind name : Text)
  | circularDefinitions (path : List DefinitionKey)
  | circularDefinition (key : DefinitionKey)
  | unknownBuiltin (name : Text)
  | unknownType (name : Text)
  | notSimple (name : Text)
  | simpleTypeBody
  | baselessRestriction
  | itemTypeCount
  | listOfLists
  | memberlessUnion
  | facetWithoutValue (facet : Text)
  | repeatedFacet (facet : Text)
  | unsupportedFacet (facet : Text)
  | invalidPattern (source : Text) (flaw : Text)
  | inapplicableFacet (facet label : Text)
  | decimalFacet (facet : Text)
  | invalidWhiteSpace (value : Text)
  | invalidFacetValue (value : Text) (primitive : Primitive)
  | notACount (facet value : Text)
  | countOutOfRange (facet : Text) (count : Int)
  | derivationBody (parent : Text)
  | baselessDerivation (kind : Text)
  | noSimpleContent (label : Text)
  | simpleContentBase
  | complexContentBase (label : Text)
  | attributeAfterWildcard
  | repeatedAttribute (name : Text)
  | unreferencedAttributeGroup
  | unknownAttributeGroup (name : Text)
  | invalidUse (use : Text)
  | attributeDefaultAndFixed
  | defaultNotOptional
  | unnamedAttribute
  | unknownAttribute (name : Text)
  | attributeTypeTwice
  | invalidStrictness (value : Text)
  | invalidNamespace (token : Text)
  | unexpectedParticle (kind : Text)
  | invalidOccurs (minimum maximum : Text)
  | unknownElement (name : Text)
  | unreferencedGroup
  | unknownGroup (name : Text)
  | allMemberKind
  | allMemberOccurs
  | allOccurs
  | groupBody
  | groupOccurs
  | unnamedElement
  | elementTypeTwice (name : Text)
  | elementDefaultAndFixed (name : Text)
  | invalidConstraint (key problem : Text)
  | unknownHead (name : Text)
  | circularSubstitution (name : Text)

namespace SchemaFault

def message : SchemaFault → Text
  | notASchema root =>
    "root element must be xs:schema in namespace " ++ Text.quoted Namespace.schema ++ ", got " ++
      Text.quoted root.display
  | foreignElement child parent => "unexpected element " ++ Text.quoted child.display ++ " inside xs:" ++ parent
  | unexpectedInside child parent => "unexpected xs:" ++ child ++ " inside xs:" ++ parent
  | notBoolean key value =>
    "attribute " ++ Text.quoted key ++ " must be a boolean, got " ++ Text.quoted value
  | invalidName value => "invalid QName " ++ Text.quoted value
  | undeclaredPrefix lead value =>
    "undeclared namespace prefix " ++ Text.quoted lead ++ " in " ++ Text.quoted value
  | unnamedDefinition kind => "top-level xs:" ++ kind ++ " requires a 'name' attribute"
  | unexpectedDefinition kind => "unexpected top-level element xs:" ++ kind
  | repeatedDefinition kind name => "duplicate " ++ kind ++ " " ++ Text.quoted name
  | circularDefinitions path => "circular definition: " ++ DefinitionKey.describePath path
  | circularDefinition key => "circular definition of " ++ key.label
  | unknownBuiltin name => "unknown built-in type 'xs:" ++ name ++ "'"
  | unknownType name => "unknown type " ++ Text.quoted name
  | notSimple name => "type " ++ Text.quoted name ++ " is a complex type where a simple type is required"
  | simpleTypeBody => "xs:simpleType must contain one of restriction, list or union"
  | baselessRestriction => "xs:restriction needs a 'base' attribute or an inline xs:simpleType"
  | itemTypeCount => "xs:list needs exactly one item type"
  | listOfLists => "the item type of a list cannot itself be a list"
  | memberlessUnion => "xs:union needs at least one member type"
  | facetWithoutValue facet => "facet xs:" ++ facet ++ " requires a 'value' attribute"
  | repeatedFacet facet => "facet xs:" ++ facet ++ " is declared more than once"
  | unsupportedFacet facet => "unsupported facet xs:" ++ facet
  | invalidPattern source flaw => "invalid pattern " ++ Text.quoted source ++ ": " ++ flaw
  | inapplicableFacet facet label => "facet xs:" ++ facet ++ " does not apply to type " ++ Text.quoted label
  | decimalFacet facet => "facet xs:" ++ facet ++ " only applies to decimal types"
  | invalidWhiteSpace value => "invalid whiteSpace value " ++ Text.quoted value
  | invalidFacetValue value primitive =>
    "facet value " ++ Text.quoted value ++ " is not a valid " ++ primitive.name
  | notACount facet value => "facet xs:" ++ facet ++ " needs a non-negative integer, got " ++ Text.quoted value
  | countOutOfRange facet count => "facet xs:" ++ facet ++ " value " ++ Text.ofInt count ++ " is out of range"
  | derivationBody parent => "xs:" ++ parent ++ " must contain one extension or restriction"
  | baselessDerivation kind => "xs:" ++ kind ++ " requires a 'base' attribute"
  | noSimpleContent label => "simpleContent extension base " ++ Text.quoted label ++ " has no simple content"
  | simpleContentBase => "simpleContent restriction base must be a complex type with simple content"
  | complexContentBase label => "complexContent base " ++ Text.quoted label ++ " must be a complex type"
  | attributeAfterWildcard => "xs:anyAttribute must come after all attribute declarations"
  | repeatedAttribute name => "duplicate attribute " ++ Text.quoted name
  | unreferencedAttributeGroup => "nested xs:attributeGroup requires a 'ref' attribute"
  | unknownAttributeGroup name => "unknown attribute group " ++ Text.quoted name
  | invalidUse use => "invalid attribute use " ++ Text.quoted use
  | attributeDefaultAndFixed => "an attribute cannot have both 'default' and 'fixed'"
  | defaultNotOptional => "an attribute with a default value must be optional"
  | unnamedAttribute => "xs:attribute requires a 'name' or 'ref' attribute"
  | unknownAttribute name => "unknown attribute " ++ Text.quoted name
  | attributeTypeTwice => "an attribute cannot have both a 'type' and an inline type"
  | invalidStrictness value => "invalid processContents " ++ Text.quoted value
  | invalidNamespace token => "invalid namespace constraint " ++ Text.quoted token
  | unexpectedParticle kind => "unexpected xs:" ++ kind ++ " in a content model"
  | invalidOccurs minimum maximum =>
    "invalid occurrence bounds minOccurs=" ++ Text.quoted minimum ++ " maxOccurs=" ++ Text.quoted maximum
  | unknownElement name => "unknown element " ++ Text.quoted name
  | unreferencedGroup => "nested xs:group requires a 'ref' attribute"
  | unknownGroup name => "unknown model group " ++ Text.quoted name
  | allMemberKind => "xs:all may only contain element declarations"
  | allMemberOccurs => "elements inside xs:all may occur at most once"
  | allOccurs => "xs:all must have maxOccurs='1' and minOccurs of 0 or 1"
  | groupBody => "xs:group must contain exactly one of sequence, choice or all"
  | groupOccurs => "the compositor of a named group cannot carry occurrence bounds"
  | unnamedElement => "xs:element requires a 'name' or 'ref' attribute"
  | elementTypeTwice name => "element " ++ Text.quoted name ++ " has both a 'type' and an inline type"
  | elementDefaultAndFixed name => "element " ++ Text.quoted name ++ " cannot have both 'default' and 'fixed'"
  | invalidConstraint key problem => key ++ " value is invalid: " ++ problem
  | unknownHead name => "unknown substitution group head " ++ Text.quoted name
  | circularSubstitution name => "circular substitution group involving " ++ Text.quoted name

end SchemaFault

/-- Why no schema can be built: something in the document is wrong, a pattern has bounds that no matcher counts to
or is nested too deep, an element has a name that is improper, a value that is set has more digits than arithmetic
allows, or groups nest too deep. -/
inductive SchemaError where
  | malformed (line : Nat) (fault : SchemaFault)
  | unreadPattern (failure : Pattern.Failure)
  | improperName
  | overflow
  | tooDeep

end XmlSchema
