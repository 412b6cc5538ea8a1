import XmlSchema.SimpleType.Basic
import XmlSchema.Value.Lexical

/-!
The built-in simple types: the primitives, the families of texts and of integers that restrict them, and three lists.
-/

namespace XmlSchema.SimpleType.Builtin

def named (t : Text) : Option Name := some ⟨Namespace.schema, t⟩

/-- A pattern facet; a source that is no pattern declares none. -/
def matching (source : Text) : List Pattern :=
  match Pattern.compile source with
  | .ok p => [p]
  | .error _ => []

def literal? (p : Primitive) (t : Text) : Option Literal :=
  match Value.read p t with
  | .ok v => some ⟨t, v⟩
  | .error _ => none

def derived (t : Text) (base : SimpleType) (facets : Facets) : SimpleType := restriction (named t) base facets

def listOf (t : Text) (item : SimpleType) : SimpleType := list (named t) (some item) { minLength := some 1 }

/-! ### Texts -/

def normalizedString : SimpleType := derived "normalizedString" (primitive .string) { whiteSpace := some .replace }

def token : SimpleType := derived "token" normalizedString { whiteSpace := some .collapse }

def language : SimpleType :=
  derived "language" token { patterns := matching "[a-zA-Z]\x7b1,8\x7d(-[a-zA-Z0-9]\x7b1,8\x7d)*" }

def nmtoken : SimpleType := derived "NMTOKEN" token { patterns := matching "\\c+" }

def xmlName : SimpleType := derived "Name" token { patterns := matching "\\i\\c*" }

def ncName : SimpleType := derived "NCName" xmlName { patterns := matching "[\\i-[:]][\\c-[:]]*" }

def id : SimpleType := derived "ID" ncName {}

def idref : SimpleType := derived "IDREF" ncName {}

def entity : SimpleType := derived "ENTITY" ncName {}

/-! ### Integers -/

def integer : SimpleType :=
  derived "integer" (primitive .decimal) { fractionDigits := some 0, patterns := matching "[\\-+]?[0-9]+" }

/-- An integer type with the bounds that it adds to those of its base. -/
def bounded (t : Text) (base : SimpleType) (least greatest : Option Text) : SimpleType :=
  derived t base
    { minInclusive := least.bind (literal? .decimal), maxInclusive := greatest.bind (literal? .decimal) }

def nonPositiveInteger : SimpleType := bounded "nonPositiveInteger" integer none (some "0")

def negativeInteger : SimpleType := bounded "negativeInteger" nonPositiveInteger none (some "-1")

def long : SimpleType := bounded "long" integer (some "-9223372036854775808") (some "9223372036854775807")

def int : SimpleType := bounded "int" long (some "-2147483648") (some "2147483647")

def short : SimpleType := bounded "short" int (some "-32768") (some "32767")

def byte : SimpleType := bounded "byte" short (some "-128") (some "127")

def nonNegativeInteger : SimpleType := bounded "nonNegativeInteger" integer (some "0") none

def unsignedLong : SimpleType := bounded "unsignedLong" nonNegativeInteger none (some "18446744073709551615")

def unsignedInt : SimpleType := bounded "unsignedInt" unsignedLong none (some "4294967295")

def unsignedShort : SimpleType := bounded "unsignedShort" unsignedInt none (some "65535")

def unsignedByte : SimpleType := bounded "unsignedByte" unsignedShort none (some "255")

def positiveInteger : SimpleType := bounded "positiveInteger" nonNegativeInteger (some "1") none

def all : List SimpleType :=
  Primitive.all.map primitive ++
    [normalizedString, token, language, nmtoken, xmlName, ncName, id, idref, entity, listOf "NMTOKENS" nmtoken,
      listOf "IDREFS" idref, listOf "ENTITIES" entity, integer, nonPositiveInteger, negativeInteger, long, int, short,
      byte, nonNegativeInteger, unsignedLong, unsignedInt, unsignedShort, unsignedByte, positiveInteger]

end Builtin

def builtin? (t : Text) : Option SimpleType := Builtin.all.find? fun s => s.name? = Builtin.named t

end XmlSchema.SimpleType
