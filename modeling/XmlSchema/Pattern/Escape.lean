import XmlSchema.NameCharacter
import XmlSchema.Pattern.Expression
import XmlSchema.Text.Category

/-!
Escapes of patterns: single characters, the sets of white space, name characters, digits and word characters, and
the properties of categories and blocks.
-/

namespace XmlSchema.Pattern

/-- What an escape or a member of a class stands for. -/
inductive Item where
  | point (c : CodePoint)
  | set (s : CodePointSet)

/-- The blocks that a property may name. -/
def blocks : List (String × CodePointRange) :=
  [("BasicLatin", ⟨0x0000, 0x007F⟩), ("Latin-1Supplement", ⟨0x0080, 0x00FF⟩), ("LatinExtended-A", ⟨0x0100, 0x017F⟩),
    ("LatinExtended-B", ⟨0x0180, 0x024F⟩), ("IPAExtensions", ⟨0x0250, 0x02AF⟩),
    ("CombiningDiacriticalMarks", ⟨0x0300, 0x036F⟩), ("Greek", ⟨0x0370, 0x03FF⟩), ("Cyrillic", ⟨0x0400, 0x04FF⟩),
    ("Armenian", ⟨0x0530, 0x058F⟩), ("Hebrew", ⟨0x0590, 0x05FF⟩), ("Arabic", ⟨0x0600, 0x06FF⟩),
    ("Devanagari", ⟨0x0900, 0x097F⟩), ("Thai", ⟨0x0E00, 0x0E7F⟩), ("LatinExtendedAdditional", ⟨0x1E00, 0x1EFF⟩),
    ("GreekExtended", ⟨0x1F00, 0x1FFF⟩), ("GeneralPunctuation", ⟨0x2000, 0x206F⟩),
    ("CurrencySymbols", ⟨0x20A0, 0x20CF⟩),
    ("LetterlikeSymbols", ⟨0x2100, 0x214F⟩), ("NumberForms", ⟨0x2150, 0x218F⟩), ("Arrows", ⟨0x2190, 0x21FF⟩),
    ("MathematicalOperators", ⟨0x2200, 0x22FF⟩), ("BoxDrawing", ⟨0x2500, 0x257F⟩),
    ("CJKSymbolsandPunctuation", ⟨0x3000, 0x303F⟩), ("Hiragana", ⟨0x3040, 0x309F⟩), ("Katakana", ⟨0x30A0, 0x30FF⟩),
    ("CJKUnifiedIdeographs", ⟨0x4E00, 0x9FFF⟩), ("HangulSyllables", ⟨0xAC00, 0xD7A3⟩), ("PrivateUse", ⟨0xE000, 0xF8FF⟩),
    ("HalfwidthandFullwidthForms", ⟨0xFF00, 0xFFEF⟩), ("Specials", ⟨0xFFF0, 0xFFFF⟩)]

def categorySet (p : Category → Bool) : CodePointSet :=
  (Category.rangesWhere p).map fun (first, last) => ⟨first, last⟩

def majorSet (letters : String) : CodePointSet := categorySet fun c => letters.toList.contains (c.name.toList.headD ' ')

/-- The set that a property names: a block after `Is`, else a category or one of the seven groups of categories. -/
def propertySet? (name : Text) : Except Failure CodePointSet :=
  match Text.dropPrefix? "Is" name with
  | some block =>
    match blocks.find? fun (n, _) => Text.ofString n = block with
    | some (_, range) => .ok [range]
    | none => .error (.flaw (.unknownBlock block))
  | none =>
    match Category.all.find? fun c => Text.ofString c.name = name with
    | some c => .ok (categorySet (· = c))
    | none =>
      match ["L", "M", "N", "P", "Z", "S", "C"].find? fun n => Text.ofString n = name with
      | some letter => .ok (majorSet letter).normalize
      | none => .error (.flaw (.unknownCategory name))

def spaceSet : CodePointSet := [⟨0x9, 0xA⟩, ⟨0xD, 0xD⟩, ⟨0x20, 0x20⟩]

def digitSet : CodePointSet := categorySet (· = .nd)

/-- All but punctuation, separators and the code points that are no characters of a text. -/
def wordSet : CodePointSet := CodePointSet.complement (majorSet "PZC")

/-- All but the line ends. -/
def anySet : CodePointSet := CodePointSet.complement [⟨0xA, 0xA⟩, ⟨0xD, 0xD⟩]

def escapable : Text := "\\|.?*+()\x7b\x7d-[]^$"

def pointEscape? (c : CodePoint) : Option CodePoint :=
  if c = 'n' then some '\n' else if c = 'r' then some '\r' else if c = 't' then some '\t'
  else if escapable.contains c then some c else none

def setEscape? (c : CodePoint) : Option CodePointSet :=
  if c = 's' then some spaceSet else if c = 'S' then some spaceSet.complement
  else if c = 'i' then some NameCharacter.start else if c = 'I' then some (CodePointSet.complement NameCharacter.start)
  else if c = 'c' then some NameCharacter.follow
  else if c = 'C' then some (CodePointSet.complement NameCharacter.follow)
  else if c = 'd' then some digitSet else if c = 'D' then some digitSet.complement
  else if c = 'w' then some wordSet else if c = 'W' then some wordSet.complement
  else none

def readProperty (t : Text) : Except Failure (CodePointSet × Text) :=
  match Text.dropPrefix? "\x7b" t with
  | none => .error (.flaw .missingBrace)
  | some rest =>
    match Text.splitAt? "\x7d" rest with
    | none => .error (.flaw .unterminatedProperty)
    | some (name, after) => (propertySet? name).map (·, after)

def readEscape : Text → Except Failure (Item × Text)
  | [] => .error (.flaw .unexpectedEnd)
  | c :: rest =>
    match pointEscape? c with
    | some d => .ok (.point d, rest)
    | none =>
      if c = 'p' then (readProperty rest).map fun (s, after) => (.set s, after)
      else if c = 'P' then (readProperty rest).map fun (s, after) => (.set s.complement, after)
      else match setEscape? c with
        | some s => .ok (.set s, rest)
        | none => .error (.flaw (.invalidEscape c))

end XmlSchema.Pattern
