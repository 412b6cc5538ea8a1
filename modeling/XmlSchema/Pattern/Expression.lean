import XmlSchema.CodePointSet
import XmlSchema.Occurrence

/-!
Patterns of the schema language as expressions, the ways in which a text can fail to be one, and the writing of
an expression in the dialect of common regular expression engines.
-/

namespace XmlSchema.Pattern

inductive Quantifier where
  | optional
  | star
  | plus
  /-- Bounds in braces, as written and as read. -/
  | counted (body : Text) (range : Occurs)

inductive Expression where
  | point (c : CodePoint)
  | set (s : CodePointSet)
  | choice (branches : List Expression)
  | sequence (pieces : List Expression)
  | repeated (atom : Expression) (quantifier : Quantifier)

/-- What is wrong with a text that is no pattern. -/
inductive Flaw where
  | unexpectedEnd
  | unbalanced (offset : Nat)
  | unterminatedQuantifier
  | invalidQuantifier (body : Text)
  | missingParenthesis
  | danglingQuantifier (c : CodePoint)
  | missingBrace
  | unterminatedProperty
  | unknownBlock (name : Text)
  | unknownCategory (name : Text)
  | invalidEscape (c : CodePoint)
  | unescapedBracket
  | unterminatedClass
  | subtractionNotLast
  | invalidRange

def Flaw.message : Flaw → Text
  | unexpectedEnd => "unexpected end of pattern"
  | unbalanced offset => "unbalanced ')' at offset " ++ Text.ofNat offset
  | unterminatedQuantifier => "unterminated quantifier"
  | invalidQuantifier body => "invalid quantifier '\x7b" ++ body ++ "\x7d'"
  | missingParenthesis => "missing ')'"
  | danglingQuantifier c => "quantifier '" ++ [c] ++ "' does not follow an atom"
  | missingBrace => "expected '\x7b' after \\p"
  | unterminatedProperty => "unterminated \\p\x7b...\x7d"
  | unknownBlock name => "unknown Unicode block '" ++ name ++ "'"
  | unknownCategory name => "unknown Unicode category '" ++ name ++ "'"
  | invalidEscape c => "invalid escape '\\" ++ [c] ++ "'"
  | unescapedBracket => "unescaped '[' in character class"
  | unterminatedClass => "unterminated character class"
  | subtractionNotLast => "subtraction must end the character class"
  | invalidRange => "invalid range in character class"

/-- A text fails as a pattern by a flaw, by a bound with more digits than a numeral may have, by a bound that no
repetition can be asked for, or by groups and classes nested deeper than they are read. -/
inductive Failure where
  | flaw (f : Flaw)
  | numeralTooLong
  | boundTooLarge
  | tooDeep

namespace Quantifier

/-- Only ASCII digits make a bound; braces around other digits are ordinary characters behind one occurrence. -/
def isLiteral : Quantifier → Bool
  | counted body _ => body.any (0x80 ≤ ·.val)
  | _ => false

def range : Quantifier → Occurs
  | optional => ⟨0, some 1⟩
  | star => ⟨0, none⟩
  | plus => ⟨1, none⟩
  | counted _ range => range

def text : Quantifier → Text
  | optional => "?"
  | star => "*"
  | plus => "+"
  | counted body _ => "\x7b" ++ body ++ "\x7d"

/-- The least bound that is too large. -/
def boundLimit : Nat := 4294967295

def tooLarge (q : Quantifier) : Bool :=
  !q.isLiteral && (boundLimit ≤ q.range.min || q.range.max.any (boundLimit ≤ ·))

end Quantifier

/-- The code points that the dialect gives a meaning of their own. -/
def special : Text := "()[]\x7b\x7d?*+-|^$\\.&~# \t\n\r\x0b\x0c"

def escaped (c : CodePoint) : Text := if special.contains c then "\\" ++ [c] else [c]

mutual

def Expression.text : Expression → Text
  | .point c => escaped c
  | .set s => s.text
  | .choice branches => "(?:" ++ alternativesText branches ++ ")"
  | .sequence pieces => piecesText pieces
  | .repeated atom q => atom.text ++ q.text

def alternativesText : List Expression → Text
  | [] => []
  | [e] => e.text
  | e :: d :: es => e.text ++ "|" ++ alternativesText (d :: es)

def piecesText : List Expression → Text
  | [] => []
  | e :: es => e.text ++ piecesText es

end

mutual

def Expression.tooLarge : Expression → Bool
  | .point _ => false
  | .set _ => false
  | .choice branches => anyTooLarge branches
  | .sequence pieces => anyTooLarge pieces
  | .repeated atom q => atom.tooLarge || q.tooLarge

def anyTooLarge : List Expression → Bool
  | [] => false
  | e :: es => e.tooLarge || anyTooLarge es

end

end XmlSchema.Pattern
