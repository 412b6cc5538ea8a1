import XmlSchema.Pattern.Expression
import XmlSchema.Proofs.Content.Sweeps
import XmlSchema.Proofs.Pattern.CodePointSets
import XmlSchema.Proofs.Pattern.Grammar

/-!
What expressions stand for, and which of them can be taken for which part of a regular expression.
-/

namespace XmlSchema.Pattern

mutual

/-- The words that an expression stands for. -/
def Expression.language : Expression → Language CodePoint
  | .point c => single {c}
  | .set s => single s.elements
  | .choice branches => (languages branches).sum
  | .sequence pieces => (languages pieces).prod
  | .repeated atom q => copies q.range atom.language

def languages : List Expression → List (Language CodePoint)
  | [] => []
  | e :: es => e.language :: languages es

end

theorem languages_eq_map (es : List Expression) : languages es = es.map Expression.language := by
  induction es with
  | nil => rfl
  | cons e es ih => rw [languages, ih, List.map_cons]

mutual

def Expression.quantifiers : Expression → List Quantifier
  | .point _ => []
  | .set _ => []
  | .choice branches => quantifiersOfAll branches
  | .sequence pieces => quantifiersOfAll pieces
  | .repeated atom q => q :: atom.quantifiers

def quantifiersOfAll : List Expression → List Quantifier
  | [] => []
  | e :: es => e.quantifiers ++ quantifiersOfAll es

end

/-- Every quantifier is one: no bound has digits beyond ASCII. -/
def AreAscii (qs : List Quantifier) : Prop := ∀ q ∈ qs, q.isLiteral = false

theorem areAscii_append {qs qs' : List Quantifier} : AreAscii (qs ++ qs') ↔ AreAscii qs ∧ AreAscii qs' :=
  List.forall_mem_append

theorem areAscii_cons {q : Quantifier} {qs : List Quantifier} :
    AreAscii (q :: qs) ↔ q.isLiteral = false ∧ AreAscii qs := List.forall_mem_cons

/-- The expression can be taken for a part of a regular expression: its parts are nested the way that grammar nests
them, its sets are proper, and its quantifiers are written as they count. -/
inductive Expression.Fits : Construct → Expression → Prop
  | point (c : CodePoint) : Fits .atom (.point c)
  | set {s : CodePointSet} (h : s.IsProper) : Fits .atom (.set s)
  | choice {branches : List Expression} (hne : branches ≠ []) (h : ∀ b ∈ branches, Fits .branch b) :
      Fits .atom (.choice branches)
  | sequence {pieces : List Expression} (h : ∀ p ∈ pieces, Fits .piece p) : Fits .branch (.sequence pieces)
  | once {e : Expression} (h : Fits .atom e) : Fits .piece e
  | repeated {e : Expression} {q : Quantifier} (h : Fits .atom e) (hl : q.isLiteral = false)
      (hq : Quantity q.text q.range) : Fits .piece (.repeated e q)

theorem Quantity.isRange {t : Text} {o : Occurs} (h : Quantity t o) : o.IsRange := by
  cases h with
  | optional => decide
  | star | plus => exact fun _ h => nomatch h
  | counted h =>
      cases h with
      | exactly h => exact fun _ h => by cases h; exact Nat.le_refl _
      | atLeast h => exact fun _ h => nomatch h
      | between h h' hle => exact fun _ h => by cases h; exact hle

end XmlSchema.Pattern
