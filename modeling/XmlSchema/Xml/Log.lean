/-!
What a reading has remarked so far. A fault ends a reading at once; a warning or a lesser error, such as a prefix that
is not bound, does not. A text that is read to its end is still refused when the last remark on it is an error, and
what is then told is the line of the first error. Of either kind of remark only so many are made.
-/

namespace XmlSchema.Xml

/-- The remarks made so far: the line of the first error, how many there are of either kind, and whether the last one
is an error. -/
structure Log where
  firstError? : Option Nat := none
  errors : Nat := 0
  warnings : Nat := 0
  endsInError : Bool := false

namespace Log

/-- The most errors, and the most warnings, that are remarked on. -/
def capacity : Nat := 100

def warn (l : Log) : Log :=
  if l.warnings < capacity then { l with warnings := l.warnings + 1, endsInError := false } else l

def error (l : Log) (line : Nat) : Log :=
  if l.errors < capacity then
    { l with firstError? := l.firstError?.or (some line), errors := l.errors + 1, endsInError := true }
  else l

/-- The line that is told when the reading ends at a fault. -/
def lineOfFault (l : Log) (line : Nat) : Nat := l.firstError?.getD line

/-- The line that is told when a text read to its end is refused. -/
def refusal? (l : Log) : Option Nat := if l.endsInError then l.firstError? else none

theorem refusal?_warn (l : Log) (h : l.warnings < capacity) : l.warn.refusal? = none := by
  simp [warn, refusal?, h]

theorem refusal?_error (l : Log) (line : Nat) (h : l.errors < capacity) :
    (l.error line).refusal? = some (l.lineOfFault line) := by
  cases hf : l.firstError? <;> simp [error, refusal?, lineOfFault, h, hf]

end Log

end XmlSchema.Xml
