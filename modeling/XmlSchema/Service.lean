import XmlSchema.Configuration.Basic
import XmlSchema.Failure
import XmlSchema.FileTree.Edit

/-!
The service: the catalog, and validation within a budget of time. A validation is stopped at the first checkpoint at
which its budget is spent or its caller has cancelled it; otherwise it is as without a budget.
-/

namespace XmlSchema

/-- A time in seconds that a clock shows. -/
inductive Instant where
  | whole (seconds : Int)
  | double (seconds : Double)

namespace Instant

def toDouble : Instant → Double
  | whole n => Double.ofDecimal (n < 0) n.natAbs 0
  | double x => x

def isAfter (i : Instant) (deadline : Double) : Bool :=
  match i with
  | whole n => deadline.lessInt n
  | double x => deadline.less x

end Instant

/-- What a clock shows each time it is read; it goes on showing the last. -/
abbrev Clock := List Instant

/-- A clock that hardly moves after the start. -/
def Clock.resting : Clock := [.whole 0, .whole 0, .double (.finite false 1 Double.minExponent)]

structure Service where
  catalog : Catalog
  timeout : Double
  engine : Validation.Engine

/-- A caller of a validation: the clock that it is timed with, and how many checkpoints are passed before it cancels, if
it does. -/
structure Caller where
  clock : Clock := .resting
  cancelsAfter : Option Nat := none

namespace Service

/-- The service with a configuration, in a directory of a file tree. -/
def ofConfiguration (tree : FileTree) (workplace : FileTree.Steps) (c : Configuration) : Service where
  catalog := {
    tree := tree
    root := if FileTree.isAbsolute c.catalogRoot then FileTree.movingSteps c.catalogRoot
      else workplace ++ FileTree.movingSteps c.catalogRoot
    maxDepth := c.catalogDepth }
  timeout := c.timeout
  engine := { limits := { maxSize := c.maxDocumentSize }, maxDepth := c.maxElementDepth }

/-- The readings for the checkpoints. The first reading sets the deadline, and the second the start. -/
def checkpointReadings (clock : Clock) : Clock :=
  match clock.drop 2 with
  | [] => [clock.getLastD (.whole 0)]
  | later => later

/-- How many checkpoints are passed before the time is over. -/
def timedAllowance (s : Service) (clock : Clock) : Option Nat :=
  let deadline := (clock.headD (.whole 0)).toDouble.add s.timeout
  (checkpointReadings clock).findIdx? (·.isAfter deadline)

/-- How many checkpoints a caller lets pass. -/
def allowance (s : Service) (caller : Caller) : Option Nat :=
  Option.merge min caller.cancelsAfter (s.timedAllowance caller.clock)

/-- Why a caller lets no more checkpoints pass. Whether it has cancelled is looked at before the clock. -/
def interruption (s : Service) (caller : Caller) : Failure :=
  if caller.cancelsAfter = s.allowance caller then .cancelled else .timedOut s.timeout

/-- What a validation answers its caller, which is told `interruption` if the run was stopped. -/
def answer (interruption : Failure) : Except Validation.Refusal (List Finding) → Except Failure (List Finding)
  | .ok findings => .ok findings
  | .error .stopped => .error interruption
  | .error cause => .error (if cause.isUnexpected then .unexpected else .refused cause)

def validate (s : Service) (caller : Caller) (document schema : Text) : Except Failure (List Finding) :=
  answer (s.interruption caller) (s.engine.run (s.allowance caller) document schema).outcome

/-- How much longer than its budget a caller waits for a validation that runs beside it. -/
def grace : Double := Double.ofQuotient false 1 1

/-- A validation that runs beside its caller. It does not begin if there is no time to wait for it, or if nobody can
tell how much. -/
def validateBeside (s : Service) (caller : Caller) (document schema : Text) : Except Failure (List Finding) :=
  let patience := s.timeout.add grace
  if !(Double.zero false).less patience then .error (.timedOut s.timeout)
  else s.validate caller document schema

def hasRoot (s : Service) : Bool := (s.catalog.tree.reach s.catalog.root).toBool

/-- Makes the root of the catalog if it is missing. -/
def start (s : Service) : Service :=
  if s.hasRoot then s
  else match s.catalog.tree.makeDirectory s.catalog.root with
    | .ok tree => { s with catalog := { s.catalog with tree := tree } }
    | .error _ => s

def list (s : Service) : Except Catalog.Breakdown (List Catalog.Node) := s.catalog.list

def read (s : Service) (path : Text) : Except Failure Text := (s.catalog.read path).mapError .unread

end Service

end XmlSchema
