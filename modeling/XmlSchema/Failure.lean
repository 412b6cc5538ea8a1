import XmlSchema.Catalog.Reading
import XmlSchema.Validation.Run
import XmlSchema.Value.General

/-!
Failures of calls, as callers are told of them: each has a code, and most have a message and some a line.
-/

namespace XmlSchema

inductive FailureCode where
  | invalidInput
  | malformedDocument
  | malformedSchema
  | notFound
  | pathTraversal
  | internalFailure
deriving DecidableEq

def FailureCode.text : FailureCode → Text
  | invalidInput => "INVALID_INPUT"
  | malformedDocument => "MALFORMED_DOCUMENT"
  | malformedSchema => "MALFORMED_SCHEMA"
  | notFound => "NOT_FOUND"
  | pathTraversal => "PATH_TRAVERSAL"
  | internalFailure => "INTERNAL_FAILURE"

/-- Why a call has no answer. -/
inductive Failure where
  | refused (cause : Validation.Refusal)
  | unread (cause : Catalog.ReadFault)
  | timedOut (budget : Double)
  | cancelled
  | unexpected

namespace Failure

def code : Failure → FailureCode
  | refused (.missingText _) => .invalidInput
  | refused (.document _) => .malformedDocument
  | refused (.schemaText _) => .malformedSchema
  | refused (.schema (.malformed _ _)) => .malformedSchema
  | unread .nulByte => .pathTraversal
  | unread .outside => .pathTraversal
  | unread (.notFound _) => .notFound
  | _ => .internalFailure

/-- What is wrong. A text that is no markup is told by its line alone. -/
def message? : Failure → Option Text
  | refused (.missingText field) => some (field ++ " is required and must not be empty")
  | refused (.document cause) => cause.message?
  | refused (.schemaText cause) => cause.message?
  | refused (.schema (.malformed _ fault)) => some fault.message
  | refused (.schema (.unreadPattern _)) => none
  | refused (.schema .improperName) | refused (.schema .overflow) | refused (.schema .tooDeep) => none
  | refused (.brokenOff _) => none
  | refused .stopped => none
  | unread cause => cause.message?
  | timedOut budget => some ("validation exceeded its time budget of " ++ budget.general ++ "s")
  | cancelled => some "validation was cancelled"
  | unexpected => some "internal error during validation"

def line? : Failure → Option Nat
  | refused (.document cause) => cause.line?
  | refused (.schemaText cause) => cause.line?
  | refused (.schema (.malformed line _)) => some line
  | _ => none

def breakdown? : Failure → Option Catalog.Breakdown
  | unread (.brokenOff cause) => some cause
  | _ => none

end Failure

end XmlSchema
