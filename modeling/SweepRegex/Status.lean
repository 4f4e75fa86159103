import SweepRegex.Machine.Limits
import SweepRegex.Pattern.Fault

/-!
# Status codes

Callers that cannot hold an error value get a number instead: zero for success, then the errors in
order.  Running out of memory has a code and a text, although no run here ends that way.
-/

namespace SweepRegex

namespace Status

/-- The text for success. -/
def success : Bytes := ascii "no error"

/-- The text for a number that is no code. -/
def unknown : Bytes := ascii "unknown error"

/-- The text for running out of memory. -/
def outOfMemory : Bytes := ascii "out of memory growing thread set"

/-- The text for a status code of compilation. -/
def ofCompile : Nat → Bytes
  | 0 => success
  | 1 => PatternError.nothingToRepeat.message
  | 2 => PatternError.unmatchedClose.message
  | 3 => PatternError.groupOverflow.message
  | _ => unknown

/-- The text for a status code of a run. -/
def ofRun : Nat → Bytes
  | 0 => success
  | 1 => LimitError.threads.message
  | 2 => LimitError.steps.message
  | 3 => outOfMemory
  | _ => unknown

end Status

end SweepRegex
