import SweepRegex.Machine.Run
import SweepRegex.Pattern.Compile

/-!
# Regular expressions

A pattern with its program and the limits its runs are held to.  A pattern that was refused makes
a regular expression too: it has the empty program, and asking it for a match gives no answer.
-/

namespace SweepRegex

/-- A compiled pattern with limits. -/
structure Regex where
  pattern : Bytes
  limits : Limits
  compiled : Except Fault Program
  compiled_eq : compiled = Pattern.compile pattern := by rfl

namespace Regex

/-- Compiles a pattern. -/
def ofPattern (pattern : Bytes) (limits : Limits := {}) : Regex :=
  { pattern, limits, compiled := Pattern.compile pattern }

/-- The same pattern under other limits. -/
def withLimits (r : Regex) (limits : Limits) : Regex := { r with limits }

/-- Was the pattern accepted? -/
def isValid (r : Regex) : Bool :=
  match r.compiled with
  | .ok _ => true
  | .error _ => false

/-- What is wrong with the pattern. -/
def fault? (r : Regex) : Option Fault :=
  match r.compiled with
  | .ok _ => none
  | .error fault => some fault

/-- The program; a refused pattern has the empty one. -/
def program (r : Regex) : Program :=
  match r.compiled with
  | .ok p => p
  | .error _ => .empty

/-- Does the pattern match some front part of the input?  `none` if the pattern was refused. -/
def matchesFront? (r : Regex) (input : Bytes) : Except LimitError (Option Bool) :=
  if r.isValid then (r.program.run r.limits input).verdict.map some else .ok none

/-- The first offset at which the pattern matches.  `none` if there is none, and if the pattern
was refused. -/
def search (r : Regex) (input : Bytes) : Except LimitError (Option Nat) :=
  if r.isValid then r.program.search r.limits input else .ok none

end Regex

end SweepRegex
