import SweepRegex.Bytes

/-!
# Faults in a pattern

There are three ways for a pattern to be refused, and the refusal names the byte at which it was
noticed.
-/

namespace SweepRegex

/-- Why a pattern is refused. -/
inductive PatternError where
  /-- An operator with nothing in front of it to apply to. -/
  | nothingToRepeat
  /-- A closing bracket with no group open. -/
  | unmatchedClose
  /-- More groups open at once than are allowed. -/
  | groupOverflow
deriving DecidableEq

/-- The wording of each refusal. -/
def PatternError.message : PatternError → Bytes
  | .nothingToRepeat => ascii "quantifier or alternation has nothing to apply to"
  | .unmatchedClose => ascii "closing group without matching open"
  | .groupOverflow => ascii "groups nested too deeply"

/-- A refusal with the offset of the byte that caused it. -/
structure Fault where
  error : PatternError
  offset : Nat
deriving DecidableEq

end SweepRegex
