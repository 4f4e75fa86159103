import SweepRegex.Bytes

/-!
# Limits and reports of a run

A run may be bounded in the number of threads alive at once and in the number of instructions it
carries out; zero stands for no bound.  A run reports its verdict, or the bound it ran into, and
what it took.
-/

namespace SweepRegex

/-- The bounds of a run. -/
structure Limits where
  maxThreads : Nat := 1048576
  maxSteps : Nat := 0
deriving DecidableEq

namespace Limits

/-- No bounds. -/
def none : Limits := ⟨0, 0⟩

/-- May so many threads be alive? -/
def allowsThreads (l : Limits) (live : Nat) : Bool := l.maxThreads == 0 || live ≤ l.maxThreads

/-- May so many instructions be carried out? -/
def allowsSteps (l : Limits) (steps : Nat) : Bool := l.maxSteps == 0 || steps ≤ l.maxSteps

@[simp] theorem allowsThreads_none (n : Nat) : none.allowsThreads n = true := rfl

@[simp] theorem allowsSteps_none (n : Nat) : none.allowsSteps n = true := rfl

end Limits

/-- The bound a run ran into. -/
inductive LimitError where
  | threads
  | steps
deriving DecidableEq

/-- The wording for each bound. -/
def LimitError.message : LimitError → Bytes
  | .threads => ascii "thread limit exceeded"
  | .steps => ascii "step limit exceeded"

/-- What a run took. -/
structure Stats where
  /-- Instructions carried out. -/
  steps : Nat
  /-- Passes over the threads begun. -/
  sweeps : Nat
  /-- The most threads alive at once. -/
  peak : Nat
deriving DecidableEq

/-- The end of a run: whether the input matches, and what it took to find out. -/
structure Report where
  verdict : Except LimitError Bool
  stats : Stats

end SweepRegex
