import SweepRegex.Machine.Step

/-!
# Runs and searches

A run matches a program against the front of an input; what follows the match does not matter.
A search runs it at every offset in turn.

    run_eq_step   one unfolding of a run
-/

namespace SweepRegex

/-! ## Algorithm -/

/-- Carries out instructions until the run ends. -/
def Machine.run (p : Program) (limits : Limits) (m : Machine) : Report :=
  match h : m.step p limits with
  | .done report => report
  | .running m' =>
    have : m'.pending p < m.pending p := by
      have := pending_step h
      omega
    m'.run p limits
termination_by m.pending p

namespace Program

/-- Does the program match some front part of the input?  The program without instructions
matches nothing, and nothing has to be done to see that. -/
def run (p : Program) (limits : Limits) (input : Bytes) : Report :=
  if p.isEmpty then ⟨.ok false, ⟨0, 0, 0⟩⟩ else (Machine.start input).run p limits

/-- The first offset, counted from the given one, at which the rest of the input matches.  A limit
that is hit on the way ends the search. -/
def searchFrom (p : Program) (limits : Limits) (offset : Nat) (input : Bytes) :
    Except LimitError (Option Nat) :=
  match (p.run limits input).verdict with
  | .error e => .error e
  | .ok true => .ok (some offset)
  | .ok false =>
    match input with
    | [] => .ok none
    | _ :: rest => p.searchFrom limits (offset + 1) rest

/-- The first offset of the input at which the program matches; the end of the input is one. -/
def search (p : Program) (limits : Limits) (input : Bytes) : Except LimitError (Option Nat) :=
  p.searchFrom limits 0 input

end Program

/-! ## Lemmas -/

theorem Machine.run_eq_step (p : Program) (limits : Limits) (m : Machine) :
    m.run p limits =
      match m.step p limits with
      | .done report => report
      | .running m' => m'.run p limits := by
  rw [run]
  split <;> rename_i h <;> simp [h]

theorem Program.run_empty (limits : Limits) (input : Bytes) :
    Program.empty.run limits input = ⟨.ok false, ⟨0, 0, 0⟩⟩ := rfl

end SweepRegex
