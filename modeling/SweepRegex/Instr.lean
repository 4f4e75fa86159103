import SweepRegex.Bytes.Decimal

/-!
# Instructions

The code of a compiled pattern is a sequence of five kinds of instruction.  Two of them consume a
byte of the input, two branch to other places of the code by their index, and one accepts.  A
branch is relocated by moving all its targets by the same distance; nothing else has a target.
-/

namespace SweepRegex

/-- One instruction of a compiled pattern. -/
inductive Instr where
  /-- Consume this byte. -/
  | byte (b : UInt8)
  /-- Consume any byte. -/
  | any
  /-- The input read so far matches. -/
  | accept
  /-- Go on at the target. -/
  | jump (target : Nat)
  /-- Go on at both targets. -/
  | split (first second : Nat)
deriving DecidableEq

namespace Instr

/-! ## Algorithm -/

/-- The places an instruction may send a thread to without consuming a byte. -/
def targets : Instr → List Nat
  | .jump x => [x]
  | .split x y => [x, y]
  | _ => []

/-- Does the instruction branch? -/
def isBranch : Instr → Bool
  | .jump _ | .split _ _ => true
  | _ => false

/-- The instruction with every target moved up by `d`. -/
def relocate (d : Nat) : Instr → Instr
  | .jump x => .jump (x + d)
  | .split x y => .split (x + d) (y + d)
  | i => i

/-- The instruction as it stands in a listing. -/
def text : Instr → Bytes
  | .byte b =>
      if Bytes.isPrintable b then ascii "char '" ++ [b] ++ ascii "'"
      else ascii "char 0x" ++ Bytes.hex b
  | .any => ascii "any"
  | .accept => ascii "match"
  | .jump x => ascii "jmp " ++ Bytes.decimal x
  | .split x y => ascii "split " ++ Bytes.decimal x ++ ascii ", " ++ Bytes.decimal y

/-! ## Lemmas -/

theorem isBranch_iff_targets_ne_nil (i : Instr) : i.isBranch = true ↔ i.targets ≠ [] := by
  cases i <;> simp [isBranch, targets]

@[simp] theorem targets_relocate (d : Nat) (i : Instr) :
    (i.relocate d).targets = i.targets.map (· + d) := by
  cases i <;> rfl

@[simp] theorem relocate_zero (i : Instr) : i.relocate 0 = i := by
  cases i <;> rfl

theorem relocate_relocate (c d : Nat) (i : Instr) :
    (i.relocate c).relocate d = i.relocate (c + d) := by
  cases i <;> simp [relocate, Nat.add_assoc]

end Instr

end SweepRegex
