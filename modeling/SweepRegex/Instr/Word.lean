import SweepRegex.Instr

/-!
# Instruction words

The stored form of an instruction: an operation code and three operands, of which each operation
uses some.  Words are compared as stored, so two words of one meaning may differ in an operand
that neither of them uses; `decode?_encode` says that every instruction whose targets fit in a
word has one.
-/

namespace SweepRegex

/-- An operation code with all its operands. -/
structure Word where
  opcode : UInt8
  byte : UInt8
  first : UInt32
  second : UInt32
deriving DecidableEq

namespace Word

/-! ## Algorithm -/

/-- The instruction a word stands for, unless its operation code is not in use. -/
def decode? (w : Word) : Option Instr :=
  match w.opcode with
  | 0 => some (.byte w.byte)
  | 1 => some .any
  | 2 => some .accept
  | 3 => some (.jump w.first.toNat)
  | 4 => some (.split w.first.toNat w.second.toNat)
  | _ => none

/-- The word of an instruction, with zeros for the operands it does not use. -/
def encode : Instr → Word
  | .byte b => ⟨0, b, 0, 0⟩
  | .any => ⟨1, 0, 0, 0⟩
  | .accept => ⟨2, 0, 0, 0⟩
  | .jump x => ⟨3, 0, x.toUInt32, 0⟩
  | .split x y => ⟨4, 0, x.toUInt32, y.toUInt32⟩

/-- The text of a word; a word without a meaning is shown as a question mark. -/
def text (w : Word) : Bytes :=
  match w.decode? with
  | some i => i.text
  | none => ascii "?"

/-- Does the word stand for a branch? -/
def isBranch (w : Word) : Bool := w.decode?.any Instr.isBranch

/-! ## Lemmas -/

theorem decode?_encode (i : Instr) (h : ∀ x ∈ i.targets, x < 4294967296) :
    (encode i).decode? = some i := by
  cases i with
  | byte b => rfl
  | any => rfl
  | accept => rfl
  | jump x =>
    have hx : x < 4294967296 := h x (by simp [Instr.targets])
    simp [encode, decode?, Nat.mod_eq_of_lt hx]
  | split x y =>
    have hx : x < 4294967296 := h x (by simp [Instr.targets])
    have hy : y < 4294967296 := h y (by simp [Instr.targets])
    simp [encode, decode?, Nat.mod_eq_of_lt hx, Nat.mod_eq_of_lt hy]

end Word

end SweepRegex
