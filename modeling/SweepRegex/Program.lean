import SweepRegex.Instr

/-!
# Programs

A program is a sequence of instructions; a place in it is an index.  Its listing has one line for
each instruction, with the index in front.
-/

namespace SweepRegex

/-- The code of a compiled pattern. -/
structure Program where
  code : Array Instr
deriving DecidableEq

namespace Program

/-- The program without instructions. -/
def empty : Program := ⟨#[]⟩

/-- How many instructions the program has. -/
def size (p : Program) : Nat := p.code.size

/-- Has the program no instructions? -/
def isEmpty (p : Program) : Bool := p.code.isEmpty

/-- One line of a listing: the index in at least three digits, the instruction, a line feed. -/
def listingLine (i : Instr) (pc : Nat) : Bytes :=
  Bytes.decimalPadded 3 pc ++ ascii "  " ++ i.text ++ [Bytes.newline]

/-- The program as text, one instruction a line. -/
def listing (p : Program) : Bytes :=
  (p.code.toList.zipIdx.map fun (i, pc) => listingLine i pc).flatten

end Program

end SweepRegex
