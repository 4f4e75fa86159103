import SweepRegex.Bytes

/-!
# Symbols of a pattern

A pattern is a byte string, and each of its bytes is one symbol: six bytes are operators or group
brackets, the period stands for any byte, and every other byte stands for itself.  A symbol has
a fixed size in instructions, so the size of the compiled program can be read off the pattern.
-/

namespace SweepRegex

/-- What one byte of a pattern means. -/
inductive Symbol where
  | literal (b : UInt8)
  | any
  | groupOpen
  | groupClose
  | plus
  | star
  | bar
deriving DecidableEq

namespace Symbol

/-- The symbol a byte stands for: the round brackets, the asterisk, the plus sign, the period and
the vertical bar, in this order; any other byte stands for itself. -/
def ofByte (b : UInt8) : Symbol :=
  match b with
  | 40 => .groupOpen
  | 41 => .groupClose
  | 42 => .star
  | 43 => .plus
  | 46 => .any
  | 124 => .bar
  | b => .literal b

/-- The byte that stands for a symbol. -/
def byte : Symbol → UInt8
  | .literal b => b
  | .any => 46
  | .groupOpen => 40
  | .groupClose => 41
  | .plus => 43
  | .star => 42
  | .bar => 124

/-- How many instructions a symbol adds to the program. -/
def size : Symbol → Nat
  | .groupOpen | .groupClose => 0
  | .star => 2
  | .literal _ | .any | .plus | .bar => 1

theorem byte_ofByte (b : UInt8) : (ofByte b).byte = b := by
  unfold ofByte
  split <;> rfl

end Symbol

namespace Pattern

/-- How many instructions a pattern compiles to, the final one included. -/
def size (pattern : Bytes) : Nat := pattern.foldr (fun b n => (Symbol.ofByte b).size + n) 1

@[simp] theorem size_nil : size [] = 1 := rfl

@[simp] theorem size_cons (b : UInt8) (rest : Bytes) :
    size (b :: rest) = (Symbol.ofByte b).size + size rest := rfl

end Pattern

end SweepRegex
