import SweepRegex.Instr

/-!
# Expressions

The tree a pattern stands for, with its two readings: the texts it matches, and the code it
compiles to.  The operators are postfix and apply to one expression; there is no choice between
two expressions, because a bar makes the expression in front of it optional and what follows the
bar is matched in either case.

Main statements: `length_code` gives the length of the code, and `code_add` says that code moved to
another place is the code with its branches relocated.
-/

namespace SweepRegex

/-- The tree of a pattern. -/
inductive Expr where
  | empty
  | byte (b : UInt8)
  | any
  | seq (e f : Expr)
  | plus (e : Expr)
  | star (e : Expr)
  | opt (e : Expr)
deriving DecidableEq

namespace Expr

/-! ## Meaning -/

/-- The texts an expression matches, taken whole. -/
inductive Matches : Expr → Bytes → Prop where
  | empty : Matches .empty []
  | byte (b : UInt8) : Matches (.byte b) [b]
  | any (b : UInt8) : Matches .any [b]
  | seq {e f : Expr} {s t : Bytes} : Matches e s → Matches f t → Matches (.seq e f) (s ++ t)
  | plusLast {e : Expr} {s : Bytes} : Matches e s → Matches (.plus e) s
  | plusMore {e : Expr} {s t : Bytes} :
      Matches e s → Matches (.plus e) t → Matches (.plus e) (s ++ t)
  | starDone {e : Expr} : Matches (.star e) []
  | starMore {e : Expr} {s t : Bytes} :
      Matches e s → Matches (.star e) t → Matches (.star e) (s ++ t)
  | optSkip {e : Expr} : Matches (.opt e) []
  | optTake {e : Expr} {s : Bytes} : Matches e s → Matches (.opt e) s

/-! ## Code -/

/-- How many instructions an expression compiles to. -/
def size : Expr → Nat
  | .empty => 0
  | .byte _ | .any => 1
  | .seq e f => e.size + f.size
  | .plus e | .opt e => e.size + 1
  | .star e => e.size + 2

/-- The code of an expression that starts at place `o`.  Control leaves it at its end. -/
def code (o : Nat) : Expr → List Instr
  | .empty => []
  | .byte b => [.byte b]
  | .any => [.any]
  | .seq e f => e.code o ++ f.code (o + e.size)
  | .plus e => e.code o ++ [.split o (o + e.size + 1)]
  | .star e => .split (o + 1) (o + e.size + 2) :: e.code (o + 1) ++ [.jump o]
  | .opt e => .split (o + 1) (o + e.size + 1) :: e.code (o + 1)

/-! ## Lemmas -/

@[simp] theorem length_code (o : Nat) (e : Expr) : (e.code o).length = e.size := by
  induction e generalizing o with
  | empty => rfl
  | byte b => rfl
  | any => rfl
  | seq e f ihe ihf => simp [code, size, ihe, ihf]
  | plus e ih => simp [code, size, ih]
  | star e ih => simp [code, size, ih]
  | opt e ih => simp [code, size, ih]

/-- Code moved up by `d` places is the same code with its branches relocated by `d`. -/
theorem code_add (o d : Nat) (e : Expr) : e.code (o + d) = (e.code o).map (Instr.relocate d) := by
  induction e generalizing o with
  | empty => rfl
  | byte b => rfl
  | any => rfl
  | seq e f ihe ihf =>
    simp only [code, List.map_append, ihe, ← ihf]
    congr 2
    omega
  | plus e ih => simp [code, ih, Instr.relocate]; omega
  | star e ih =>
    have h : o + d + 1 = o + 1 + d := by omega
    simp [code, h, ih, Instr.relocate]; omega
  | opt e ih =>
    have h : o + d + 1 = o + 1 + d := by omega
    simp [code, h, ih, Instr.relocate]; omega

end Expr

end SweepRegex
