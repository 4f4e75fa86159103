import SweepRegex.Program

/-!
# Code at a place

What it means that a list of instructions stands in a program from some place on, so that the code
of a part of a pattern can be spoken of wherever it was put.
-/

namespace SweepRegex

namespace Program

/-- The instructions stand in the program from the place `o` on. -/
def Holds (p : Program) (o : Nat) : List Instr → Prop
  | [] => True
  | i :: l => p.code[o]? = some i ∧ p.Holds (o + 1) l

@[simp] theorem holds_cons {p : Program} {o : Nat} {i : Instr} {l : List Instr} :
    p.Holds o (i :: l) ↔ p.code[o]? = some i ∧ p.Holds (o + 1) l := Iff.rfl

@[simp] theorem holds_nil {p : Program} {o : Nat} : p.Holds o [] := trivial

@[simp] theorem holds_append {p : Program} {o : Nat} {l l' : List Instr} :
    p.Holds o (l ++ l') ↔ p.Holds o l ∧ p.Holds (o + l.length) l' := by
  induction l generalizing o with
  | nil => simp
  | cons i l ih =>
    rw [List.cons_append, holds_cons, holds_cons, ih, and_assoc, List.length_cons,
      show o + 1 + l.length = o + (l.length + 1) by omega]

theorem holds_of_drop_eq {p : Program} {o : Nat} {l : List Instr}
    (h : p.code.toList.drop o = l) : p.Holds o l := by
  induction l generalizing o with
  | nil => trivial
  | cons i l ih =>
    have hi : p.code.toList[o]? = some i := by
      rw [← List.head?_drop, h]
      rfl
    refine ⟨by simpa using hi, ih ?_⟩
    rw [← List.tail_drop, h]
    rfl

end Program

end SweepRegex
