import SweepRegex.Bytes.Decimal

/-!
# Conversions

A conversion looks for a number at the front of a text and writes it into a cell.  What stands
behind the number is not its concern: it says where it stopped, and whether that is the end of the
text is for the caller to find out, when the cell has been written already.  Where there is no
number, or one that the type does not have, the cell keeps what it held.

    (t.convert cell s).rest <:+ s                                        (rest_convert_suffix)
-/

namespace SweepRegex

/-- A type of numbers: may a minus sign stand in front, and which numbers belong to the type? -/
structure NumberType (α : Type) where
  signed : Bool
  ofInt? : Int → Option α

/-- What a conversion leaves behind. -/
structure Conversion (α : Type) where
  failed : Bool
  /-- The number, or what was there before. -/
  cell : α
  /-- The text from where the conversion stopped. -/
  rest : Bytes

/-- The minus sign. -/
def Bytes.minus : UInt8 := 45

namespace NumberType

/-! ## Algorithm -/

/-- The numbers that fit in 64 bits without a sign. -/
def word : NumberType Nat where
  signed := false
  ofInt? z := if 0 ≤ z ∧ z < Bytes.wordBound then some z.toNat else none

/-- The numbers that fit in 32 bits with a sign. -/
def int : NumberType Int where
  signed := true
  ofInt? z := if -Bytes.signedBound ≤ z ∧ z < Bytes.signedBound then some z else none

section
variable {α : Type} (t : NumberType α)

/-- Is there a minus sign in front, and what stands behind it? -/
def splitSign (s : Bytes) : Bool × Bytes :=
  if t.signed && s.head? == some Bytes.minus then (true, s.tail) else (false, s)

/-- Converts the number at the front of a text. -/
def convert (cell : α) (s : Bytes) : Conversion α :=
  let (negative, body) := t.splitSign s
  let digits := body.takeWhile Bytes.isDigit
  let rest := body.dropWhile Bytes.isDigit
  if digits = [] then ⟨true, cell, s⟩
  else
    match t.ofInt? (if negative then -Bytes.ofDigits digits else Bytes.ofDigits digits) with
    | none => ⟨true, cell, rest⟩
    | some a => ⟨false, a, rest⟩

/-! ## Lemmas -/

theorem splitSign_suffix (s : Bytes) : (t.splitSign s).2 <:+ s := by
  rw [splitSign]
  split
  · exact List.tail_suffix s
  · exact List.suffix_refl s

/-- A conversion stops inside the text or at its end. -/
theorem rest_convert_suffix (cell : α) (s : Bytes) : (t.convert cell s).rest <:+ s := by
  have hrest : (t.splitSign s).2.dropWhile Bytes.isDigit <:+ s :=
    (List.dropWhile_suffix _).trans (t.splitSign_suffix s)
  simp only [convert]
  split
  · exact List.suffix_refl s
  · split
    · exact hrest
    · exact hrest

end

end NumberType

end SweepRegex
