import SweepRegex.Bytes

/-!
# Numbers as text

Numbers are written in decimal without sign or padding, in decimal padded with zeros, and in two
hexadecimal digits.  They are read strictly: a text of ASCII digits and nothing else, and only
inside the range of the reader, so no value is ever wrapped or read in part.

    natural? (decimal n) = some n                                  (natural?_decimal)
    word? s = some n ↔ natural? s = some n ∧ n < wordBound         (word?_eq_some_iff)
-/

namespace SweepRegex.Bytes

/-! ## Writing -/

/-- The digit of a number below ten. -/
def digit (n : Nat) : UInt8 := (48 + n).toUInt8

/-- A number in decimal, without leading zeros. -/
def decimal (n : Nat) : Bytes :=
  if n < 10 then [digit n] else decimal (n / 10) ++ [digit (n % 10)]

/-- A number in decimal, with zeros in front up to the given width. -/
def decimalPadded (width n : Nat) : Bytes :=
  List.replicate (width - (decimal n).length) (digit 0) ++ decimal n

/-- The lower case hexadecimal digit of a number below sixteen. -/
def hexDigit (n : Nat) : UInt8 := if n < 10 then digit n else (87 + n).toUInt8

/-- A byte as two hexadecimal digits. -/
def hex (b : UInt8) : Bytes := [hexDigit (b.toNat / 16), hexDigit (b.toNat % 16)]

/-! ## Reading -/

/-- The ASCII digits. -/
def isDigit (b : UInt8) : Bool := 48 ≤ b && b ≤ 57

/-- The number a sequence of digits denotes. -/
def ofDigits (s : Bytes) : Nat := s.foldl (fun n b => 10 * n + (b.toNat - 48)) 0

/-- The number denoted by a text of digits and nothing else. -/
def natural? (s : Bytes) : Option Nat :=
  if s ≠ [] ∧ s.all isDigit then some (ofDigits s) else none

/-- How many numbers fit in 64 bits. -/
def wordBound : Nat := 18446744073709551616

/-- A number that fits in 64 bits without a sign. -/
def word? (s : Bytes) : Option Nat := (natural? s).filter (· < wordBound)

/-- How many numbers below zero fit in 32 bits with a sign; there is one less above zero. -/
def signedBound : Nat := 2147483648

/-! ## Lemmas -/

theorem toNat_digit {n : Nat} (h : n < 10) : (digit n).toNat = 48 + n := by
  simp [digit]
  omega

theorem isDigit_digit {n : Nat} (h : n < 10) : isDigit (digit n) = true := by
  have := toNat_digit h
  simp only [isDigit, Bool.and_eq_true, decide_eq_true_eq, UInt8.le_iff_toNat_le]
  simp [this]
  omega

theorem decimal_ne_nil (n : Nat) : decimal n ≠ [] := by
  rw [decimal]
  split <;> simp

theorem all_isDigit_decimal (n : Nat) : (decimal n).all isDigit = true := by
  fun_induction decimal n with
  | case1 n h => simp [isDigit_digit h]
  | case2 n h ih => simp [ih, isDigit_digit (Nat.mod_lt n (by decide : 10 > 0))]

theorem ofDigits_append_digit (s : Bytes) {d : Nat} (h : d < 10) :
    ofDigits (s ++ [digit d]) = 10 * ofDigits s + d := by
  simp [ofDigits, toNat_digit h]

/-- Decimal text denotes the number it was written for. -/
theorem ofDigits_decimal (n : Nat) : ofDigits (decimal n) = n := by
  fun_induction decimal n with
  | case1 n h => simp [ofDigits, toNat_digit h]
  | case2 n h ih =>
    rw [ofDigits_append_digit _ (Nat.mod_lt n (by decide)), ih]
    omega

theorem decimal_injective : Function.Injective decimal :=
  Function.LeftInverse.injective ofDigits_decimal

/-- A greater number is not written with fewer digits. -/
theorem length_decimal_mono {m n : Nat} (h : m ≤ n) : (decimal m).length ≤ (decimal n).length := by
  fun_induction decimal n generalizing m with
  | case1 n hn =>
    have hm : m < 10 := by omega
    rw [decimal, if_pos hm]
    exact Nat.le_refl 1
  | case2 n hn ih =>
    rw [decimal]
    split
    · simp
    · have := ih (Nat.div_le_div_right h)
      simp only [List.length_append, List.length_singleton]
      omega

/-- What is written in decimal is read back. -/
theorem natural?_decimal (n : Nat) : natural? (decimal n) = some n := by
  simp [natural?, decimal_ne_nil, all_isDigit_decimal, ofDigits_decimal]

theorem word?_eq_some_iff {s : Bytes} {n : Nat} :
    word? s = some n ↔ natural? s = some n ∧ n < wordBound := by
  simp [word?, Option.filter_eq_some_iff]

end SweepRegex.Bytes
