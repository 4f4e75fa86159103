/-!
# Byte strings

Patterns, inputs, settings and every text the program prints are strings of bytes; none of them
is assumed to be valid in any character encoding.  This module fixes the type and the operations
on texts that the other modules share: blanks and trimming, splitting at a byte, and cutting at a
zero byte.  `trim_eq_self` says which texts trimming leaves alone, `trim_trim` that trimming once is
enough, and `exists_eq_trim` that it takes away blanks only; `cutAt?_eq_some_iff` characterises the
first cut at a byte.
-/

namespace SweepRegex

/-- A string of bytes. -/
abbrev Bytes := List UInt8

/-- The bytes of a literal whose characters are all ASCII. -/
def ascii (s : String) : Bytes := s.toList.map fun c => c.toNat.toUInt8

namespace Bytes

/-! ## Classes of bytes -/

/-- The space. -/
def space : UInt8 := 32

/-- The line feed. -/
def newline : UInt8 := 10

/-- The quotation mark. -/
def quote : UInt8 := 34

/-- Blanks are the space and the five controls from tab to carriage return. -/
def isBlank (b : UInt8) : Bool := b == space || (9 ≤ b && b ≤ 13)

/-- Printable bytes run from the space to the tilde; nothing above ASCII is printable. -/
def isPrintable (b : UInt8) : Bool := space ≤ b && b ≤ 126

/-! ## Algorithm -/

/-- Without the blanks in front. -/
def trimStart (s : Bytes) : Bytes := s.dropWhile isBlank

/-- Without the blanks at the end. -/
def trimEnd (s : Bytes) : Bytes := (s.reverse.dropWhile isBlank).reverse

/-- Without the blanks at either end. -/
def trim (s : Bytes) : Bytes := trimEnd (trimStart s)

/-- The lines of a text; a final line feed opens one more, empty line. -/
def lines (s : Bytes) : List Bytes := s.splitOn newline

/-- What stands before and after the first occurrence of a byte, if there is one. -/
def cutAt? (sep : UInt8) (s : Bytes) : Option (Bytes × Bytes) :=
  match s.dropWhile (· != sep) with
  | [] => none
  | _ :: after => some (s.takeWhile (· != sep), after)

/-- A text shown in a message ends before its first zero byte. -/
def untilNul (s : Bytes) : Bytes := s.takeWhile (· != 0)

/-! ## Lemmas -/

theorem trimStart_eq_self {s : Bytes} (h : ∀ b, s.head? = some b → isBlank b = false) :
    trimStart s = s := by
  cases s with
  | nil => rfl
  | cons b s => simp [trimStart, h b rfl]

theorem trimEnd_eq_self {s : Bytes} (h : ∀ b, s.getLast? = some b → isBlank b = false) :
    trimEnd s = s := by
  have h' : trimStart s.reverse = s.reverse :=
    trimStart_eq_self (by simpa [List.head?_reverse] using h)
  simpa [trimEnd, trimStart] using congrArg List.reverse h'

/-- A text that neither starts nor ends with a blank is left alone. -/
theorem trim_eq_self {s : Bytes} (hs : ∀ b, s.head? = some b → isBlank b = false)
    (he : ∀ b, s.getLast? = some b → isBlank b = false) : trim s = s := by
  rw [trim, trimStart_eq_self hs, trimEnd_eq_self he]

theorem trim_enclosed {first last : UInt8} (hs : isBlank first = false) (he : isBlank last = false)
    (s : Bytes) : trim (first :: s ++ [last]) = first :: s ++ [last] := by
  apply trim_eq_self
  · rintro b ⟨⟩
    exact hs
  · rw [List.getLast?_concat]
    rintro b ⟨⟩
    exact he

theorem trim_cons_of_blank {b : UInt8} (h : isBlank b = true) (s : Bytes) :
    trim (b :: s) = trim s := by
  rw [trim, trimStart, List.dropWhile_cons_of_pos h]
  rfl

theorem trim_concat_of_blank {b : UInt8} (h : isBlank b = true) (s : Bytes) :
    trim (s ++ [b]) = trim s := by
  induction s with
  | nil => exact trim_cons_of_blank h []
  | cons c s ih =>
    by_cases hc : isBlank c = true
    · rw [List.cons_append, trim_cons_of_blank hc, trim_cons_of_blank hc, ih]
    · have hkeep (t : Bytes) : trimStart (c :: t) = c :: t := List.dropWhile_cons_of_neg hc
      rw [trim, trim, List.cons_append, hkeep, hkeep, trimEnd, trimEnd, ← List.cons_append,
        List.reverse_concat, List.dropWhile_cons_of_pos h]

theorem head?_trimStart {s : Bytes} {b : UInt8} (h : (trimStart s).head? = some b) :
    isBlank b = false := by
  have := List.head?_dropWhile_not isBlank s
  rw [trimStart] at h
  rw [h] at this
  simpa using this

theorem getLast?_trimEnd {s : Bytes} {b : UInt8} (h : (trimEnd s).getLast? = some b) :
    isBlank b = false := by
  rw [trimEnd, List.getLast?_reverse] at h
  exact head?_trimStart h

theorem trimEnd_prefix_of (s : Bytes) : trimEnd s <+: s := by
  rw [trimEnd, ← List.reverse_suffix, List.reverse_reverse]
  exact List.dropWhile_suffix isBlank

theorem head?_trim {s : Bytes} {b : UInt8} (h : (trim s).head? = some b) : isBlank b = false := by
  obtain ⟨t, ht⟩ := trimEnd_prefix_of (trimStart s)
  have : (trimStart s).head? = some b := by
    rw [← ht, List.head?_append]
    rw [trim] at h
    simp [h]
  exact head?_trimStart this

theorem getLast?_trim {s : Bytes} {b : UInt8} (h : (trim s).getLast? = some b) :
    isBlank b = false := getLast?_trimEnd h

theorem trimEnd_trimEnd (s : Bytes) : trimEnd (trimEnd s) = trimEnd s :=
  trimEnd_eq_self fun _ => getLast?_trimEnd

/-- Trimming a second time changes nothing. -/
theorem trim_trim (s : Bytes) : trim (trim s) = trim s :=
  trim_eq_self (fun _ => head?_trim) (fun _ => getLast?_trim)

/-- Blanks at the end are trimmed off up to a byte that is not blank. -/
theorem trimEnd_cons_of_not_blank {b : UInt8} (h : isBlank b = false) (s : Bytes) :
    trimEnd (b :: s) = b :: trimEnd s := by
  rw [trimEnd, List.reverse_cons, List.dropWhile_append]
  split
  · next hnil =>
    rw [List.isEmpty_iff] at hnil
    simp [h, trimEnd, hnil]
  · simp [trimEnd]

theorem trim_cons_of_not_blank {b : UInt8} (h : isBlank b = false) (s : Bytes) :
    trim (b :: s) = b :: trimEnd s := by
  have hstart : trimStart (b :: s) = b :: s := trimStart_eq_self (by simp [h])
  rw [trim, hstart, trimEnd_cons_of_not_blank h]

/-- Blanks in front are trimmed off. -/
theorem trim_blanks_append {w : Bytes} (h : ∀ b ∈ w, isBlank b = true) (s : Bytes) :
    trim (w ++ s) = trim s := by
  rw [trim, trimStart, List.dropWhile_append_of_pos h]
  rfl

/-- Blanks at the end are trimmed off. -/
theorem trim_append_blanks {w : Bytes} (h : ∀ b ∈ w, isBlank b = true) (s : Bytes) :
    trim (s ++ w) = trim s := by
  induction w generalizing s with
  | nil => rw [List.append_nil]
  | cons b w ih =>
    obtain ⟨hb, hw⟩ := List.forall_mem_cons.1 h
    rw [List.append_cons, ih hw, trim_concat_of_blank hb]

theorem trimStart_append {s : Bytes} (h : trimStart s ≠ []) (t : Bytes) :
    trimStart (s ++ t) = trimStart s ++ t := by
  have hne : ¬(s.dropWhile isBlank).isEmpty = true := by simpa [trimStart] using h
  rw [trimStart, List.dropWhile_append, if_neg hne]
  rfl

theorem trimEnd_append {t : Bytes} (h : trimEnd t ≠ []) (s : Bytes) :
    trimEnd (s ++ t) = s ++ trimEnd t := by
  have hne : trimStart t.reverse ≠ [] := fun h0 => h (congrArg List.reverse h0)
  calc trimEnd (s ++ t) = (trimStart (t.reverse ++ s.reverse)).reverse := by
        rw [← List.reverse_append]
        rfl
    _ = s ++ trimEnd t := by
        rw [trimStart_append hne, List.reverse_append, List.reverse_reverse]
        rfl

/-- A text is its trimmed part between blanks. -/
theorem exists_eq_trim (s : Bytes) : ∃ w w' : Bytes, (∀ b ∈ w, isBlank b = true) ∧
    (∀ b ∈ w', isBlank b = true) ∧ s = w ++ trim s ++ w' := by
  have hblank (t : Bytes) : ∀ b ∈ t.takeWhile isBlank, isBlank b = true :=
    List.all_eq_true.1 List.all_takeWhile
  refine ⟨s.takeWhile isBlank, ((trimStart s).reverse.takeWhile isBlank).reverse, hblank s, ?_, ?_⟩
  · intro b hb
    exact hblank _ b (List.mem_reverse.1 hb)
  · rw [List.append_assoc, trim, trimEnd, ← List.reverse_append, List.takeWhile_append_dropWhile,
      List.reverse_reverse, trimStart, List.takeWhile_append_dropWhile]

/-- Trimming makes nothing longer. -/
theorem length_trim_le (s : Bytes) : (trim s).length ≤ s.length := by
  obtain ⟨w, w', -, -, hs⟩ := exists_eq_trim s
  have hlen := congrArg List.length hs
  rw [List.length_append, List.length_append] at hlen
  omega

/-- A text that is trimmed to nothing has blanks only. -/
theorem isBlank_of_trim_eq_nil {s : Bytes} (h : trim s = []) : ∀ b ∈ s, isBlank b = true := by
  obtain ⟨w, w', hw, hw', hs⟩ := exists_eq_trim s
  rw [hs, h, List.append_nil]
  exact List.forall_mem_append.2 ⟨hw, hw'⟩

/-- Trimming keeps all that is not blank. -/
theorem count_trim {b : UInt8} (h : isBlank b = false) (s : Bytes) :
    (trim s).count b = s.count b := by
  obtain ⟨w, w', hw, hw', hs⟩ := exists_eq_trim s
  have hzero {t : Bytes} (ht : ∀ c ∈ t, isBlank c = true) : t.count b = 0 := by
    rw [List.count_eq_zero]
    intro hb
    exact Bool.false_ne_true (h.symm.trans (ht b hb))
  have hcount := congrArg (List.count b) hs
  rw [List.count_append, List.count_append, hzero hw, hzero hw', Nat.zero_add] at hcount
  exact hcount.symm

/-- A cut is at the separator, and the separator does not occur before it. -/
theorem cutAt?_eq_some_iff {sep : UInt8} {s before after : Bytes} :
    cutAt? sep s = some (before, after) ↔ s = before ++ sep :: after ∧ sep ∉ before := by
  induction s generalizing before with
  | nil => simp [cutAt?]
  | cons b s ih =>
    by_cases hb : b = sep
    · subst hb
      cases before with
      | nil => simp [cutAt?]
      | cons c before => simp [cutAt?]; intro h; simp [h]
    · cases before with
      | nil =>
        have : (b != sep) = true := by simpa using hb
        simp only [cutAt?, List.dropWhile_cons, List.takeWhile_cons, this, if_true]
        cases s.dropWhile (· != sep) <;> simp [hb]
      | cons c before =>
        specialize @ih before
        have : (b != sep) = true := by simpa using hb
        simp only [cutAt?, List.dropWhile_cons, List.takeWhile_cons, this, if_true,
          List.cons_append, List.cons.injEq, List.mem_cons, not_or] at ih ⊢
        cases hd : s.dropWhile (· != sep) with
        | nil => simp_all
        | cons d after' =>
          simp only [hd, Option.some.injEq, Prod.mk.injEq, List.cons.injEq] at ih ⊢
          constructor
          · rintro ⟨⟨rfl, h⟩, h'⟩
            exact ⟨⟨rfl, (ih.1 ⟨h, h'⟩).1⟩, Ne.symm hb, (ih.1 ⟨h, h'⟩).2⟩
          · rintro ⟨⟨rfl, h⟩, -, h'⟩
            exact ⟨⟨rfl, (ih.2 ⟨h, h'⟩).1⟩, (ih.2 ⟨h, h'⟩).2⟩

end Bytes

end SweepRegex
