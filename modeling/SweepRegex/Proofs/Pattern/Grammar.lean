import SweepRegex.Expr.OfPattern

/-!
# The grammar of patterns

What a pattern means, without a reader.  A level of a pattern is a sequence of items.  An item is a
literal, the period or a group, and a postfix operator extends the last item of its own level
(`Reads`).  Groups that are still open at the end of a pattern are closed there (`Denotes`), and
the language of a pattern is that of the expression it denotes (`Matches`).

    Denotes pattern e → e = Expr.ofPattern pattern       (Denotes.eq_ofPattern)

So a pattern denotes at most one expression, and the reader of expressions finds it.
-/

namespace SweepRegex.Pattern

/-! ## Grammar -/

/-- A text whose groups are all closed, read as one level. -/
inductive Reads : List Symbol → Nesting → Prop where
  | blank : Reads [] .blank
  | literal {s : List Symbol} {n : Nesting} (b : UInt8) :
      Reads s n → Reads (s ++ [.literal b]) (n.item (.byte b))
  | any {s : List Symbol} {n : Nesting} : Reads s n → Reads (s ++ [.any]) (n.item .any)
  | group {s t : List Symbol} {n m : Nesting} :
      Reads s n → Reads t m → Reads (s ++ .groupOpen :: t ++ [.groupClose]) (n.item m.expr)
  | plus {s : List Symbol} {n : Nesting} {e : Expr} :
      Reads s (n.item e) → Reads (s ++ [.plus]) (n.item (.plus e))
  | star {s : List Symbol} {n : Nesting} {e : Expr} :
      Reads s (n.item e) → Reads (s ++ [.star]) (n.item (.star e))
  | bar {s : List Symbol} {n : Nesting} {e : Expr} :
      Reads s (n.item e) → Reads (s ++ [.bar]) (n.item (.opt e))

/-- A text with groups still open: the level in which it ends, and around it one level for each
open group, whose last item that group is going to be. -/
inductive Opens : List Symbol → Nesting → List Nesting → Prop where
  | level {s : List Symbol} {n : Nesting} : Reads s n → Opens s n []
  | group {s t : List Symbol} {n m : Nesting} {outer : List Nesting} :
      Opens s n outer → Reads t m → Opens (s ++ .groupOpen :: t) m (n.item .empty :: outer)

/-- The expression of a pattern, whose open groups are closed at its end. -/
def Denotes (pattern : Bytes) (e : Expr) : Prop :=
  ∃ d n, Reads (pattern.map Symbol.ofByte ++ List.replicate d .groupClose) n ∧ n.expr = e

/-- The language of a pattern. -/
def Matches (pattern s : Bytes) : Prop := ∃ e, Denotes pattern e ∧ e.Matches s

/-! ## Texts with open groups -/

@[simp] theorem item_ne_blank (n : Nesting) (e : Expr) : n.item e ≠ .blank := by
  simp [Nesting.item, Nesting.blank, Nesting.expr]

/-- A level that has a last item shows it. -/
theorem Reads.eq_item {s : List Symbol} {n : Nesting} (h : Reads s n) (hn : n ≠ .blank) :
    ∃ (m : Nesting) (e : Expr), n = m.item e := by
  cases h with
  | blank => exact absurd rfl hn
  | literal b _ => exact ⟨_, _, rfl⟩
  | any _ => exact ⟨_, _, rfl⟩
  | group _ _ => exact ⟨_, _, rfl⟩
  | plus _ => exact ⟨_, _, rfl⟩
  | star _ => exact ⟨_, _, rfl⟩
  | bar _ => exact ⟨_, _, rfl⟩

/-- What can be read behind every closed text of a level can be read inside open groups. -/
theorem Opens.extend {s u : List Symbol} {n n' : Nesting} {outer : List Nesting}
    (h : Opens s n outer) (hu : ∀ r, Reads r n → Reads (r ++ u) n') : Opens (s ++ u) n' outer := by
  cases h with
  | level hr => exact .level (hu _ hr)
  | group ho hr =>
    rw [List.append_assoc, List.cons_append]
    exact .group ho (hu _ hr)

theorem Opens.eq_item {s : List Symbol} {n : Nesting} {outer : List Nesting}
    (h : Opens s n outer) (hn : n ≠ .blank) : ∃ (m : Nesting) (e : Expr), n = m.item e := by
  cases h with
  | level hr => exact hr.eq_item hn
  | group _ hr => exact hr.eq_item hn

/-- A closing bracket makes the innermost group the last item of the level around it. -/
theorem Opens.close {s : List Symbol} {n around : Nesting} {outer : List Nesting}
    (h : Opens s n (around :: outer)) :
    Opens (s ++ [.groupClose]) { around with last := n.expr } outer := by
  cases h with
  | group ho hr =>
    rw [List.append_assoc]
    refine ho.extend fun r hr' => ?_
    rw [← List.append_assoc]
    exact hr'.group hr

/-- As many closing brackets as there are open groups make the text a closed one. -/
theorem Opens.reads {s : List Symbol} {n : Nesting} {outer : List Nesting} (h : Opens s n outer) :
    ∃ m, Reads (s ++ List.replicate outer.length .groupClose) m := by
  induction outer generalizing s n with
  | nil =>
    cases h with
    | level hr => exact ⟨n, by simpa using hr⟩
  | cons around outer ih =>
    obtain ⟨m, hm⟩ := ih h.close
    exact ⟨m, by simpa [List.replicate_succ] using hm⟩

/-! ## The reader of expressions -/

/-- The reader of expressions, at the start of a level, reaches the end of its text with the level
the grammar gives it. -/
theorem Reads.ofSymbols_append {s : List Symbol} {n : Nesting} (h : Reads s n)
    (outer : List Nesting) (rest : List Symbol) :
    Expr.ofSymbols .blank outer (s ++ rest) = Expr.ofSymbols n outer rest := by
  induction h generalizing outer rest with
  | blank => rfl
  | literal b _ ih => rw [List.append_assoc, ih]; rfl
  | any _ ih => rw [List.append_assoc, ih]; rfl
  | group _ _ ih ihGroup =>
    rw [List.append_assoc, List.append_assoc, ih, List.cons_append]
    show Expr.ofSymbols .blank _ _ = _
    rw [ihGroup]
    rfl
  | plus _ ih => rw [List.append_assoc, ih]; rfl
  | star _ ih => rw [List.append_assoc, ih]; rfl
  | bar _ ih => rw [List.append_assoc, ih]; rfl

/-- The reader closes open groups at the end by itself. -/
theorem ofSymbols_replicate_groupClose (d : Nat) (level : Nesting) (outer : List Nesting) :
    Expr.ofSymbols level outer (List.replicate d .groupClose) = Expr.ofSymbols level outer [] := by
  induction d generalizing level outer with
  | zero => rfl
  | succ d ih =>
    rw [List.replicate_succ]
    cases outer with
    | nil => exact ih level []
    | cons around outer => exact ih { around with last := level.expr } outer

theorem ofSymbols_append_replicate_groupClose (s : List Symbol) (d : Nat) (level : Nesting)
    (outer : List Nesting) :
    Expr.ofSymbols level outer (s ++ List.replicate d .groupClose) =
      Expr.ofSymbols level outer s := by
  induction s generalizing level outer with
  | nil => exact ofSymbols_replicate_groupClose d level outer
  | cons x s ih =>
    cases x with
    | groupClose => cases outer <;> exact ih _ _
    | _ => exact ih _ _

/-- A pattern denotes one expression at most. -/
theorem Denotes.eq_ofPattern {pattern : Bytes} {e : Expr} (h : Denotes pattern e) :
    e = Expr.ofPattern pattern := by
  obtain ⟨d, n, hr, rfl⟩ := h
  have hn := hr.ofSymbols_append [] []
  rw [List.append_nil, ofSymbols_append_replicate_groupClose] at hn
  exact hn.symm

end SweepRegex.Pattern
