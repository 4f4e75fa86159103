import SweepRegex.Proofs.Pattern.Concatenation

/-!
# Brackets without effect

Brackets have no code of their own; they say what an operator applies to.  So closing some of the
groups that a pattern has left open does not change its program, and neither does an opening bracket
in front of it, which is the case of a concatenation whose first pattern is that bracket.

What can go wrong is the number of brackets alone: one closing bracket more than there are groups
open, or a pattern that goes to the greatest depth allowed by itself.
-/

namespace SweepRegex

namespace Pattern

/-- An opening bracket alone is a pattern, of no code. -/
theorem compile_groupOpen : compile [Symbol.groupOpen.byte] = .ok ⟨#[.accept]⟩ := by cbv

section
variable {s : Bytes} {p : Program} (h : compile s = .ok p)
include h

theorem deepest_le_of_compile : deepest (s.map Symbol.ofByte) ≤ 10 := by
  obtain ⟨e, he, -⟩ := compile_eq_ok_iff.1 h
  rw [deepest_le_iff]
  rintro r ⟨t, hrt⟩
  rw [← hrt] at he
  obtain ⟨e₁, h₁, -⟩ := Emitter.feeds_append_iff.1 he
  obtain ⟨hdepth, hmax⟩ := Emitter.depth_of_feeds h₁
  rw [← hdepth]
  exact hmax

/-! ## Closing brackets -/

/-- The brackets close groups that would be closed at the end of the pattern anyway. -/
theorem exists_feeds_append_closing {k : Nat} (hk : k ≤ openGroups (s.map Symbol.ofByte)) :
    ∃ e, Emitter.Feeds .start ((s ++ List.replicate k Symbol.groupClose.byte).map Symbol.ofByte) e ∧
      e.finish = p ∧ e.depth + k = openGroups (s.map Symbol.ofByte) := by
  obtain ⟨e, he, rfl⟩ := compile_eq_ok_iff.1 h
  have hdepth := (Emitter.depth_of_feeds he).1
  rw [← hdepth] at hk ⊢
  obtain ⟨e', hclose, hcode, hdepth'⟩ := Emitter.exists_feeds_replicate_groupClose hk
  refine ⟨e', ?_, ?_, hdepth'⟩
  · rw [List.map_append, List.map_replicate]
    exact Emitter.feeds_append_iff.2 ⟨e, he, hclose⟩
  · rw [Emitter.finish, hcode]
    rfl

theorem compile_append_closing {k : Nat} (hk : k ≤ openGroups (s.map Symbol.ofByte)) :
    compile (s ++ List.replicate k Symbol.groupClose.byte) = .ok p := by
  obtain ⟨e, he, hp, -⟩ := exists_feeds_append_closing h hk
  exact compile_eq_ok_iff.2 ⟨e, he, hp⟩

/-- The first bracket that finds no group open is refused, whatever follows it. -/
theorem compile_append_closing_of_lt {k : Nat} (hk : openGroups (s.map Symbol.ofByte) < k) :
    compile (s ++ List.replicate k Symbol.groupClose.byte) =
      .error ⟨.unmatchedClose, s.length + openGroups (s.map Symbol.ofByte)⟩ := by
  obtain ⟨e, he, -, hdepth⟩ := exists_feeds_append_closing h (Nat.le_refl _)
  generalize openGroups (s.map Symbol.ofByte) = d at hk he hdepth ⊢
  have hzero : e.depth = 0 := by omega
  obtain ⟨j, rfl⟩ : ∃ j, k = d + (j + 1) := ⟨k - d - 1, by omega⟩
  refine compile_eq_error_iff.2 ⟨s ++ List.replicate d Symbol.groupClose.byte,
    Symbol.groupClose.byte, List.replicate j Symbol.groupClose.byte, e, ?_, ?_, he, ?_⟩
  · rw [List.append_assoc, ← List.replicate_succ, List.replicate_append_replicate]
  · show s.length + d = _
    rw [List.length_append, List.length_replicate]
  · exact Emitter.feed_groupClose_eq_error_iff.2 ⟨hzero, rfl⟩

/-! ## An opening bracket -/

section
variable (hd : deepest (s.map Symbol.ofByte) ≤ 9)
include hd

/-- In front of a pattern that does not go to the greatest depth, the bracket changes nothing. -/
theorem compile_opening : compile (Symbol.groupOpen.byte :: s) = .ok p := by
  have hd' : 1 + deepest (s.map Symbol.ofByte) ≤ 10 := by omega
  have hcode := compile_append_of_le compile_groupOpen h hd'
  -- there is no code for the pattern to be behind
  have hzero : p.code.map (Instr.relocate 0) = p.code := by
    have hid : Instr.relocate 0 = id := funext Instr.relocate_zero
    rw [hid, Array.map_id]
  simpa [Program.size, hzero] using hcode

/-- The group that the bracket opens is open behind the pattern. -/
theorem openGroups_opening : openGroups ((Symbol.groupOpen.byte :: s).map Symbol.ofByte) =
    1 + openGroups (s.map Symbol.ofByte) := by
  have hd' : 1 + deepest (s.map Symbol.ofByte) ≤ 10 := by omega
  exact openGroups_append_of_le compile_groupOpen h hd'

end

end

/-! ## Main statement -/

/-- **Brackets without effect.**  Behind a pattern that compiles, as many closing brackets as it
has left groups open, or fewer, leave its program alone, and the first one more is refused.  In
front of it an opening bracket, with or without a closing one at the end, leaves its program alone
too, unless by itself it goes to the greatest depth; then the bracket with which it first gets there
is refused. -/
theorem compile_parentheses {s : Bytes} {p : Program} (h : compile s = .ok p) :
    let d := openGroups (s.map Symbol.ofByte)
    let m := deepest (s.map Symbol.ofByte)
    let opening := Symbol.groupOpen.byte
    let closing := Symbol.groupClose.byte
    (∀ k ≤ d, compile (s ++ List.replicate k closing) = .ok p) ∧
    (∀ k, d < k →
      compile (s ++ List.replicate k closing) = .error ⟨.unmatchedClose, s.length + d⟩) ∧
    m ≤ 10 ∧
    (m ≤ 9 → compile (opening :: s) = .ok p ∧ compile (opening :: s ++ [closing]) = .ok p) ∧
    (m = 10 → ∃ offset, IsLeast {o | Surpasses (s.map Symbol.ofByte) 9 o} offset ∧
      compile (opening :: s) = .error ⟨.groupOverflow, offset + 1⟩) := by
  intro d m opening closing
  refine ⟨fun k hk => compile_append_closing h hk, fun k hk => compile_append_closing_of_lt h hk,
    deepest_le_of_compile h, fun hm => ?_, fun hm => ?_⟩
  · have hopen := compile_opening h hm
    refine ⟨hopen, compile_append_closing (k := 1) hopen ?_⟩
    rw [openGroups_opening h hm]
    exact Nat.le_add_right 1 _
  · have hlt : 9 < m := by omega
    obtain ⟨offset, hoffset⟩ := exists_least_surpasses hlt
    refine ⟨offset, hoffset, ?_⟩
    have hrefused := compile_append_of_least compile_groupOpen h rfl hoffset
    rw [Nat.add_comm]
    exact hrefused

/-- A bar and a group inside a group that is left open, and a pattern as deep as is allowed. -/
theorem compile_parentheses_left_open :
    let p : Program := ⟨#[.byte 97, .split 2 3, .byte 98, .byte 99, .accept]⟩
    compile (ascii "a(b|(c") = .ok p ∧
      compile (ascii "a(b|(c" ++ List.replicate 2 Symbol.groupClose.byte) = .ok p ∧
      compile (ascii "a(b|(c" ++ List.replicate 4 Symbol.groupClose.byte) =
        .error ⟨.unmatchedClose, 8⟩ ∧
      compile (Symbol.groupOpen.byte :: ascii "a(b|(c" ++ [Symbol.groupClose.byte]) = .ok p ∧
      compile (ascii "(a)((((((((((b") = .ok ⟨#[.byte 97, .byte 98, .accept]⟩ ∧
      ∃ offset,
        IsLeast {o | Surpasses ((ascii "(a)((((((((((b").map Symbol.ofByte) 9 o} offset ∧
          compile (Symbol.groupOpen.byte :: ascii "(a)((((((((((b") =
            .error ⟨.groupOverflow, offset + 1⟩ := by
  intro p
  have h : compile (ascii "a(b|(c") = .ok p := by cbv
  have h' : compile (ascii "(a)((((((((((b") = .ok ⟨#[.byte 97, .byte 98, .accept]⟩ := by cbv
  obtain ⟨hclosing, hunmatched, -, hopening, -⟩ := compile_parentheses h
  obtain ⟨-, -, -, -, hoverflow⟩ := compile_parentheses h'
  exact ⟨h, hclosing 2 (by decide), hunmatched 4 (by decide), (hopening (by decide)).2, h',
    hoverflow (by decide)⟩

end Pattern

end SweepRegex
