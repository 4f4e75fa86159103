import SweepRegex.Proofs.Language
import SweepRegex.Regex

/-!
# Searching for the leftmost match

A search runs the program at one offset after the other, up to the end of the input, and the first
run that does not say no decides it (`FirstAnswer`): a match ends the search with the offset, and a
limit that is hit ends it with an error, so an error behind a match is never seen.  Without limits
the first match is the leftmost occurrence of the pattern in the input.

    compile pattern = .ok p →
      (p.search .none input = .ok (some k) ↔
        OccursAt pattern input k ∧ ∀ j < k, ¬OccursAt pattern input j)           (search_compile)
-/

namespace SweepRegex

namespace Program

/-! ## The deciding run -/

/-- What a run says that starts at an offset of the input. -/
def attempt (p : Program) (limits : Limits) (input : Bytes) (offset : Nat) :
    Except LimitError Bool := (p.run limits (input.drop offset)).verdict

/-- The first run that does not say no starts at this offset, and this is what it says. -/
structure FirstAnswer (p : Program) (limits : Limits) (input : Bytes) (offset : Nat)
    (answer : Except LimitError Bool) : Prop where
  le_length : offset ≤ input.length
  attempt_eq : p.attempt limits input offset = answer
  not_no : answer ≠ .ok false
  before : ∀ j < offset, p.attempt limits input j = .ok false

section
variable {p : Program} {limits : Limits} {input : Bytes}

theorem FirstAnswer.unique {i j : Nat} {a b : Except LimitError Bool}
    (ha : p.FirstAnswer limits input i a) (hb : p.FirstAnswer limits input j b) :
    i = j ∧ a = b := by
  have hij : i = j := by
    rcases Nat.lt_trichotomy i j with hlt | heq | hlt
    · exact absurd (ha.attempt_eq.symm.trans (hb.before i hlt)) ha.not_no
    · exact heq
    · exact absurd (hb.attempt_eq.symm.trans (ha.before j hlt)) hb.not_no
  subst hij
  exact ⟨rfl, ha.attempt_eq.symm.trans hb.attempt_eq⟩

/-- A run at the start of the input that does not say no is the first. -/
theorem firstAnswer_zero {answer : Except LimitError Bool}
    (h : (p.run limits input).verdict = answer) (hno : answer ≠ .ok false) :
    p.FirstAnswer limits input 0 answer :=
  ⟨Nat.zero_le _, h, hno, fun _ hj => absurd hj (Nat.not_lt_zero _)⟩

/-- If the run at the first byte says no, the one sought is the first of the rest of the input. -/
theorem FirstAnswer.cons {b : UInt8} {k : Nat} {answer : Except LimitError Bool}
    (h : p.FirstAnswer limits input k answer)
    (hno : (p.run limits (b :: input)).verdict = .ok false) :
    p.FirstAnswer limits (b :: input) (k + 1) answer where
  le_length := Nat.succ_le_succ h.le_length
  attempt_eq := h.attempt_eq
  not_no := h.not_no
  before j hj := by
    cases j with
    | zero => exact hno
    | succ j => exact h.before j (by omega)

/-- A search ends with the first run that does not say no, or after the last one has said no. -/
theorem searchFrom_cases (p : Program) (limits : Limits) (offset : Nat) (input : Bytes) :
    (∃ k, p.FirstAnswer limits input k (.ok true) ∧
      p.searchFrom limits offset input = .ok (some (offset + k))) ∨
    (∃ k e, p.FirstAnswer limits input k (.error e) ∧
      p.searchFrom limits offset input = .error e) ∨
    ((∀ k ≤ input.length, p.attempt limits input k = .ok false) ∧
      p.searchFrom limits offset input = .ok none) := by
  induction input generalizing offset with
  | nil =>
    rw [searchFrom]
    cases hv : (p.run limits []).verdict with
    | error e => exact .inr (.inl ⟨0, e, firstAnswer_zero hv (by simp), rfl⟩)
    | ok v =>
      cases v with
      | true => exact .inl ⟨0, firstAnswer_zero hv (by simp), rfl⟩
      | false =>
        refine .inr (.inr ⟨fun k hk => ?_, rfl⟩)
        obtain rfl : k = 0 := Nat.le_zero.1 hk
        exact hv
  | cons b input ih =>
    rw [searchFrom]
    cases hv : (p.run limits (b :: input)).verdict with
    | error e => exact .inr (.inl ⟨0, e, firstAnswer_zero hv (by simp), rfl⟩)
    | ok v =>
      cases v with
      | true => exact .inl ⟨0, firstAnswer_zero hv (by simp), rfl⟩
      | false =>
        rcases ih (offset + 1) with ⟨k, hk, hs⟩ | ⟨k, e, hk, hs⟩ | ⟨hall, hs⟩
        · refine .inl ⟨k + 1, hk.cons hv, hs.trans ?_⟩
          rw [Nat.add_assoc, Nat.add_comm 1]
        · exact .inr (.inl ⟨k + 1, e, hk.cons hv, hs⟩)
        · refine .inr (.inr ⟨fun k hk => ?_, hs⟩)
          cases k with
          | zero => exact hv
          | succ k => exact hall k (Nat.le_of_succ_le_succ hk)

theorem not_firstAnswer_of_no (h : ∀ k ≤ input.length, p.attempt limits input k = .ok false)
    (k : Nat) (answer : Except LimitError Bool) : ¬p.FirstAnswer limits input k answer :=
  fun hk => hk.not_no (hk.attempt_eq.symm.trans (h k hk.le_length))

theorem search_eq_some_iff {k : Nat} :
    p.search limits input = .ok (some k) ↔ p.FirstAnswer limits input k (.ok true) := by
  rw [search]
  rcases p.searchFrom_cases limits 0 input with ⟨j, hj, hs⟩ | ⟨j, e, hj, hs⟩ | ⟨hall, hs⟩
  · rw [hs, Nat.zero_add]
    constructor
    · rintro ⟨⟩
      exact hj
    · intro hk
      rw [(hk.unique hj).1]
  · rw [hs]
    refine iff_of_false (by simp) fun hk => ?_
    cases (hk.unique hj).2
  · rw [hs]
    exact iff_of_false (by simp) (not_firstAnswer_of_no hall k _)

theorem search_eq_error_iff {e : LimitError} :
    p.search limits input = .error e ↔ ∃ k, p.FirstAnswer limits input k (.error e) := by
  rw [search]
  rcases p.searchFrom_cases limits 0 input with ⟨j, hj, hs⟩ | ⟨j, e', hj, hs⟩ | ⟨hall, hs⟩
  · rw [hs]
    refine iff_of_false (by simp) ?_
    rintro ⟨k, hk⟩
    cases (hk.unique hj).2
  · rw [hs]
    constructor
    · rintro ⟨⟩
      exact ⟨j, hj⟩
    · rintro ⟨k, hk⟩
      cases (hk.unique hj).2
      rfl
  · rw [hs]
    refine iff_of_false (by simp) ?_
    rintro ⟨k, hk⟩
    exact not_firstAnswer_of_no hall k _ hk

theorem search_eq_none_iff :
    p.search limits input = .ok none ↔
      ∀ k ≤ input.length, p.attempt limits input k = .ok false := by
  rw [search]
  rcases p.searchFrom_cases limits 0 input with ⟨j, hj, hs⟩ | ⟨j, e, hj, hs⟩ | ⟨hall, hs⟩
  · rw [hs]
    exact iff_of_false (by simp) fun hno => not_firstAnswer_of_no hno j _ hj
  · rw [hs]
    exact iff_of_false (by simp) fun hno => not_firstAnswer_of_no hno j _ hj
  · exact iff_of_true hs hall

/-- The search finds a match at the start of the input exactly if the run there finds it. -/
theorem search_eq_zero_iff :
    p.search limits input = .ok (some 0) ↔ (p.run limits input).verdict = .ok true :=
  search_eq_some_iff.trans ⟨fun h => h.attempt_eq, fun h => firstAnswer_zero h (by simp)⟩

end

end Program

namespace Pattern

/-! ## Occurrences -/

/-- Some front part of what stands behind the offset is in the language of the pattern. -/
def OccursAt (pattern input : Bytes) (offset : Nat) : Prop :=
  ∃ s, s <+: input.drop offset ∧ Matches pattern s

/-- The texts that occur somewhere in the input are its contiguous parts. -/
theorem exists_occursAt_iff {pattern input : Bytes} :
    (∃ k ≤ input.length, OccursAt pattern input k) ↔ ∃ s, s <:+: input ∧ Matches pattern s := by
  constructor
  · rintro ⟨k, -, s, hs, hm⟩
    exact ⟨s, hs.isInfix.trans (List.drop_suffix k input).isInfix, hm⟩
  · rintro ⟨s, ⟨before, behind, rfl⟩, hm⟩
    refine ⟨before.length, by simp, s, ?_, hm⟩
    rw [List.append_assoc, List.drop_left]
    exact List.prefix_append s behind

theorem attempt_none_iff {pattern : Bytes} {p : Program} (h : compile pattern = .ok p)
    (input : Bytes) (k : Nat) :
    (p.attempt .none input k = .ok true ↔ OccursAt pattern input k) ∧
    (p.attempt .none input k = .ok false ↔ ¬OccursAt pattern input k) :=
  Program.verdict_iff (verdict_compile h (input.drop k))

/-! ## Main statement -/

/-- **The leftmost match.**  Without limits a search gives no error; it finds the least offset at
which the pattern occurs, the end of the input included, and finds none exactly if no part of the
input is in the language.  Under any limits the first run that does not say no decides: its match
is found at its offset, its error is the error of the search, and if there is no such run, nothing
is found.  So a match at the start is found exactly if the run there finds it, and an error of that
run is the error of the search.  The search of the regular expression is this search. -/
theorem search_compile {pattern : Bytes} {p : Program} (h : compile pattern = .ok p)
    (input : Bytes) :
    (∀ e, p.search .none input ≠ .error e) ∧
    (∀ k, p.search .none input = .ok (some k) ↔
      k ≤ input.length ∧ OccursAt pattern input k ∧ ∀ j < k, ¬OccursAt pattern input j) ∧
    (p.search .none input = .ok none ↔ ∀ s, s <:+: input → ¬Matches pattern s) ∧
    ∀ limits,
      (∀ k, p.search limits input = .ok (some k) ↔ p.FirstAnswer limits input k (.ok true)) ∧
      (∀ e, p.search limits input = .error e ↔
        ∃ k, p.FirstAnswer limits input k (.error e)) ∧
      (p.search limits input = .ok none ↔
        ∀ k ≤ input.length, p.attempt limits input k = .ok false) ∧
      (p.search limits input = .ok (some 0) ↔ (p.run limits input).verdict = .ok true) ∧
      (∀ e, (p.run limits input).verdict = .error e → p.search limits input = .error e) ∧
      (Regex.ofPattern pattern limits).search input = p.search limits input := by
  have hattempt := attempt_none_iff h input
  refine ⟨fun e he => ?_, fun k => ?_, ?_, fun limits =>
    ⟨fun k => Program.search_eq_some_iff, fun e => Program.search_eq_error_iff,
      Program.search_eq_none_iff, Program.search_eq_zero_iff, fun e he => ?_, ?_⟩⟩
  · obtain ⟨k, hk⟩ := Program.search_eq_error_iff.1 he
    obtain ⟨v, hv, -⟩ := verdict_compile h (input.drop k)
    cases hv.symm.trans hk.attempt_eq
  · rw [Program.search_eq_some_iff]
    constructor
    · intro hk
      exact ⟨hk.le_length, (hattempt k).1.1 hk.attempt_eq,
        fun j hj => (hattempt j).2.1 (hk.before j hj)⟩
    · rintro ⟨hle, hoccurs, hbefore⟩
      exact ⟨hle, (hattempt k).1.2 hoccurs, by simp, fun j hj => (hattempt j).2.2 (hbefore j hj)⟩
  · rw [Program.search_eq_none_iff]
    constructor
    · intro hno s hs hm
      obtain ⟨k, hk, hoccurs⟩ := exists_occursAt_iff.2 ⟨s, hs, hm⟩
      exact (hattempt k).2.1 (hno k hk) hoccurs
    · intro hno k hk
      refine (hattempt k).2.2 fun hoccurs => ?_
      obtain ⟨s, hs, hm⟩ := exists_occursAt_iff.1 ⟨k, hk, hoccurs⟩
      exact hno s hs hm
  · exact Program.search_eq_error_iff.2 ⟨0, Program.firstAnswer_zero he (by simp)⟩
  · simp [Regex.search, Regex.ofPattern, Regex.isValid, Regex.program, h]

/-- An occurrence that begins with the second of two equal letters. -/
theorem search_compile_second_letter :
    ∃ p, compile (ascii "(a|)b") = .ok p ∧ p.search .none (ascii "xaab") = .ok (some 2) ∧
      OccursAt (ascii "(a|)b") (ascii "xaab") 2 ∧
      ∀ j < 2, ¬OccursAt (ascii "(a|)b") (ascii "xaab") j := by
  have h : compile (ascii "(a|)b") = .ok ⟨#[.split 1 2, .byte 97, .byte 98, .accept]⟩ := by cbv
  have hs : Program.search ⟨#[.split 1 2, .byte 97, .byte 98, .accept]⟩ .none (ascii "xaab") =
      .ok (some 2) := by cbv
  obtain ⟨-, hoccurs, hbefore⟩ := ((search_compile h (ascii "xaab")).2.1 2).1 hs
  exact ⟨_, h, hs, hoccurs, hbefore⟩

end Pattern

end SweepRegex
