import SweepRegex.Proofs.Machine.Verdict
import SweepRegex.Proofs.Pattern.Emission
import SweepRegex.Proofs.Pattern.Placement

/-!
# The language of a compiled pattern

The code of an expression, wherever it stands in a program, takes control from its start to its
end along exactly the texts the expression matches.  For one direction a match is walked through
the code (`acceptsFrom_of_matches`).  For the other, an accepted path that starts at the code has
to leave it at its end, as nothing accepts inside, and what it consumed until then is a match
(`exists_matches_of_acceptsIn`); a loop is unrolled along the length of the path.

    compile pattern = .ok p →
      ((p.run .none input).verdict = .ok true ↔ ∃ s, s <+: input ∧ Matches pattern s)
                                                                        (run_compile)
-/

namespace SweepRegex

namespace Program

/-! ## Accepted paths, instruction by instruction -/

section
variable {p : Program} {n pc x y : Nat} {b : UInt8} {s : Bytes}

theorem AcceptsFrom.head {c d : Config} (hstep : p.Step c d) (h : p.AcceptsFrom d) :
    p.AcceptsFrom c := by
  obtain ⟨e, hpath, he⟩ := h
  exact ⟨e, .head hstep hpath, he⟩

/-- Where no instruction accepts, an accepted path goes on. -/
theorem AcceptsIn.exists_step {i : Instr} {c : Config} (h : p.AcceptsIn n c)
    (hi : p.code[c.pc]? = some i) (hne : i ≠ .accept) :
    ∃ k d, n = k + 1 ∧ p.Step c d ∧ p.AcceptsIn k d := by
  cases n with
  | zero =>
    have hacc : p.code[c.pc]? = some .accept := h
    rw [hi] at hacc
    exact absurd (Option.some.inj hacc) hne
  | succ k =>
    obtain ⟨d, hstep, hd⟩ := h
    exact ⟨k, d, rfl, hstep, hd⟩

theorem AcceptsIn.byte (h : p.AcceptsIn n ⟨pc, s⟩) (hi : p.code[pc]? = some (.byte b)) :
    ∃ k rest, n = k + 1 ∧ s = b :: rest ∧ p.AcceptsIn k ⟨pc + 1, rest⟩ := by
  obtain ⟨k, d, rfl, hstep, hd⟩ := h.exists_step hi (by simp)
  cases hstep <;> simp_all

theorem AcceptsIn.any (h : p.AcceptsIn n ⟨pc, s⟩) (hi : p.code[pc]? = some .any) :
    ∃ k b rest, n = k + 1 ∧ s = b :: rest ∧ p.AcceptsIn k ⟨pc + 1, rest⟩ := by
  obtain ⟨k, d, rfl, hstep, hd⟩ := h.exists_step hi (by simp)
  cases hstep <;> simp_all

theorem AcceptsIn.jump (h : p.AcceptsIn n ⟨pc, s⟩) (hi : p.code[pc]? = some (.jump x)) :
    ∃ k, n = k + 1 ∧ p.AcceptsIn k ⟨x, s⟩ := by
  obtain ⟨k, d, rfl, hstep, hd⟩ := h.exists_step hi (by simp)
  cases hstep <;> simp_all

theorem AcceptsIn.split (h : p.AcceptsIn n ⟨pc, s⟩) (hi : p.code[pc]? = some (.split x y)) :
    ∃ k, n = k + 1 ∧ (p.AcceptsIn k ⟨x, s⟩ ∨ p.AcceptsIn k ⟨y, s⟩) := by
  obtain ⟨k, d, rfl, hstep, hd⟩ := h.exists_step hi (by simp)
  cases hstep <;> simp_all

end

/-! ## Code of an expression -/

/-- What an expression matches leads from the start of its code to the end. -/
theorem acceptsFrom_of_matches {p : Program} {e : Expr} {s : Bytes} (h : e.Matches s) {o : Nat}
    (hc : p.Holds o (e.code o)) {rest : Bytes} (ha : p.AcceptsFrom ⟨o + e.size, rest⟩) :
    p.AcceptsFrom ⟨o, s ++ rest⟩ := by
  induction h generalizing o rest with
  | empty => exact ha
  | byte b => exact ha.head (.byte hc.1)
  | any b => exact ha.head (.any hc.1)
  | seq _ _ ihe ihf =>
    simp only [Expr.code, holds_append, Expr.length_code] at hc
    rw [Expr.size, ← Nat.add_assoc] at ha
    rw [List.append_assoc]
    exact ihe hc.1 (ihf hc.2 ha)
  | plusLast _ ih =>
    simp only [Expr.code, holds_append, holds_cons, Expr.length_code] at hc
    exact ih hc.1 (ha.head (.second hc.2.1))
  | plusMore _ _ ih ihMore =>
    have hc' := hc
    simp only [Expr.code, holds_append, holds_cons, Expr.length_code] at hc'
    rw [List.append_assoc]
    exact ih hc'.1 ((ihMore hc ha).head (.first hc'.2.1))
  | starDone => exact ha.head (.second hc.1)
  | starMore _ _ ih ihMore =>
    have hc' := hc
    simp only [Expr.code, List.cons_append, holds_append, holds_cons, Expr.length_code] at hc'
    rw [List.append_assoc]
    exact (ih hc'.2.1 ((ihMore hc ha).head (.jump hc'.2.2.1))).head (.first hc'.1)
  | optSkip => exact ha.head (.second hc.1)
  | @optTake e s _ ih =>
    have hend : p.AcceptsFrom ⟨o + 1 + e.size, rest⟩ := by
      rw [Nat.add_right_comm]
      exact ha
    exact (ih hc.2 hend).head (.first hc.1)

/-- An accepted path that starts at the code of an expression reaches its end, not later than at
its own end, and has consumed a match by then. -/
theorem exists_matches_of_acceptsIn {p : Program} {e : Expr} {o : Nat}
    (hc : p.Holds o (e.code o)) {n : Nat} {s : Bytes} (h : p.AcceptsIn n ⟨o, s⟩) :
    ∃ t rest k, s = t ++ rest ∧ e.Matches t ∧ k ≤ n ∧ p.AcceptsIn k ⟨o + e.size, rest⟩ := by
  induction e generalizing o n s with
  | empty => exact ⟨[], s, n, rfl, .empty, Nat.le_refl n, h⟩
  | byte b =>
    obtain ⟨k, rest, rfl, rfl, hk⟩ := h.byte hc.1
    exact ⟨[b], rest, k, rfl, .byte b, Nat.le_succ k, hk⟩
  | any =>
    obtain ⟨k, b, rest, rfl, rfl, hk⟩ := h.any hc.1
    exact ⟨[b], rest, k, rfl, .any b, Nat.le_succ k, hk⟩
  | seq e f ihe ihf =>
    simp only [Expr.code, holds_append, Expr.length_code] at hc
    obtain ⟨t, r, k, rfl, ht, hk, hr⟩ := ihe hc.1 h
    obtain ⟨u, r, l, rfl, hu, hl, hr⟩ := ihf hc.2 hr
    refine ⟨t ++ u, r, l, by simp, .seq ht hu, by omega, ?_⟩
    rwa [Expr.size, ← Nat.add_assoc]
  | plus e ih =>
    have hc' := hc
    simp only [Expr.code, holds_append, holds_cons, Expr.length_code] at hc'
    induction n using Nat.strongRecOn generalizing s with
    | ind n ihn =>
      obtain ⟨t, r, k, rfl, ht, hk, hr⟩ := ih hc'.1 h
      obtain ⟨l, rfl, hagain | hr⟩ := hr.split hc'.2.1
      · obtain ⟨u, r, j, rfl, hu, hj, hr⟩ := ihn l (by omega) hagain
        exact ⟨t ++ u, r, j, by simp, .plusMore ht hu, by omega, hr⟩
      · exact ⟨t, r, l, rfl, .plusLast ht, by omega, hr⟩
  | star e ih =>
    have hc' := hc
    simp only [Expr.code, List.cons_append, holds_append, holds_cons, Expr.length_code] at hc'
    induction n using Nat.strongRecOn generalizing s with
    | ind n ihn =>
      obtain ⟨m, rfl, hinside | hr⟩ := h.split hc'.1
      · obtain ⟨t, r, k, rfl, ht, hk, hr⟩ := ih hc'.2.1 hinside
        obtain ⟨l, rfl, hagain⟩ := hr.jump hc'.2.2.1
        obtain ⟨u, r, j, rfl, hu, hj, hr⟩ := ihn l (by omega) hagain
        exact ⟨t ++ u, r, j, by simp, .starMore ht hu, by omega, hr⟩
      · exact ⟨[], s, m, rfl, .starDone, Nat.le_succ m, hr⟩
  | opt e ih =>
    obtain ⟨m, rfl, hinside | hr⟩ := h.split hc.1
    · obtain ⟨t, r, k, rfl, ht, hk, hr⟩ := ih hc.2 hinside
      rw [Nat.add_right_comm] at hr
      exact ⟨t, r, k, rfl, .optTake ht, by omega, hr⟩
    · exact ⟨[], s, m, rfl, .optSkip, Nat.le_succ m, hr⟩

/-- A program that is the code of an expression and a final instruction accepts the inputs that the
expression matches some front part of. -/
theorem acceptsFrom_iff_matches {p : Program} {e : Expr}
    (h : p.code.toList = e.code 0 ++ [.accept]) {input : Bytes} :
    p.AcceptsFrom ⟨0, input⟩ ↔ ∃ s, s <+: input ∧ e.Matches s := by
  have hc : p.Holds 0 (e.code 0 ++ [.accept]) := holds_of_drop_eq h
  obtain ⟨hcode, hend⟩ := holds_append.1 hc
  have haccept : p.code[0 + e.size]? = some .accept := by simpa using hend
  constructor
  · intro ha
    obtain ⟨n, hn⟩ := acceptsFrom_iff_exists_acceptsIn.1 ha
    obtain ⟨t, rest, -, rfl, ht, -, -⟩ := exists_matches_of_acceptsIn hcode hn
    exact ⟨t, List.prefix_append t rest, ht⟩
  · rintro ⟨s, ⟨rest, rfl⟩, hs⟩
    exact acceptsFrom_of_matches hs hcode ⟨_, .refl, haccept⟩

end Program

namespace Pattern

theorem verdict_compile {pattern : Bytes} {p : Program} (h : compile pattern = .ok p)
    (input : Bytes) :
    ∃ v, (p.run .none input).verdict = .ok v ∧
      (v = true ↔ ∃ s, s <+: input ∧ Matches pattern s) := by
  obtain ⟨e, he, hcode⟩ := exists_denotes_of_compile h
  obtain ⟨v, hv, hiff⟩ := p.verdict_run_none input
  have hmatches (s : Bytes) : Matches pattern s ↔ e.Matches s := by
    constructor
    · rintro ⟨e', he', hs⟩
      rwa [he'.eq_ofPattern, ← he.eq_ofPattern] at hs
    · exact fun hs => ⟨e, he, hs⟩
  refine ⟨v, hv, hiff.trans ?_⟩
  simp only [hmatches]
  exact Program.acceptsFrom_iff_matches hcode

/-! ## Main statement -/

/-- **Compiled patterns run as they read.**  On every input the program of an accepted pattern,
run without limits, ends with a verdict, and the verdict is whether some front part of the input
is in the language of the pattern. -/
theorem run_compile {pattern : Bytes} {p : Program} (h : compile pattern = .ok p) (input : Bytes) :
    ((p.run .none input).verdict = .ok true ↔ ∃ s, s <+: input ∧ Matches pattern s) ∧
    ((p.run .none input).verdict = .ok false ↔ ¬∃ s, s <+: input ∧ Matches pattern s) :=
  Program.verdict_iff (verdict_compile h input)

/-- A loop around a loop, either of which may match nothing. -/
theorem run_compile_nested_star :
    ∃ p, compile (ascii "(a*)*b") = .ok p ∧
      ((p.run .none (ascii "aabc")).verdict = .ok true ↔
        ∃ s, s <+: ascii "aabc" ∧ Matches (ascii "(a*)*b") s) ∧
      ((p.run .none (ascii "aabc")).verdict = .ok false ↔
        ¬∃ s, s <+: ascii "aabc" ∧ Matches (ascii "(a*)*b") s) := by
  have h : compile (ascii "(a*)*b") =
      .ok ⟨#[.split 1 5, .split 2 4, .byte 97, .jump 1, .jump 0, .byte 98, .accept]⟩ := by cbv
  exact ⟨_, h, run_compile h (ascii "aabc")⟩

end Pattern

end SweepRegex
