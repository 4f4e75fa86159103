import SweepRegex.Proofs.Machine.Paths
import SweepRegex.Proofs.Machine.Runs

/-!
# The verdict of a run

Without limits a run always ends with a verdict, and the order in which it visits its threads does
not matter for it: the verdict is positive if and only if one of the threads accepts.  Together
with `accepting_iff_acceptsFrom` this frees the verdict from threads altogether.

    (p.run .none input).verdict = .ok true ↔ some path from the start accepts
                                                             (run_eq_true_iff_path)
-/

namespace SweepRegex

/-- One instruction keeps the question whether one of the threads accepts. -/
theorem Machine.Next.accepting_iff {p : Program} {m m' : Machine} (h : Next p m m') :
    (∃ t ∈ m'.threads, p.Accepting t) ↔ ∃ t ∈ m.threads, p.Accepting t := by
  have hcurrent : p.Accepting m.current ↔ ∃ u ∈ (p.move m.current).threads, p.Accepting u := by
    rw [Program.accepting_iff]
    exact or_iff_right h.not_accept
  constructor
  · rintro ⟨t, ht, ha⟩
    rcases List.mem_append.1 (h.threads.mem_iff.1 ht) with ht | ht
    · exact ⟨m.current, mem_threads_iff.2 (.inl rfl), hcurrent.2 ⟨t, ht, ha⟩⟩
    · exact ⟨t, mem_threads_iff.2 (.inr ht), ha⟩
  · rintro ⟨t, ht, ha⟩
    rcases mem_threads_iff.1 ht with rfl | ht
    · obtain ⟨u, hu, ha⟩ := hcurrent.1 ha
      exact ⟨u, h.threads.mem_iff.2 (List.mem_append_left _ hu), ha⟩
    · exact ⟨t, h.threads.mem_iff.2 (List.mem_append_right _ ht), ha⟩

theorem Machine.verdict_run_none {p : Program} {m : Machine} (hc : m.Counted) :
    ∃ v, (m.run p .none).verdict = .ok v ∧ (v = true ↔ ∃ t ∈ m.threads, p.Accepting t) := by
  refine run_induction p (P := fun m => ∃ v, (m.run p .none).verdict = .ok v ∧
    (v = true ↔ ∃ t ∈ m.threads, p.Accepting t)) ?_ ?_ hc
  · intro m r _ h
    rw [run_of_done h]
    rcases done_of_step h with ⟨hmove, rfl⟩ | ⟨hmove, hothers, rfl⟩
    · exact ⟨true, rfl, iff_of_true rfl ⟨m.current, mem_threads_iff.2 (.inl rfl), .here hmove⟩⟩
    · refine ⟨false, rfl, iff_of_false (by simp) ?_⟩
      -- the last thread was dropped
      rintro ⟨t, ht, ha⟩
      have ht' : t = m.current := by simpa [mem_threads_iff, hothers] using ht
      subst ht'
      rw [Program.accepting_iff, hmove] at ha
      simp [Move.threads] at ha
  · intro m m' _ h hnext ih
    obtain ⟨v, hv, hiff⟩ := ih
    rw [run_of_running h]
    exact ⟨v, hv, hiff.trans hnext.accepting_iff⟩

namespace Program

theorem not_acceptsFrom_of_isEmpty {p : Program} (h : p.isEmpty = true) (c : Config) :
    ¬p.AcceptsFrom c := by
  rintro ⟨d, -, hd⟩
  have hsize : p.code.size = 0 := by simpa [isEmpty] using h
  have hlt := (Array.getElem?_eq_some_iff.1 hd).1
  omega

theorem verdict_run_none (p : Program) (input : Bytes) :
    ∃ v, (p.run .none input).verdict = .ok v ∧ (v = true ↔ p.AcceptsFrom ⟨0, input⟩) := by
  rw [run]
  split
  · next h =>
    exact ⟨false, rfl, iff_of_false (by simp) (not_acceptsFrom_of_isEmpty h _)⟩
  · obtain ⟨v, hv, hiff⟩ := Machine.verdict_run_none (p := p) (Machine.counted_start input)
    refine ⟨v, hv, hiff.trans ?_⟩
    rw [← accepting_iff_acceptsFrom]
    simp [Machine.threads, Machine.start]

/-- A verdict that tells whether something holds, as its two answers. -/
theorem verdict_iff {r : Except LimitError Bool} {P : Prop}
    (h : ∃ v, r = .ok v ∧ (v = true ↔ P)) : (r = .ok true ↔ P) ∧ (r = .ok false ↔ ¬P) := by
  obtain ⟨v, rfl, hiff⟩ := h
  cases v with
  | true =>
    have hP := hiff.1 rfl
    exact ⟨iff_of_true rfl hP, iff_of_false (by simp) (not_not_intro hP)⟩
  | false =>
    have hP : ¬P := fun h => by cases hiff.2 h
    exact ⟨iff_of_false (by simp) hP, iff_of_true rfl hP⟩

/-! ## Main statement -/

/-- **Threads and paths.**  For every program and input, a run without limits gives a verdict, and
the verdict is whether a path from the start of both reaches an accepting instruction. -/
theorem run_eq_true_iff_path (p : Program) (input : Bytes) :
    ((p.run .none input).verdict = .ok true ↔
      ∃ d, Relation.ReflTransGen p.Step ⟨0, input⟩ d ∧ p.code[d.pc]? = some .accept) ∧
    ((p.run .none input).verdict = .ok false ↔
      ¬∃ d, Relation.ReflTransGen p.Step ⟨0, input⟩ d ∧ p.code[d.pc]? = some .accept) :=
  verdict_iff (p.verdict_run_none input)

end Program

end SweepRegex
