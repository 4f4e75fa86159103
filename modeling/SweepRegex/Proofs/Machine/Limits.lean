import SweepRegex.Proofs.Machine.Verdict

/-!
# What limits do to a run

A run under limits is a front part of the run without limits.  Either it is all of it, or it stops
at the first instruction that a limit refuses; which limit that is, and where, can be read off the
run without limits: the limit of steps refuses by the number of the instruction, and the limit of
threads refuses the first fork that would leave too many threads alive (`firstExcess?`).

    limits.Admits (p.run .none input).stats → p.run limits input = p.run .none input

Main statement: `run_limits`.
-/

namespace SweepRegex

namespace Limits

/-- The statistics of a run are within the limits. -/
def Admits (limits : Limits) (stats : Stats) : Prop :=
  (limits.maxSteps = 0 ∨ stats.steps ≤ limits.maxSteps) ∧
    (limits.maxThreads = 0 ∨ stats.peak ≤ limits.maxThreads)

/-- No bound of `wide` is tighter than the one of `narrow`. -/
def Relaxes (wide narrow : Limits) : Prop :=
  (wide.maxSteps = 0 ∨ narrow.maxSteps ≠ 0 ∧ narrow.maxSteps ≤ wide.maxSteps) ∧
    (wide.maxThreads = 0 ∨ narrow.maxThreads ≠ 0 ∧ narrow.maxThreads ≤ wide.maxThreads)

theorem allowsSteps_iff {limits : Limits} {n : Nat} :
    limits.allowsSteps n = true ↔ limits.maxSteps = 0 ∨ n ≤ limits.maxSteps := by
  simp [allowsSteps]

theorem allowsThreads_iff {limits : Limits} {n : Nat} :
    limits.allowsThreads n = true ↔ limits.maxThreads = 0 ∨ n ≤ limits.maxThreads := by
  simp [allowsThreads]

theorem Admits.of_relaxes {wide narrow : Limits} {stats : Stats} (h : narrow.Admits stats)
    (hw : wide.Relaxes narrow) : wide.Admits stats := by
  obtain ⟨hs, ht⟩ := h
  obtain ⟨hws, hwt⟩ := hw
  constructor <;> omega

end Limits

namespace Machine

/-! ## The run without limits -/

section
variable {p : Program} {m : Machine} (hc : m.Counted)
include hc

theorem steps_run_none : (m.run p .none).stats.steps = m.stats.steps + (m.trace p).length := by
  refine run_induction p (P := fun m =>
    (m.run p .none).stats.steps = m.stats.steps + (m.trace p).length) ?_ ?_ hc
  · intro m r _ h
    rw [run_of_done h, trace_of_done h]
    rcases done_of_step h with ⟨-, rfl⟩ | ⟨-, -, rfl⟩ <;> rfl
  · intro m m' _ h hnext ih
    rw [run_of_running h, trace_of_running h, ih, hnext.steps, List.length_cons]
    omega

theorem steps_lt_run_none : m.stats.steps < (m.run p .none).stats.steps := by
  have hpos : 0 < (m.trace p).length := by
    rw [Machine.trace]
    simp
  have := steps_run_none (p := p) hc
  omega

theorem peak_le_run_none : m.stats.peak ≤ (m.run p .none).stats.peak := by
  refine run_induction p (P := fun m => m.stats.peak ≤ (m.run p .none).stats.peak) ?_ ?_ hc
  · intro m r _ h
    rw [run_of_done h]
    rcases done_of_step h with ⟨-, rfl⟩ | ⟨-, -, rfl⟩ <;> exact Nat.le_refl _
  · intro m m' _ h hnext ih
    rw [run_of_running h]
    have := hnext.peak
    omega

/-- A fork shows in the peak. -/
theorem fork?_le_peak_run_none {n : Nat} (hn : m.fork? p = some n) :
    n ≤ (m.run p .none).stats.peak := by
  obtain ⟨⟨t, u, hmove⟩, -⟩ := fork?_eq_some_iff.1 hn
  cases h : m.step p .none with
  | done r => rcases done_of_step h with ⟨hmove', -⟩ | ⟨hmove', -⟩ <;> simp [hmove] at hmove'
  | running m' =>
    have hnext := next_of_step hc h
    have hpeak := hnext.peak
    rw [hn, Option.getD_some] at hpeak
    have := peak_le_run_none (p := p) hnext.counted
    rw [run_of_running h]
    omega

end

/-! ## Refusals -/

/-- Is the next instruction a fork that would leave more threads alive than the limits allow? -/
def exceeds (p : Program) (limits : Limits) (m : Machine) : Bool :=
  (m.fork? p).any fun n => !limits.allowsThreads n

/-- The number of the first such instruction in the run without limits that starts here. -/
def firstExcess? (p : Program) (limits : Limits) (m : Machine) : Option Nat :=
  ((m.trace p).findIdx? (exceeds p limits)).map fun i => m.stats.steps + i + 1

section
variable {p : Program} {limits : Limits} {m : Machine}

theorem exceeds_eq_true_iff :
    m.exceeds p limits = true ↔ ∃ n, m.fork? p = some n ∧ limits.allowsThreads n = false := by
  simp [exceeds, Option.any_eq_true]

theorem exceeds_eq_false_iff :
    m.exceeds p limits = false ↔ ∀ n, m.fork? p = some n → limits.allowsThreads n = true := by
  simp [exceeds, Option.any_eq_false]

theorem lt_of_firstExcess? {n : Nat} (h : m.firstExcess? p limits = some n) :
    m.stats.steps < n := by
  obtain ⟨i, -, rfl⟩ := Option.map_eq_some_iff.1 h
  omega

theorem firstExcess?_of_exceeds (h : m.exceeds p limits = true) :
    m.firstExcess? p limits = some (m.stats.steps + 1) := by
  rw [firstExcess?, Machine.trace, List.findIdx?_cons, h]
  rfl

theorem firstExcess?_of_running {m' : Machine} (h : m.exceeds p limits = false)
    (hstep : m.step p .none = .running m') (hsteps : m'.stats.steps = m.stats.steps + 1) :
    m.firstExcess? p limits = m'.firstExcess? p limits := by
  rw [firstExcess?, firstExcess?, trace_of_running hstep, List.findIdx?_cons, h, hsteps]
  simp only [Bool.false_eq_true, if_false, Option.map_map]
  congr 1
  funext i
  simp only [Function.comp]
  omega

end

/-- How the run under limits follows from the run without limits and its first excess. -/
structure Limited (limits : Limits) (first : Option Nat) (free limited : Report) : Prop where
  admitted : limits.Admits free.stats → limited = free
  threads : ¬limits.Admits free.stats → ∀ n, first = some n → limits.allowsSteps n = true →
    limited.verdict = .error .threads ∧ limited.stats.steps = n
  steps : ¬limits.Admits free.stats → (∀ n, first = some n → limits.allowsSteps n = false) →
    limited.verdict = .error .steps ∧ limited.stats.steps = limits.maxSteps + 1
  peak : ¬limits.Admits free.stats →
    limits.maxThreads = 0 ∨ limited.stats.peak ≤ limits.maxThreads

theorem Limited.of_admits {limits : Limits} {first : Option Nat} {free : Report}
    (h : limits.Admits free.stats) : Limited limits first free free where
  admitted := fun _ => rfl
  threads := fun hna => absurd h hna
  steps := fun hna => absurd h hna
  peak := fun hna => absurd h hna

/-- The run under limits gives a verdict exactly if the run without them stays within them. -/
theorem Limited.verdict_iff {limits : Limits} {first : Option Nat} {free limited : Report}
    (h : Limited limits first free limited) (hfree : ∃ v, free.verdict = .ok v) :
    (∃ v, limited.verdict = .ok v) ↔ limits.Admits free.stats := by
  constructor
  · rintro ⟨v, hv⟩
    by_contra hna
    by_cases hfirst : ∃ n, first = some n ∧ limits.allowsSteps n = true
    · obtain ⟨n, hn, hs⟩ := hfirst
      obtain ⟨herror, -⟩ := h.threads hna n hn hs
      rw [hv] at herror
      cases herror
    · have hlate : ∀ n, first = some n → limits.allowsSteps n = false := by
        intro n hn
        by_contra hs
        apply hfirst
        exact ⟨n, hn, by simpa using hs⟩
      obtain ⟨herror, -⟩ := h.steps hna hlate
      rw [hv] at herror
      cases herror
  · intro ha
    rw [h.admitted ha]
    exact hfree

/-- An instruction that the limits admit leaves the run within them. -/
theorem Next.admits {p : Program} {limits : Limits} {m m' : Machine} (h : Next p m m')
    (ha : limits.Admits m.stats) (hs : limits.allowsSteps (m.stats.steps + 1) = true)
    (hx : m.exceeds p limits = false) : limits.Admits m'.stats := by
  constructor
  · rw [h.steps]
    exact Limits.allowsSteps_iff.1 hs
  · have hpeak := ha.2
    rw [h.peak]
    cases hn : m.fork? p with
    | none => simpa using hpeak
    | some n =>
      have := Limits.allowsThreads_iff.1 (exceeds_eq_false_iff.1 hx n hn)
      rw [Option.getD_some]
      omega

section
variable {p : Program} {limits : Limits} {m : Machine}

/-- The limit of steps is reached, so the next instruction has the first number that is refused. -/
theorem limited_of_steps_refused (hc : m.Counted) (ha : limits.Admits m.stats)
    (hs : limits.allowsSteps (m.stats.steps + 1) = false) :
    Limited limits (m.firstExcess? p limits) (m.run p .none) (m.run p limits) := by
  have hrun := run_of_done (step_of_steps_refused (p := p) hs)
  have hmax : limits.maxSteps ≠ 0 ∧ limits.maxSteps < m.stats.steps + 1 := by
    have := mt Limits.allowsSteps_iff.2 (ne_true_of_eq_false hs)
    omega
  have hfree : ¬limits.Admits (m.run p .none).stats := by
    intro h
    have := steps_lt_run_none (p := p) hc
    have := h.1
    omega
  rw [hrun]
  refine ⟨fun h => absurd h hfree, fun _ n hn hallow => ?_, fun _ _ => ⟨rfl, ?_⟩, fun _ => ha.2⟩
  · have := lt_of_firstExcess? hn
    have := Limits.allowsSteps_iff.1 hallow
    omega
  · have := ha.1
    show m.stats.steps + 1 = limits.maxSteps + 1
    omega

/-- The next instruction is admitted by its number, but is a fork that is not. -/
theorem limited_of_exceeds (hc : m.Counted) (ha : limits.Admits m.stats)
    (hs : limits.allowsSteps (m.stats.steps + 1) = true) (hx : m.exceeds p limits = true) :
    Limited limits (m.firstExcess? p limits) (m.run p .none) (m.run p limits) := by
  obtain ⟨n, hn, ht⟩ := exceeds_eq_true_iff.1 hx
  have hrun := run_of_done (step_of_threads_refused hc hs hn ht)
  have hfree : ¬limits.Admits (m.run p .none).stats := by
    intro h
    have := fork?_le_peak_run_none hc hn
    have := h.2
    have := mt Limits.allowsThreads_iff.2 (ne_true_of_eq_false ht)
    omega
  rw [hrun, firstExcess?_of_exceeds hx]
  refine ⟨fun h => absurd h hfree, fun _ k hk _ => ⟨rfl, Option.some.inj hk⟩, fun _ h => ?_,
    fun _ => ha.2⟩
  rw [h _ rfl] at hs
  cases hs

/-- The two limits are checked one after the other, so only the instruction that passes both is
left to consider. -/
theorem limited_of_admitted (hc : m.Counted) (ha : limits.Admits m.stats)
    (h : limits.allowsSteps (m.stats.steps + 1) = true → m.exceeds p limits = false →
      Limited limits (m.firstExcess? p limits) (m.run p .none) (m.run p limits)) :
    Limited limits (m.firstExcess? p limits) (m.run p .none) (m.run p limits) := by
  by_cases hs : limits.allowsSteps (m.stats.steps + 1) = true
  · by_cases hx : m.exceeds p limits = true
    · exact limited_of_exceeds hc ha hs hx
    · exact h hs (by simpa using hx)
  · exact limited_of_steps_refused hc ha (by simpa using hs)

theorem limited_run (hc : m.Counted) (ha : limits.Admits m.stats) :
    Limited limits (m.firstExcess? p limits) (m.run p .none) (m.run p limits) := by
  revert ha
  refine run_induction p (P := fun m => limits.Admits m.stats →
    Limited limits (m.firstExcess? p limits) (m.run p .none) (m.run p limits)) ?_ ?_ hc
  · intro m r hc hstep ha
    refine limited_of_admitted hc ha fun hs hx => ?_
    have hstep' := step_of_admitted hc hs (exceeds_eq_false_iff.1 hx)
    have hr : r.stats = m.stepped := by
      rcases done_of_step hstep with ⟨-, rfl⟩ | ⟨-, -, rfl⟩ <;> rfl
    rw [run_of_done hstep, run_of_done (hstep'.trans hstep)]
    apply Limited.of_admits
    rw [hr]
    exact ⟨Limits.allowsSteps_iff.1 hs, ha.2⟩
  · intro m m' hc hstep hnext ih ha
    refine limited_of_admitted hc ha fun hs hx => ?_
    have hstep' := step_of_admitted hc hs (exceeds_eq_false_iff.1 hx)
    rw [run_of_running hstep, run_of_running (hstep'.trans hstep),
      firstExcess?_of_running hx hstep hnext.steps]
    exact ih (hnext.admits ha hs hx)

end

end Machine

namespace Program

/-- The number of the first instruction, in the run without limits, that is a fork and would leave
more threads alive than the limits allow. -/
def firstExcess? (p : Program) (limits : Limits) (input : Bytes) : Option Nat :=
  ((p.trace input).findIdx? (Machine.exceeds p limits)).map (· + 1)

theorem limited_run (p : Program) (limits : Limits) (input : Bytes) :
    Machine.Limited limits (p.firstExcess? limits input) (p.run .none input)
      (p.run limits input) := by
  unfold firstExcess? trace run
  split
  · apply Machine.Limited.of_admits
    exact ⟨.inr (Nat.zero_le _), .inr (Nat.zero_le _)⟩
  · have ha : limits.Admits (Machine.start input).stats := by
      constructor <;> simp only [Machine.start] <;> omega
    have h := Machine.limited_run (p := p) (Machine.counted_start input) ha
    simpa [Machine.firstExcess?, Machine.start] using h

/-- A verdict under limits is the verdict without them. -/
theorem verdict_run_none_of_ok {p : Program} {limits : Limits} {input : Bytes} {v : Bool}
    (h : (p.run limits input).verdict = .ok v) : (p.run .none input).verdict = .ok v := by
  have hlimited := p.limited_run limits input
  obtain ⟨w, hw, -⟩ := p.verdict_run_none input
  have hadmits := (hlimited.verdict_iff ⟨w, hw⟩).1 ⟨v, h⟩
  rwa [hlimited.admitted hadmits] at h

/-! ## Main statement -/

/-- **Limits are transparent and exact.**  A run under limits gives a verdict if and only if the
run without limits stays within them, and then the two reports are the same.  Otherwise it ends
with the limit that is hit first: the limit of threads at the first excess, unless the limit of
steps comes before it.  Limits that are wider than sufficient ones change nothing. -/
theorem run_limits (p : Program) (limits : Limits) (input : Bytes) :
    (∃ v, (p.run .none input).verdict = .ok v) ∧
    ((∃ v, (p.run limits input).verdict = .ok v) ↔ limits.Admits (p.run .none input).stats) ∧
    (limits.Admits (p.run .none input).stats → p.run limits input = p.run .none input) ∧
    (¬limits.Admits (p.run .none input).stats →
      (∀ n, p.firstExcess? limits input = some n → (limits.maxSteps = 0 ∨ n ≤ limits.maxSteps) →
        (p.run limits input).verdict = .error .threads ∧ (p.run limits input).stats.steps = n) ∧
      ((∀ n, p.firstExcess? limits input = some n → ¬(limits.maxSteps = 0 ∨ n ≤ limits.maxSteps)) →
        (p.run limits input).verdict = .error .steps ∧
          (p.run limits input).stats.steps = limits.maxSteps + 1) ∧
      (limits.maxThreads = 0 ∨ (p.run limits input).stats.peak ≤ limits.maxThreads)) ∧
    (∀ wide : Limits, wide.Relaxes limits → (∃ v, (p.run limits input).verdict = .ok v) →
      p.run wide input = p.run limits input) := by
  have h := p.limited_run limits input
  obtain ⟨v, hv, -⟩ := p.verdict_run_none input
  have hok := h.verdict_iff ⟨v, hv⟩
  refine ⟨⟨v, hv⟩, hok, h.admitted, fun hna => ⟨?_, ?_, h.peak hna⟩, ?_⟩
  · intro n hn hs
    exact h.threads hna n hn (Limits.allowsSteps_iff.2 hs)
  · intro hs
    apply h.steps hna
    intro n hn
    simpa using mt Limits.allowsSteps_iff.1 (hs n hn)
  · intro wide hwide hw
    have ha := hok.1 hw
    rw [h.admitted ha, (p.limited_run wide input).admitted (ha.of_relaxes hwide)]

end Program

end SweepRegex
