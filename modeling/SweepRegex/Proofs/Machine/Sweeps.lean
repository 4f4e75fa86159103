import SweepRegex.Proofs.Machine.Runs

/-!
# Runs end

Under any limits, and without them, a run ends after finitely many instructions: it follows jumps
for a while, comes to the end of each sweep although forks lengthen it, and begins a last sweep.

How many sweeps there are is bounded by what a single thread can do.  A thread that goes on in the
next sweep is lower there than it was, as is the thread that a fork adds to the sweep under way
(`height_lt_of_mem_move`), so in each sweep all threads are lower by one than they could be in the
sweep before (`Paced`).

    (p.run limits input).stats.sweeps ≤ (input.length + 1) * (p.size + 1)                (run_ends)
-/

namespace SweepRegex

namespace Machine

/-- The run that starts with this machine carries out `n` instructions, and ends with the report. -/
inductive EndsIn (p : Program) (limits : Limits) : Nat → Machine → Report → Prop where
  | done {m : Machine} {r : Report} : m.step p limits = .done r → EndsIn p limits 1 m r
  | running {n : Nat} {m m' : Machine} {r : Report} : m.step p limits = .running m' →
      EndsIn p limits n m' r → EndsIn p limits (n + 1) m r

/-- No thread is so high that it could be alive after the sweep number `bound`.  The threads kept
for the next sweep are lower already. -/
structure Paced (p : Program) (bound : Nat) (m : Machine) : Prop where
  current : p.height m.current + m.stats.sweeps ≤ bound
  waiting : ∀ t ∈ m.waiting.toList, p.height t + m.stats.sweeps ≤ bound
  kept : ∀ t ∈ m.kept.toList, p.height t + m.stats.sweeps + 1 ≤ bound

/-! ## One instruction -/

section
variable {p : Program} {limits : Limits} {bound : Nat} {m m' : Machine}

/-- The threads kept are as low as the next sweep wants them. -/
theorem paced_of_visitNext {waiting kept : Queue Thread} {live : Nat} {stats : Stats}
    (h : visitNext waiting kept live stats = .running m)
    (hw : ∀ t ∈ waiting.toList, p.height t + stats.sweeps ≤ bound)
    (hk : ∀ t ∈ kept.toList, p.height t + stats.sweeps + 1 ≤ bound) : m.Paced p bound := by
  rcases visitNext_cases waiting kept live stats with
    ⟨t, rest, hwaiting, hv⟩ | ⟨-, t, rest, hkept, hv⟩ | ⟨-, -, hv⟩
  · rw [h] at hv
    cases hv
    rw [hwaiting, List.forall_mem_cons] at hw
    exact ⟨hw.1, hw.2, hk⟩
  · rw [h] at hv
    cases hv
    rw [hkept, List.forall_mem_cons] at hk
    exact ⟨hk.1, hk.2, by simp⟩
  · rw [h] at hv
    cases hv

theorem Paced.step (hm : m.Paced p bound) (h : m.step p limits = .running m') :
    m'.Paced p bound := by
  have hlower {t : Thread} (ht : t ∈ (p.move m.current).threads) :
      p.height t + m.stats.sweeps + 1 ≤ bound := by
    have := Program.height_lt_of_mem_move ht
    have := hm.current
    omega
  have hnone := step_none_of_running h
  rw [step_none] at hnone
  cases hmove : p.move m.current with
  | accept =>
    rw [hmove] at hnone
    cases hnone
  | drop =>
    rw [hmove] at hnone
    exact paced_of_visitNext hnone hm.waiting hm.kept
  | consume t =>
    rw [hmove] at hnone hlower
    refine paced_of_visitNext hnone hm.waiting fun u hu => ?_
    rcases Queue.mem_toList_enqueue.1 hu with hu | rfl
    · exact hm.kept u hu
    · exact hlower List.mem_cons_self
  | jump t =>
    rw [hmove] at hnone hlower
    cases hnone
    have hcurrent := hlower List.mem_cons_self
    exact ⟨Nat.le_of_succ_le hcurrent, hm.waiting, hm.kept⟩
  | fork t u =>
    rw [hmove] at hnone hlower
    refine paced_of_visitNext hnone (fun v hv => ?_) fun v hv => ?_
    · rcases Queue.mem_toList_enqueue.1 hv with hv | rfl
      · exact hm.waiting v hv
      · have hnew := hlower (List.mem_cons_of_mem t List.mem_cons_self)
        exact Nat.le_of_succ_le hnew
    · rcases Queue.mem_toList_enqueue.1 hv with hv | rfl
      · exact hm.kept v hv
      · exact hlower List.mem_cons_self

end

/-! ## Whole runs -/

/-- The run carries out as many instructions as it reports. -/
theorem endsIn_run (p : Program) (limits : Limits) {m : Machine} (hc : m.Counted) :
    ∃ n, EndsIn p limits n m (m.run p limits) ∧
      (m.run p limits).stats.steps = m.stats.steps + n := by
  refine run_report_induction p limits (P := fun m r => m.Counted →
    ∃ n, EndsIn p limits n m r ∧ r.stats.steps = m.stats.steps + n) ?_ ?_ m hc
  · intro m r h _
    refine ⟨1, .done h, ?_⟩
    rw [stats_of_done h]
    rfl
  · intro m m' r h ih hc
    have hnext := next_of_step hc (step_none_of_running h)
    obtain ⟨n, hn, hsteps⟩ := ih hnext.counted
    refine ⟨n + 1, .running h hn, ?_⟩
    rw [hsteps, hnext.steps]
    omega

theorem sweeps_run_le (p : Program) (limits : Limits) {bound : Nat} {m : Machine}
    (hm : m.Paced p bound) : (m.run p limits).stats.sweeps ≤ bound := by
  refine run_report_induction p limits (P := fun m r => m.Paced p bound →
    r.stats.sweeps ≤ bound) ?_ ?_ m hm
  · intro m r h hm
    rw [stats_of_done h]
    exact Nat.le_trans (Nat.le_add_left _ _) hm.current
  · intro m m' r h ih hm
    exact ih (hm.step h)

theorem paced_start (p : Program) (input : Bytes) :
    (start input).Paced p ((input.length + 1) * (p.size + 1)) where
  current := by
    show input.length * (p.size + 1) + (p.size - 0) + 1 ≤ _
    rw [Nat.add_mul]
    omega
  waiting := by simp [start]
  kept := by simp [start]

end Machine

/-! ## Main statement -/

/-- **Runs end.**  Under any limits, the run of a program ends after as many instructions as its
report says, so the chains of jumps, the sweeps and their sequence all end.  Of sweeps there are at
most as many as a thread could take part in that fails to match the whole input: one for each
branch it may take, and one for each byte and for the end of the input. -/
theorem Program.run_ends (p : Program) (limits : Limits) (input : Bytes) :
    (p.isEmpty = false →
      Machine.EndsIn p limits (p.run limits input).stats.steps (Machine.start input)
        (p.run limits input)) ∧
    (p.run limits input).stats.sweeps ≤ (input.length + 1) * (p.size + 1) := by
  rw [run]
  split
  · next h => exact ⟨fun h' => absurd (h.symm.trans h') (by simp), Nat.zero_le _⟩
  · obtain ⟨n, hn, hsteps⟩ := Machine.endsIn_run p limits (Machine.counted_start input)
    have hn' : n = ((Machine.start input).run p limits).stats.steps := by
      rw [hsteps]
      exact (Nat.zero_add n).symm
    exact ⟨fun _ => hn' ▸ hn, Machine.sweeps_run_le p limits (Machine.paced_start p input)⟩

end SweepRegex
