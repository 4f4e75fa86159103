import SweepRegex.Machine.Run

/-!
# Runs step by step

What one instruction can do to a machine, said once.  The counter of threads is right in every
machine a run goes through (`Counted`).  Under limits that admit it, an instruction has the effect
it has without limits; the others end the run at once.  `run_induction` follows a run without
limits to its end, and `trace` lists the machines on the way.
-/

namespace SweepRegex

namespace Machine

/-! ## Machines -/

/-- The threads other than the one being visited. -/
def others (m : Machine) : List Thread := m.waiting.toList ++ m.kept.toList

/-- The counter of threads is right. -/
def Counted (m : Machine) : Prop := m.live = m.threads.length

/-- How many threads are alive once the next instruction is carried out, if it is a fork. -/
def fork? (p : Program) (m : Machine) : Option Nat :=
  match p.move m.current with
  | .fork _ _ => some (m.threads.length + 1)
  | _ => none

theorem mem_threads_iff {m : Machine} {t : Thread} :
    t ∈ m.threads ↔ t = m.current ∨ t ∈ m.others := List.mem_cons

theorem length_threads (m : Machine) : m.threads.length = m.others.length + 1 := rfl

theorem counted_start (input : Bytes) : (start input).Counted := rfl

theorem fork?_eq_some_iff {p : Program} {m : Machine} {n : Nat} :
    m.fork? p = some n ↔ (∃ t u, p.move m.current = .fork t u) ∧ m.threads.length + 1 = n := by
  unfold fork?
  split
  · next t u h => simp [h]
  · next h => simpa using fun t u htu => absurd htu (h t u)

/-! ## One instruction -/

/-- The next thread is one that waits for its visit in this sweep; if there is none, the next sweep
begins with those kept for it; if there is none of these either, the run is over. -/
theorem visitNext_cases (waiting kept : Queue Thread) (live : Nat) (stats : Stats) :
    (∃ t rest, waiting.toList = t :: rest.toList ∧
      visitNext waiting kept live stats = .running ⟨t, rest, kept, live, stats⟩) ∨
    (waiting.toList = [] ∧ ∃ t rest, kept.toList = t :: rest.toList ∧
      visitNext waiting kept live stats =
        .running ⟨t, rest, .empty, live, { stats with sweeps := stats.sweeps + 1 }⟩) ∨
    (waiting.toList = [] ∧ kept.toList = [] ∧
      visitNext waiting kept live stats = .done ⟨.ok false, stats⟩) := by
  unfold visitNext
  cases hw : waiting.dequeue? with
  | some tr => exact .inl ⟨tr.1, tr.2, Queue.toList_of_dequeue? hw, rfl⟩
  | none =>
    have hw' := (Queue.dequeue?_eq_none_iff _).1 hw
    cases hk : kept.dequeue? with
    | some tr => exact .inr (.inl ⟨hw', tr.1, tr.2, Queue.toList_of_dequeue? hk, rfl⟩)
    | none => exact .inr (.inr ⟨hw', (Queue.dequeue?_eq_none_iff _).1 hk, rfl⟩)

/-- Going on to the next thread changes no thread, and of the statistics only the sweeps. -/
theorem visitNext_running {waiting kept : Queue Thread} {live : Nat} {stats : Stats} {m : Machine}
    (h : visitNext waiting kept live stats = .running m) :
    m.threads = waiting.toList ++ kept.toList ∧ m.live = live ∧
      m.stats.steps = stats.steps ∧ m.stats.peak = stats.peak := by
  rcases visitNext_cases waiting kept live stats with
    ⟨t, rest, hw, hv⟩ | ⟨hw, t, rest, hk, hv⟩ | ⟨-, -, hv⟩
  · rw [h] at hv
    cases hv
    simp [threads, hw]
  · rw [h] at hv
    cases hv
    simp [threads, hw, hk]
  · rw [h] at hv
    cases hv

theorem visitNext_done {waiting kept : Queue Thread} {live : Nat} {stats : Stats} {r : Report}
    (h : visitNext waiting kept live stats = .done r) :
    waiting.toList ++ kept.toList = [] ∧ r = ⟨.ok false, stats⟩ := by
  rcases visitNext_cases waiting kept live stats with
    ⟨t, rest, hw, hv⟩ | ⟨hw, t, rest, hk, hv⟩ | ⟨hw, hk, hv⟩
  · rw [h] at hv
    cases hv
  · rw [h] at hv
    cases hv
  · rw [h] at hv
    cases hv
    simp [hw, hk]

/-- The statistics after one more instruction. -/
def stepped (m : Machine) : Stats := { m.stats with steps := m.stats.steps + 1 }

/-- An instruction without limits, by the move of the thread. -/
theorem step_none (p : Program) (m : Machine) :
    m.step p .none =
      match p.move m.current with
      | .accept => .done ⟨.ok true, m.stepped⟩
      | .drop => visitNext m.waiting m.kept (m.live - 1) m.stepped
      | .consume t => visitNext m.waiting (m.kept.enqueue t) m.live m.stepped
      | .jump t => .running { m with current := t, stats := m.stepped }
      | .fork t u =>
        visitNext (m.waiting.enqueue u) (m.kept.enqueue t) (m.live + 1)
          { m.stepped with peak := max m.stats.peak (m.live + 1) } := by
  unfold step
  cases p.move m.current <;> rfl

/-- What an instruction without limits does if it does not end the run. -/
structure Next (p : Program) (m m' : Machine) : Prop where
  not_accept : p.move m.current ≠ .accept
  threads : m'.threads.Perm ((p.move m.current).threads ++ m.others)
  counted : m'.Counted
  steps : m'.stats.steps = m.stats.steps + 1
  peak : m'.stats.peak = max m.stats.peak ((m.fork? p).getD 0)

/-- Going on to the next thread completes an instruction: the thread moved leaves its successors
behind, and the others are still there. -/
theorem next_of_visitNext {p : Program} {m m' : Machine} {waiting kept : Queue Thread} {live : Nat}
    {stats : Stats} (h : visitNext waiting kept live stats = .running m')
    (hmove : p.move m.current ≠ .accept)
    (hperm : (waiting.toList ++ kept.toList).Perm ((p.move m.current).threads ++ m.others))
    (hlive : live = (p.move m.current).threads.length + m.others.length)
    (hsteps : stats.steps = m.stats.steps + 1)
    (hpeak : stats.peak = max m.stats.peak ((m.fork? p).getD 0)) : Next p m m' := by
  obtain ⟨ht, hl, hs, hp⟩ := visitNext_running h
  refine ⟨hmove, by rwa [ht], ?_, hs.trans hsteps, hp.trans hpeak⟩
  rw [Counted, hl, ht, hperm.length_eq, hlive, List.length_append]

theorem next_of_step {p : Program} {m m' : Machine} (hc : m.Counted)
    (h : m.step p .none = .running m') : Next p m m' := by
  have hlive : m.live = m.others.length + 1 := hc
  rw [step_none] at h
  cases hmove : p.move m.current with
  | accept =>
    rw [hmove] at h
    cases h
  | drop =>
    rw [hmove] at h
    refine next_of_visitNext h (by simp [hmove]) ?_ ?_ rfl ?_
    · simp [hmove, Move.threads, others]
    · simp [hmove, Move.threads, hlive]
    · simp [fork?, hmove, stepped]
  | consume t =>
    rw [hmove] at h
    refine next_of_visitNext h (by simp [hmove]) ?_ ?_ rfl ?_
    · rw [hmove, Queue.toList_enqueue, ← List.append_assoc]
      exact List.perm_append_comm
    · simp [hmove, Move.threads, hlive, Nat.add_comm]
    · simp [fork?, hmove, stepped]
  | jump t =>
    rw [hmove] at h
    cases h
    refine ⟨by simp [hmove], ?_, hlive, rfl, ?_⟩
    · rw [hmove]
      exact .refl _
    · simp [fork?, hmove, stepped]
  | fork t u =>
    rw [hmove] at h
    refine next_of_visitNext h (by simp [hmove]) ?_ ?_ rfl ?_
    · -- the new thread joined the end of this sweep, the forking one goes on in the next
      have ht := List.perm_append_singleton t (m.waiting.toList ++ u :: m.kept.toList)
      have hu : (m.waiting.toList ++ u :: m.kept.toList).Perm (u :: m.others) := List.perm_middle
      simpa [hmove, Move.threads] using ht.trans (hu.cons t)
    · simp [hmove, Move.threads, hlive]; omega
    · simp [fork?, hmove, length_threads, hlive]

/-- An instruction without limits that ends the run accepts, or loses the last thread. -/
theorem done_of_step {p : Program} {m : Machine} {r : Report} (h : m.step p .none = .done r) :
    p.move m.current = .accept ∧ r = ⟨.ok true, m.stepped⟩ ∨
      p.move m.current = .drop ∧ m.others = [] ∧ r = ⟨.ok false, m.stepped⟩ := by
  rw [step_none] at h
  cases hmove : p.move m.current with
  | accept =>
    rw [hmove] at h
    cases h
    exact .inl ⟨rfl, rfl⟩
  | drop =>
    rw [hmove] at h
    exact .inr ⟨rfl, visitNext_done h⟩
  | consume t =>
    rw [hmove] at h
    simpa using (visitNext_done h).1
  | jump t =>
    rw [hmove] at h
    cases h
  | fork t u =>
    rw [hmove] at h
    simpa using (visitNext_done h).1

/-! ## Instructions under limits -/

/-- A limit refuses the instruction, or it has the effect it has without limits. -/
theorem step_cases (p : Program) (limits : Limits) (m : Machine) :
    m.step p limits = .done ⟨.error .steps, m.stepped⟩ ∨
      m.step p limits = .done ⟨.error .threads, m.stepped⟩ ∨
        m.step p limits = m.step p .none := by
  by_cases hs : limits.allowsSteps (m.stats.steps + 1) = true
  · right
    rw [step_none]
    cases hmove : p.move m.current with
    | fork t u =>
      by_cases ht : limits.allowsThreads (m.live + 1) = true
      · right
        simp [step, hs, hmove, ht, stepped]
      · left
        simp [step, hs, hmove, ht, stepped]
    | _ => simp [step, hs, hmove, stepped]
  · left
    simp [step, hs, stepped]

section
variable {p : Program} {limits : Limits} {m : Machine}

theorem step_none_of_running {m' : Machine} (h : m.step p limits = .running m') :
    m.step p .none = .running m' := by
  rcases step_cases p limits m with hs | hs | hs
  · rw [h] at hs
    cases hs
  · rw [h] at hs
    cases hs
  · rw [← hs, h]

/-- The instruction that ends a run is counted, and changes the statistics in no other way. -/
theorem stats_of_done {r : Report} (h : m.step p limits = .done r) : r.stats = m.stepped := by
  rcases step_cases p limits m with hs | hs | hs
  · rw [h] at hs
    cases hs
    rfl
  · rw [h] at hs
    cases hs
    rfl
  · rw [h] at hs
    rcases done_of_step hs.symm with ⟨-, rfl⟩ | ⟨-, -, rfl⟩ <;> rfl

/-- Limits that admit an instruction do not change it. -/
theorem step_of_admitted (hc : m.Counted) (hs : limits.allowsSteps (m.stats.steps + 1) = true)
    (ht : ∀ n, m.fork? p = some n → limits.allowsThreads n = true) :
    m.step p limits = m.step p .none := by
  rw [step_none]
  cases hmove : p.move m.current with
  | fork t u =>
    have hlive : limits.allowsThreads (m.live + 1) = true := by
      rw [hc]
      exact ht _ (fork?_eq_some_iff.2 ⟨⟨t, u, hmove⟩, rfl⟩)
    simp [step, hs, hmove, hlive, stepped]
  | _ => simp [step, hs, hmove, stepped]

theorem step_of_steps_refused (hs : limits.allowsSteps (m.stats.steps + 1) = false) :
    m.step p limits = .done ⟨.error .steps, m.stepped⟩ := by
  simp [step, hs, stepped]

theorem step_of_threads_refused (hc : m.Counted)
    (hs : limits.allowsSteps (m.stats.steps + 1) = true) {n : Nat} (hn : m.fork? p = some n)
    (ht : limits.allowsThreads n = false) :
    m.step p limits = .done ⟨.error .threads, m.stepped⟩ := by
  obtain ⟨⟨t, u, hmove⟩, rfl⟩ := fork?_eq_some_iff.1 hn
  rw [← hc] at ht
  simp [step, hs, hmove, ht, stepped]

/-! ## Whole runs -/

theorem run_of_done {r : Report} (h : m.step p limits = .done r) : m.run p limits = r := by
  rw [run_eq_step, h]

theorem run_of_running {m' : Machine} (h : m.step p limits = .running m') :
    m.run p limits = m'.run p limits := by
  rw [run_eq_step, h]

end

/-- What a machine whose next instruction ends the run has to do with the report, and a machine if
the next one has, every machine has to do with the report of its run. -/
theorem run_report_induction (p : Program) (limits : Limits) {P : Machine → Report → Prop}
    (done : ∀ m r, m.step p limits = .done r → P m r)
    (running : ∀ m m' r, m.step p limits = .running m' → P m' r → P m r) (m : Machine) :
    P m (m.run p limits) := by
  induction hpending : m.pending p using Nat.strongRecOn generalizing m with
  | ind n ih =>
    cases h : m.step p limits with
    | done r =>
      rw [run_of_done h]
      exact done m r h
    | running m' =>
      have hlt := pending_step h
      rw [run_of_running h]
      exact running m m' _ h (ih (m'.pending p) (by omega) m' rfl)

/-- What holds of a machine whose next instruction ends the run without limits, and of a machine if
it holds of the next one, holds of every machine. -/
theorem run_induction (p : Program) {P : Machine → Prop}
    (done : ∀ m r, m.Counted → m.step p .none = .done r → P m)
    (running : ∀ m m', m.Counted → m.step p .none = .running m' → Next p m m' → P m' → P m)
    {m : Machine} (hc : m.Counted) : P m := by
  refine run_report_induction p .none (P := fun m _ => m.Counted → P m) ?_ ?_ m hc
  · intro m r h hc
    exact done m r hc h
  · intro m m' _ h ih hc
    have hnext := next_of_step hc h
    exact running m m' hc h hnext (ih hnext.counted)

/-- The machines a run without limits goes through, each of which carries out one instruction. -/
def trace (p : Program) (m : Machine) : List Machine :=
  m :: match _ : m.step p .none with
    | .done _ => []
    | .running m' => m'.trace p
termination_by m.pending p
decreasing_by
  have := pending_step ‹m.step p .none = .running m'›
  omega

theorem trace_of_done {p : Program} {m : Machine} {r : Report} (h : m.step p .none = .done r) :
    m.trace p = [m] := by
  rw [trace]
  split <;> next h' => simp_all

theorem trace_of_running {p : Program} {m m' : Machine} (h : m.step p .none = .running m') :
    m.trace p = m :: m'.trace p := by
  rw [trace]
  split <;> next h' => simp_all

end Machine

/-- The machines a run of the program goes through if there are no limits. -/
def Program.trace (p : Program) (input : Bytes) : List Machine :=
  if p.isEmpty then [] else (Machine.start input).trace p

end SweepRegex
