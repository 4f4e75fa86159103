import SweepRegex.Machine.Limits
import SweepRegex.Machine.Queue
import SweepRegex.Machine.Thread

/-!
# The thread machine

A machine holds the threads of a run.  It visits them in sweeps: each thread that is alive at the
start of a sweep is visited once, in order, and carries out one instruction, except that a jump is
followed at once.  A thread that forks goes on in the next sweep; the new thread joins the end of
the sweep under way.  Threads are never merged.

Main statement: each step takes exactly one instruction off the work that is pending
(`pending_step`), so every run ends.
-/

namespace SweepRegex

/-- The threads of a run, between two instructions. -/
structure Machine where
  /-- The thread being visited. -/
  current : Thread
  /-- The threads still to be visited in this sweep. -/
  waiting : Queue Thread
  /-- The threads that go on in the next sweep. -/
  kept : Queue Thread
  /-- How many threads there are. -/
  live : Nat
  /-- What the run took so far. -/
  stats : Stats

/-- The outcome of one instruction. -/
inductive Progress where
  | done (report : Report)
  | running (m : Machine)

namespace Machine

/-! ## Algorithm -/

/-- One thread at the start of the program and of the input, in the first sweep. -/
def start (input : Bytes) : Machine where
  current := ⟨0, 0, input⟩
  waiting := .empty
  kept := .empty
  live := 1
  stats := ⟨0, 1, 1⟩

/-- All threads: the one being visited, then those waiting, then those kept. -/
def threads (m : Machine) : List Thread := m.current :: (m.waiting.toList ++ m.kept.toList)

/-- Goes on to the next thread, in the next sweep if this one is over.  Without threads there is
no match. -/
def visitNext (waiting kept : Queue Thread) (live : Nat) (stats : Stats) : Progress :=
  match waiting.dequeue? with
  | some (current, waiting) => .running { current, waiting, kept, live, stats }
  | none =>
    match kept.dequeue? with
    | some (current, waiting) =>
      .running { current, waiting, kept := .empty, live,
                 stats := { stats with sweeps := stats.sweeps + 1 } }
    | none => .done ⟨.ok false, stats⟩

/-- Carries out one instruction.  Both limits are checked before it takes effect. -/
def step (p : Program) (limits : Limits) (m : Machine) : Progress :=
  let stats := { m.stats with steps := m.stats.steps + 1 }
  if !limits.allowsSteps stats.steps then .done ⟨.error .steps, stats⟩
  else
    match p.move m.current with
    | .accept => .done ⟨.ok true, stats⟩
    | .drop => visitNext m.waiting m.kept (m.live - 1) stats
    | .consume t => visitNext m.waiting (m.kept.enqueue t) m.live stats
    | .jump t => .running { m with current := t, stats }
    | .fork t u =>
      let live := m.live + 1
      if !limits.allowsThreads live then .done ⟨.error .threads, stats⟩
      else
        visitNext (m.waiting.enqueue u) (m.kept.enqueue t) live
          { stats with peak := max stats.peak live }

/-- How many instructions are left to carry out if no limit and no match ends the run. -/
def pending (p : Program) (m : Machine) : Nat := p.pathCounts m.threads

/-! ## Lemmas -/

/-- Going on to the next thread neither loses nor adds one. -/
theorem pending_visitNext {p : Program} {waiting kept : Queue Thread} {live : Nat} {stats : Stats}
    {m : Machine} (h : visitNext waiting kept live stats = .running m) :
    m.pending p = p.pathCounts (waiting.toList ++ kept.toList) := by
  unfold visitNext at h
  split at h
  · rename_i t rest hw
    cases h
    simp [pending, threads, Queue.toList_of_dequeue? hw]
  · rename_i hw
    split at h
    · rename_i t rest hk
      cases h
      simp [pending, threads, (Queue.dequeue?_eq_none_iff _).1 hw, Queue.toList_of_dequeue? hk]
    · cases h

/-- A step that does not end the run takes one instruction off the pending work. -/
theorem pending_step {p : Program} {limits : Limits} {m m' : Machine}
    (h : m.step p limits = .running m') : m'.pending p + 1 = m.pending p := by
  have hcount := p.pathCount_eq m.current
  have hm : m.pending p =
      p.pathCount m.current + p.pathCounts (m.waiting.toList ++ m.kept.toList) := rfl
  unfold step at h
  simp only at h
  split at h
  · cases h
  · split at h <;> rename_i hmove <;> rw [hmove] at hcount <;> simp [Move.threads] at hcount
    · cases h
    · rw [pending_visitNext h]
      omega
    · rw [pending_visitNext h]
      simp at hm ⊢
      omega
    · cases h
      simp [pending, threads] at hm ⊢
      omega
    · split at h
      · cases h
      · rw [pending_visitNext h]
        simp at hm ⊢
        omega

end Machine

end SweepRegex
