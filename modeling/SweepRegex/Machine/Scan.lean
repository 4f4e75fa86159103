import SweepRegex.Machine.Limits
import SweepRegex.Program

/-!
# Threads in a buffer

The threads of a run as they are stored: in one buffer, over which two cursors go in each sweep.
The thread under the read cursor is visited.  If it goes on in the next sweep, it is stored under
the write cursor, over a thread that was visited before; the new thread of a fork goes to the end
of the buffer, where this sweep will come to it.  After the sweep the buffer is cut at the write
cursor, and both cursors go back to its start.

The input is not cut up: a stored thread has an offset.  Nothing is taken on trust here, so the
program, the input and the buffer are read and written by index, and where an index is outside
there is no result.
-/

namespace SweepRegex

/-! ## One instruction -/

/-- A thread as it is stored. -/
structure Cell where
  /-- The place in the program. -/
  pc : Nat
  /-- Branches taken since a byte was last consumed. -/
  idle : Nat
  /-- The place in the input. -/
  offset : Nat
deriving DecidableEq

/-- What carrying out one instruction does to a stored thread. -/
inductive Cell.Effect where
  /-- The input consumed so far matches. -/
  | accept
  /-- The thread ends. -/
  | drop
  /-- A byte is consumed. -/
  | consume (c : Cell)
  /-- The thread goes on elsewhere. -/
  | jump (c : Cell)
  /-- The thread goes on at one place, and a new one at another. -/
  | fork (c d : Cell)
deriving DecidableEq

/-- The effect of the next instruction of a stored thread. -/
def Cell.effect? (p : Program) (input : Bytes) (c : Cell) : Option Effect :=
  match p.code[c.pc]? with
  | none => none
  | some (.byte b) =>
    if c.offset < input.length then
      match input[c.offset]? with
      | none => none
      | some x => some (if x = b then .consume ⟨c.pc + 1, 0, c.offset + 1⟩ else .drop)
    else some .drop
  | some .any =>
    some (if c.offset < input.length then .consume ⟨c.pc + 1, 0, c.offset + 1⟩ else .drop)
  | some .accept => some .accept
  | some (.jump x) =>
    some (if c.idle < p.size then .jump ⟨x, c.idle + 1, c.offset⟩ else .drop)
  | some (.split x y) =>
    some (if c.idle < p.size then
      .fork ⟨x, c.idle + 1, c.offset⟩ ⟨y, c.idle + 1, c.offset⟩ else .drop)

/-! ## Sweeps over the buffer -/

/-- The buffer of a run, between two instructions. -/
structure Scan where
  /-- The stored threads: those kept so far, others that were visited, those still to be visited. -/
  cells : Array Cell
  /-- Where the thread stands that is being visited. -/
  read : Nat
  /-- Where the next thread that is kept will stand. -/
  write : Nat
  /-- The thread being visited, which may have followed jumps since it was read. -/
  current : Cell
  /-- What the run took so far. -/
  stats : Stats

namespace Scan

/-- The outcome of one instruction. -/
inductive Progress where
  | done (report : Report)
  | running (s : Scan)

/-- One thread at the start of the program and of the input, in the first sweep. -/
def start : Scan where
  cells := #[⟨0, 0, 0⟩]
  read := 0
  write := 0
  current := ⟨0, 0, 0⟩
  stats := ⟨0, 1, 1⟩

/-- How many threads are alive if the next instruction is a fork: those kept so far, those not yet
visited with the one being visited, and the new one. -/
def live (s : Scan) : Nat := s.write + (s.cells.size - s.read) + 1

/-- Goes on to the next thread of the buffer, in the next sweep if this one is over.  Without
threads there is no match. -/
def visitNext (cells : Array Cell) (read write : Nat) (stats : Stats) : Option Progress :=
  if read + 1 < cells.size then
    match cells[read + 1]? with
    | none => none
    | some current => some (.running { cells, read := read + 1, write, current, stats })
  else
    let cells := cells.shrink write
    if cells.isEmpty then some (.done ⟨.ok false, stats⟩)
    else
      match cells[0]? with
      | none => none
      | some current =>
        some (.running { cells, read := 0, write := 0, current,
                         stats := { stats with sweeps := stats.sweeps + 1 } })

/-- Stores a thread for the next sweep and goes on. -/
def keep (cells : Array Cell) (read write : Nat) (c : Cell) (stats : Stats) : Option Progress :=
  if h : write < cells.size then visitNext (cells.set write c) read (write + 1) stats else none

/-- Carries out one instruction.  Both limits are checked before it takes effect. -/
def step (p : Program) (limits : Limits) (input : Bytes) (s : Scan) : Option Progress :=
  let stats := { s.stats with steps := s.stats.steps + 1 }
  if !limits.allowsSteps stats.steps then some (.done ⟨.error .steps, stats⟩)
  else
    match s.current.effect? p input with
    | none => none
    | some .accept => some (.done ⟨.ok true, stats⟩)
    | some .drop => visitNext s.cells s.read s.write stats
    | some (.consume c) => keep s.cells s.read s.write c stats
    | some (.jump c) => some (.running { s with current := c, stats })
    | some (.fork c d) =>
      if !limits.allowsThreads s.live then some (.done ⟨.error .threads, stats⟩)
      else
        keep (s.cells.push d) s.read s.write c { stats with peak := max stats.peak s.live }

/-- The run that starts with this buffer carries out its instructions in these states of it, one
after the other, and ends with the report.  There is no such run if an index is ever outside. -/
inductive Runs (p : Program) (limits : Limits) (input : Bytes) :
    Scan → List Scan → Report → Prop where
  | done {s : Scan} {r : Report} :
      s.step p limits input = some (.done r) → Runs p limits input s [s] r
  | running {s s' : Scan} {visits : List Scan} {r : Report} :
      s.step p limits input = some (.running s') → Runs p limits input s' visits r →
      Runs p limits input s (s :: visits) r

/-! ## Lemmas -/

/-- The statistics after one more instruction. -/
def stepped (s : Scan) : Stats := { s.stats with steps := s.stats.steps + 1 }

/-- An instruction that does not end the run was admitted by both limits, and drops the thread,
keeps it, follows a jump, or keeps it and adds another. -/
theorem running_cases {p : Program} {limits : Limits} {input : Bytes} {s s' : Scan}
    (h : s.step p limits input = some (.running s')) :
    (s.current.effect? p input = some .drop ∧
      visitNext s.cells s.read s.write s.stepped = some (.running s')) ∨
    (∃ c, s.current.effect? p input = some (.consume c) ∧
      keep s.cells s.read s.write c s.stepped = some (.running s')) ∨
    (∃ c, s.current.effect? p input = some (.jump c) ∧
      s' = { s with current := c, stats := s.stepped }) ∨
    ∃ c d, s.current.effect? p input = some (.fork c d) ∧
      limits.allowsThreads s.live = true ∧
      keep (s.cells.push d) s.read s.write c
        { s.stepped with peak := max s.stats.peak s.live } = some (.running s') := by
  unfold step at h
  simp only at h
  split at h
  · cases h
  · split at h
    · cases h
    · cases h
    · next he => exact .inl ⟨he, h⟩
    · next c he => exact .inr (.inl ⟨c, he, h⟩)
    · next c he =>
      cases h
      exact .inr (.inr (.inl ⟨c, he, rfl⟩))
    · next c d he =>
      split at h
      · cases h
      · next hlive => exact .inr (.inr (.inr ⟨c, d, he, by simpa using hlive, h⟩))

end Scan

end SweepRegex
