import SweepRegex.Machine.Scan

/-!
# Buffers step by step

What one instruction can do to a buffer, said once.  The write cursor stays behind the read cursor
(`Sound`), so a thread that is kept takes the place of one that was visited, and those still to be
visited stand where they stood.  Among the threads alive, a fork makes one more and a thread that
ends one less (`Next`).
-/

namespace SweepRegex

/-! ## Buffers -/

/-- The stored thread is at a place of the program and of the input, or at the end of the input,
and its count of branches is one that a thread can reach. -/
structure Cell.Fits (p : Program) (input : Bytes) (c : Cell) : Prop where
  pc_lt : c.pc < p.size
  idle_le : c.idle ≤ p.size
  offset_le : c.offset ≤ input.length

namespace Scan

/-- The threads of the buffer fit, and the write cursor is not past the read cursor. -/
structure Sound (p : Program) (input : Bytes) (s : Scan) : Prop where
  current : s.current.Fits p input
  cells : ∀ c ∈ s.cells, c.Fits p input
  write_le : s.write ≤ s.read
  read_lt : s.read < s.cells.size

/-- Is the next instruction a fork, of a thread that may still take branches? -/
def forks (p : Program) (input : Bytes) (s : Scan) : Bool :=
  match s.current.effect? p input with
  | some (.fork _ _) => true
  | _ => false

/-- Does the thread end with the next instruction? -/
def drops (p : Program) (input : Bytes) (s : Scan) : Bool :=
  match s.current.effect? p input with
  | some .drop => true
  | _ => false

/-- The threads still to be visited in this sweep, after the one being visited. -/
def unvisited (s : Scan) : List Cell := s.cells.toList.drop (s.read + 1)

/-! ## One instruction -/

/-- What an instruction does to the buffer if it does not end the run. -/
structure Next (p : Program) (input : Bytes) (s s' : Scan) : Prop where
  live : s'.live + (s.drops p input).toNat = s.live + (s.forks p input).toNat
  steps : s'.stats.steps = s.stats.steps + 1
  peak : s'.stats.peak = if s.forks p input then max s.stats.peak s.live else s.stats.peak
  /-- The threads still to be visited stand where they stood. -/
  unvisited : s.unvisited <+: s'.cells.toList.drop (s.read + 1)

section
variable {p : Program} {limits : Limits} {input : Bytes} {s s' : Scan} {r : Report}
variable {cells : Array Cell} {read write : Nat} {c : Cell} {stats : Stats}

/-- The visit of the next thread in this sweep. -/
theorem visitNext_of_lt (h : read + 1 < cells.size) (write : Nat) (stats : Stats) :
    visitNext cells read write stats =
      some (.running ⟨cells, read + 1, write, cells[read + 1], stats⟩) := by
  simp [visitNext, h]

/-- The visit of the first thread in the next sweep, if there is one. -/
theorem visitNext_of_not_lt (h : ¬read + 1 < cells.size) (write : Nat) (stats : Stats) :
    visitNext cells read write stats =
      match (cells.shrink write)[0]? with
      | none => some (.done ⟨.ok false, stats⟩)
      | some c => some (.running ⟨cells.shrink write, 0, 0, c,
          { stats with sweeps := stats.sweeps + 1 }⟩) := by
  unfold visitNext
  rw [if_neg h]
  generalize cells.shrink write = next
  cases hc : next[0]? with
  | none =>
    have hempty : next = #[] := by simpa using hc
    simp [hempty]
  | some c =>
    have hne : next ≠ #[] := by
      rintro rfl
      simp at hc
    simp [hne, hc]

theorem visitNext_running (hle : write ≤ read + 1) (hread : read < cells.size)
    (h : visitNext cells read write stats = some (.running s')) :
    s'.live = write + (cells.size - read) ∧ s'.stats.steps = stats.steps ∧
      s'.stats.peak = stats.peak ∧
      cells.toList.drop (read + 1) <+: s'.cells.toList.drop (read + 1) := by
  by_cases hlt : read + 1 < cells.size
  · rw [visitNext_of_lt hlt] at h
    cases h
    refine ⟨?_, rfl, rfl, List.prefix_rfl⟩
    show write + (cells.size - (read + 1)) + 1 = _
    omega
  · have hnone : cells.toList.drop (read + 1) = [] :=
      List.drop_eq_nil_of_le (by simpa using Nat.le_of_not_lt hlt)
    have hsize : (cells.shrink write).size = write := by
      rw [Array.size_shrink]
      omega
    rw [visitNext_of_not_lt hlt] at h
    split at h
    · cases h
    · cases h
      refine ⟨?_, rfl, rfl, by rw [hnone]; exact List.nil_prefix⟩
      show 0 + ((cells.shrink write).size - 0) + 1 = _
      omega

theorem keep_running (hle : write ≤ read) (hread : read < cells.size)
    (h : keep cells read write c stats = some (.running s')) :
    s'.live = write + (cells.size - read) + 1 ∧ s'.stats.steps = stats.steps ∧
      s'.stats.peak = stats.peak ∧
      cells.toList.drop (read + 1) <+: s'.cells.toList.drop (read + 1) := by
  unfold keep at h
  rw [dif_pos (Nat.lt_of_le_of_lt hle hread)] at h
  obtain ⟨hlive, hsteps, hpeak, hprefix⟩ :=
    visitNext_running (Nat.succ_le_succ hle) (by simpa using hread) h
  rw [Array.size_set] at hlive
  rw [Array.toList_set, List.drop_set_of_lt (Nat.lt_succ_of_le hle)] at hprefix
  exact ⟨by omega, hsteps, hpeak, hprefix⟩

/-- The last thread that ends leaves no other behind. -/
theorem visitNext_done (hle : write ≤ cells.size)
    (h : visitNext cells read write stats = some (.done r)) :
    write = 0 ∧ r = ⟨.ok false, stats⟩ := by
  by_cases hlt : read + 1 < cells.size
  · rw [visitNext_of_lt hlt] at h
    cases h
  · rw [visitNext_of_not_lt hlt] at h
    split at h
    · next hnone =>
      cases h
      rw [Array.getElem?_eq_none_iff, Array.size_shrink] at hnone
      exact ⟨by omega, rfl⟩
    · cases h

/-- A thread that is kept will be visited. -/
theorem keep_ne_done (hwrite : write < cells.size) :
    keep cells read write c stats ≠ some (.done r) := by
  intro h
  unfold keep at h
  rw [dif_pos hwrite] at h
  have hzero := (visitNext_done (by rwa [Array.size_set]) h).1
  omega

theorem next_of_step (hs : s.Sound p input)
    (h : s.step p limits input = some (.running s')) : Next p input s s' := by
  have hread := hs.read_lt
  rcases running_cases h with
    ⟨he, h⟩ | ⟨c, he, h⟩ | ⟨c, he, rfl⟩ | ⟨c, d, he, -, h⟩
  · obtain ⟨hlive, hsteps, hpeak, hprefix⟩ :=
      visitNext_running (Nat.le_succ_of_le hs.write_le) hread h
    refine ⟨?_, hsteps, by rw [hpeak]; simp [forks, he, stepped], hprefix⟩
    rw [hlive]
    simp [drops, forks, he, live]
  · obtain ⟨hlive, hsteps, hpeak, hprefix⟩ := keep_running hs.write_le hread h
    refine ⟨?_, hsteps, by rw [hpeak]; simp [forks, he, stepped], hprefix⟩
    rw [hlive]
    simp [drops, forks, he, live]
  · exact ⟨by simp [drops, forks, he, live], rfl, by simp [forks, he, stepped], List.prefix_rfl⟩
  · obtain ⟨hlive, hsteps, hpeak, hprefix⟩ :=
      keep_running hs.write_le (by rw [Array.size_push]; omega) h
    refine ⟨?_, hsteps, by rw [hpeak]; simp [forks, he], ?_⟩
    · rw [hlive, Array.size_push]
      simp only [drops, forks, he, live, Bool.toNat_true, Bool.toNat_false]
      omega
    · rw [Array.toList_push, List.drop_append_of_le_length (by simp; omega)] at hprefix
      exact (List.prefix_append _ [d]).trans hprefix

/-- The instruction that ends the run is counted, and changes nothing else.  It runs into the bound
on threads only by a fork that the bound on instructions admits. -/
theorem done_of_step (hs : s.Sound p input) (h : s.step p limits input = some (.done r)) :
    r.stats = s.stepped ∧
      (r.verdict = .error .threads →
        s.forks p input = true ∧ limits.allowsSteps (s.stats.steps + 1) = true ∧
          limits.allowsThreads s.live = false) := by
  have hread := hs.read_lt
  have hwrite := hs.write_le
  unfold step at h
  simp only at h
  split at h
  · cases h
    simp [stepped]
  · next hsteps =>
    split at h
    · cases h
    · cases h
      simp [stepped]
    · obtain ⟨-, rfl⟩ := visitNext_done (by omega) h
      simp [stepped]
    · exact absurd h (keep_ne_done (by omega))
    · cases h
    · next c d he =>
      split at h
      · next hlive =>
        cases h
        simpa [stepped, forks, he] using And.intro hsteps hlive
      · exact absurd h (keep_ne_done (by rw [Array.size_push]; omega))

/-- A fork that the bound on threads does not admit ends the run. -/
theorem step_of_not_allowsThreads (hforks : s.forks p input = true)
    (hsteps : limits.allowsSteps (s.stats.steps + 1) = true)
    (hlive : limits.allowsThreads s.live = false) :
    s.step p limits input = some (.done ⟨.error .threads, s.stepped⟩) := by
  unfold forks at hforks
  split at hforks
  · next c d he => simp [step, hsteps, he, hlive, stepped]
  · cases hforks

end

end Scan

end SweepRegex
