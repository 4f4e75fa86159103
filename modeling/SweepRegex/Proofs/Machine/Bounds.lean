import SweepRegex.Proofs.Machine.Scans

/-!
# Indices and cursors

Nothing that the run of an accepted pattern reads or writes is outside: not the program, which has
an instruction wherever a thread goes, not the input, and not the buffer of threads.  The count of
branches of a thread stays small enough for a word of 32 bits, and no thread is stored over one
that is still to be visited.

Main statement: `inBounds_of_compile`.
-/

namespace SweepRegex

/-- The next instruction is carried out within bounds. -/
structure Scan.InBounds (p : Program) (limits : Limits) (input : Bytes) (s : Scan) : Prop where
  pc_lt : s.current.pc < p.size
  offset_le : s.current.offset ≤ input.length
  /-- A byte that is consumed is one of the input. -/
  offset_lt : ∀ c, s.current.effect? p input = some (.consume c) →
    s.current.offset < input.length
  idle_le : s.current.idle ≤ p.size
  /-- Counting one more branch does not exceed a word. -/
  idle_succ : p.size < 4294967296 → s.current.idle < p.size →
    (s.current.idle.toUInt32 + 1).toNat = s.current.idle + 1
  read_lt : s.read < s.cells.size
  write_le : s.write ≤ s.read
  /-- The threads still to be visited are not overwritten. -/
  unvisited : ∀ s', s.step p limits input = some (.running s') →
    s.unvisited <+: s'.cells.toList.drop (s.read + 1)
  /-- No index is outside, be it of the program, the input or the buffer. -/
  step_ne_none : s.step p limits input ≠ none

theorem Cell.offset_lt_of_consume {p : Program} {input : Bytes} {c d : Cell}
    (h : c.effect? p input = some (.consume d)) : c.offset < input.length := by
  unfold Cell.effect? at h
  split at h
  · cases h
  · split at h
    · assumption
    · cases h
  · by_cases hlt : c.offset < input.length
    · exact hlt
    · simp [hlt] at h
  · cases h
  · split at h <;> cases h
  · split at h <;> cases h

/-- Below `2 ^ 32` the successor of a word is the successor of the number. -/
theorem toNat_toUInt32_succ {n size : Nat} (hsize : size < 4294967296) (hn : n < size) :
    (n.toUInt32 + 1).toNat = n + 1 := by
  rw [UInt32.toNat_add, Nat.toUInt32, UInt32.toNat_ofNat']
  show (n % 2 ^ 32 + 1) % 2 ^ 32 = n + 1
  omega

/-- Every instruction that a run carries out has a result. -/
theorem Scan.Runs.step_ne_none {p : Program} {limits : Limits} {input : Bytes} {s : Scan}
    {visits : List Scan} {r : Report} (h : Runs p limits input s visits r) :
    ∀ t ∈ visits, t.step p limits input ≠ none := by
  induction h with
  | done hstep =>
    intro t ht
    rw [List.mem_singleton.1 ht, hstep]
    simp
  | running hstep _ ih =>
    intro t ht
    rcases List.mem_cons.1 ht with rfl | ht
    · rw [hstep]
      simp
    · exact ih t ht

namespace Pattern

/-! ## Main statement -/

/-- **Nothing is outside.**  The run of an accepted pattern carries out all its instructions within
bounds, and ends with the report of the machine. -/
theorem inBounds_of_compile {pattern : Bytes} {p : Program} (h : compile pattern = .ok p)
    (limits : Limits) (input : Bytes) :
    ∃ visits, Scan.Runs p limits input .start visits (p.run limits input) ∧
      ∀ s ∈ visits, s.InBounds p limits input := by
  obtain ⟨visits, hruns, hsound⟩ := exists_scan h limits input
  refine ⟨visits, hruns, fun s hs => ?_⟩
  have hbuffer := hsound s hs
  have hfits := hbuffer.current
  exact {
    pc_lt := hfits.pc_lt
    offset_le := hfits.offset_le
    offset_lt := fun _ hc => Cell.offset_lt_of_consume hc
    idle_le := hfits.idle_le
    idle_succ := toNat_toUInt32_succ
    read_lt := hbuffer.read_lt
    write_le := hbuffer.write_le
    unvisited := fun _ hstep => (Scan.next_of_step hbuffer hstep).unvisited
    step_ne_none := hruns.step_ne_none s hs }

/-- Loops around each other, whose forks make the buffer grow within a sweep. -/
theorem inBounds_of_compile_loops :
    ∃ p, compile (ascii "((a|)*b+)*") = .ok p ∧
      ∃ visits, Scan.Runs p ⟨6, 40⟩ (ascii "aab") .start visits (p.run ⟨6, 40⟩ (ascii "aab")) ∧
        ∀ s ∈ visits, s.InBounds p ⟨6, 40⟩ (ascii "aab") := by
  have h : compile (ascii "((a|)*b+)*") =
      .ok ⟨#[.split 1 8, .split 2 5, .split 3 4, .byte 97, .jump 1, .byte 98, .split 5 7, .jump 0,
        .accept]⟩ := by cbv
  exact ⟨_, h, inBounds_of_compile h ⟨6, 40⟩ (ascii "aab")⟩

end Pattern

end SweepRegex
