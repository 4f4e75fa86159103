import SweepRegex.Proofs.Machine.Verdict

/-!
# The tree of paths

Everything that can become of the first thread of a run is a tree: a fork has two subtrees, every
other instruction has one or none.  `treeSize` counts its instructions branch after branch, by
place, count of branches and offset; it knows of no sweep, no queue and no order of visits.

Each instruction of a run takes one off the trees of the threads that are alive (`pending_step`),
so a run that is not cut short by a match carries out each instruction of the tree exactly once.

    (p.run .none input).stats.steps = p.treeSize input 0 0 0                    (steps_eq_treeSize)
-/

namespace SweepRegex

namespace Program

/-! ## Algorithm -/

/-- A byte consumed is worth all the branches that may be taken after it. -/
theorem consuming_lt {length offset size idle : Nat} (h : offset < length) :
    (length - (offset + 1)) * (size + 1) + (size - 0) <
      (length - offset) * (size + 1) + (size - idle) := by
  have hoffset : length - offset = length - (offset + 1) + 1 := by omega
  rw [hoffset, Nat.add_mul]
  omega

/-- How many instructions are carried out on all paths from a place of the program, with this many
branches taken since a byte was last consumed, and from an offset of the input. -/
def treeSize (p : Program) (input : Bytes) (pc idle offset : Nat) : Nat :=
  match p.code[pc]? with
  | some (.byte b) =>
    match _ : input[offset]? with
    | some c => if c = b then 1 + p.treeSize input (pc + 1) 0 (offset + 1) else 1
    | none => 1
  | some .any =>
    match _ : input[offset]? with
    | some _ => 1 + p.treeSize input (pc + 1) 0 (offset + 1)
    | none => 1
  | some .accept => 1
  | some (.jump x) => if idle < p.size then 1 + p.treeSize input x (idle + 1) offset else 1
  | some (.split x y) =>
    if idle < p.size then
      1 + (p.treeSize input x (idle + 1) offset + p.treeSize input y (idle + 1) offset)
    else 1
  | none => 1
termination_by (input.length - offset) * (p.size + 1) + (p.size - idle)
decreasing_by
  all_goals first
    | exact consuming_lt (List.getElem?_eq_some_iff.1 ‹input[offset]? = some _›).1
    | omega

/-! ## Lemmas -/

/-- The tree of a thread, counted by its place and offset. -/
theorem pathCount_eq_treeSize (p : Program) (input : Bytes) (pc idle offset : Nat) :
    p.pathCount ⟨pc, idle, input.drop offset⟩ = p.treeSize input pc idle offset := by
  fun_induction treeSize p input pc idle offset with
  | case1 pc idle offset c hbyte hcode ih =>
    have hrest := List.drop_eq_getElem?_toList_append (l := input) (i := offset)
    rw [pathCount_eq]
    simp [move, hcode, hrest, hbyte, Move.threads, ih]
  | case2 pc idle offset b hcode c hbyte hne =>
    have hrest := List.drop_eq_getElem?_toList_append (l := input) (i := offset)
    rw [pathCount_eq]
    simp [move, hcode, hrest, hbyte, hne, Move.threads]
  | case3 pc idle offset b hcode hend =>
    have hrest := List.drop_eq_nil_of_le (List.getElem?_eq_none_iff.1 hend)
    rw [pathCount_eq]
    simp [move, hcode, hrest, Move.threads]
  | case4 pc idle offset hcode c hbyte ih =>
    have hrest := List.drop_eq_getElem?_toList_append (l := input) (i := offset)
    rw [pathCount_eq]
    simp [move, hcode, hrest, hbyte, Move.threads, ih]
  | case5 pc idle offset hcode hend =>
    have hrest := List.drop_eq_nil_of_le (List.getElem?_eq_none_iff.1 hend)
    rw [pathCount_eq]
    simp [move, hcode, hrest, Move.threads]
  | case7 pc idle offset x hcode hidle ih =>
    rw [pathCount_eq]
    simp [move, hcode, hidle, Move.threads, ih]
  | case9 pc idle offset x y hcode hidle ihFirst ihSecond =>
    rw [pathCount_eq]
    simp [move, hcode, hidle, Move.threads, ihFirst, ihSecond]
  | case8 pc idle offset x hcode hidle =>
    rw [pathCount_eq]
    simp [move, hcode, hidle, Move.threads]
  | case10 pc idle offset x y hcode hidle =>
    rw [pathCount_eq]
    simp [move, hcode, hidle, Move.threads]
  | case6 pc idle offset hcode | case11 pc idle offset hcode =>
    -- nothing comes after an instruction that accepts, or that does not exist
    rw [pathCount_eq]
    simp [move, hcode, Move.threads]

end Program

/-! ## Whole runs -/

/-- What a run has carried out and what is pending when it ends is what was pending at its start,
and only a match leaves anything pending. -/
theorem Machine.steps_run_pending {p : Program} {m : Machine} (hc : m.Counted) :
    (m.run p .none).stats.steps ≤ m.stats.steps + m.pending p ∧
    ((m.run p .none).verdict = .ok false →
      (m.run p .none).stats.steps = m.stats.steps + m.pending p) := by
  refine run_induction p (P := fun m =>
    (m.run p .none).stats.steps ≤ m.stats.steps + m.pending p ∧
    ((m.run p .none).verdict = .ok false →
      (m.run p .none).stats.steps = m.stats.steps + m.pending p)) ?_ ?_ hc
  · intro m r _ h
    have hpending : m.pending p = p.pathCount m.current + p.pathCounts m.others := rfl
    rw [run_of_done h]
    rcases done_of_step h with ⟨-, rfl⟩ | ⟨hmove, hothers, rfl⟩
    · have hpos := p.pathCount_pos m.current
      constructor
      · show m.stats.steps + 1 ≤ _
        omega
      · intro hfalse
        cases hfalse
    · -- the last thread is dropped, and its last instruction was all that was pending
      have hcount := p.pathCount_eq m.current
      rw [hmove] at hcount
      rw [hpending, hothers, hcount]
      exact ⟨Nat.le_refl _, fun _ => rfl⟩
  · intro m m' _ h hnext ih
    have hpending := pending_step h
    have hsteps := hnext.steps
    have hleft : m'.stats.steps + m'.pending p = m.stats.steps + m.pending p := by omega
    rw [run_of_running h, ← hleft]
    exact ih

namespace Program

/-! ## Main statement -/

/-- **No thread is lost or followed twice.**  A run without limits that finds no match carries out
exactly the instructions of the tree of paths, and one that finds a match no more than those. -/
theorem steps_eq_treeSize {p : Program} (hp : p.isEmpty = false) (input : Bytes) :
    (∃ v, (p.run .none input).verdict = .ok v) ∧
    ((p.run .none input).verdict = .ok false →
      (p.run .none input).stats.steps = p.treeSize input 0 0 0) ∧
    ((p.run .none input).verdict = .ok true →
      (p.run .none input).stats.steps ≤ p.treeSize input 0 0 0) := by
  have hrun : p.run .none input = (Machine.start input).run p .none := by simp [run, hp]
  have htree : (Machine.start input).pending p = p.treeSize input 0 0 0 := by
    rw [← pathCount_eq_treeSize]
    rfl
  obtain ⟨hle, heq⟩ := Machine.steps_run_pending (p := p) (Machine.counted_start input)
  have hsteps : (Machine.start input).stats.steps = 0 := rfl
  rw [htree, hsteps, Nat.zero_add, ← hrun] at hle heq
  obtain ⟨v, hv, -⟩ := p.verdict_run_none input
  exact ⟨⟨v, hv⟩, heq, fun _ => hle⟩

/-- A loop around a loop, whose forks walk in circles until they run out of branches. -/
theorem steps_eq_treeSize_nested_loop :
    let p : Program := ⟨#[.split 1 5, .split 2 4, .byte 97, .jump 1, .jump 0, .byte 98, .accept]⟩
    p.isEmpty = false ∧ (p.run .none (ascii "aa")).verdict = .ok false ∧
      p.treeSize (ascii "aa") 0 0 0 = 85 ∧ (p.run .none (ascii "aa")).stats.steps = 85 := by
  intro p
  have hp : p.isEmpty = false := rfl
  have hverdict : (p.run .none (ascii "aa")).verdict = .ok false := by cbv
  have htree : p.treeSize (ascii "aa") 0 0 0 = 85 := by decide +kernel
  obtain ⟨-, heq, -⟩ := steps_eq_treeSize hp (ascii "aa")
  exact ⟨hp, hverdict, htree, (heq hverdict).trans htree⟩

end Program

end SweepRegex
