import SweepRegex.Proofs.Machine.Buffers
import SweepRegex.Proofs.Machine.Runs
import SweepRegex.Proofs.Pattern.Branches

/-!
# The run over a buffer

A program is closed if control cannot leave it: all its branches lead to places of the program, and
its last instruction accepts.  The run of a closed program over a buffer never uses an index that
is outside, and it is the run of the machine whose threads stand in queues: those behind the read
cursor wait for their visit, and those before the write cursor are kept for the next sweep
(`Represents`).

Main statement, for the program of an accepted pattern (`exists_scan`):

    ∃ visits, Scan.Runs p limits input .start visits (p.run limits input)
-/

namespace SweepRegex

/-! ## Closed programs -/

/-- Control cannot leave the program. -/
structure Program.Closed (p : Program) : Prop where
  accept_last : p.code[p.size - 1]? = some .accept
  target_lt : ∀ i ∈ p.code, ∀ t ∈ i.targets, t < p.size

section
variable {p : Program} {pc : Nat} {i : Instr}

theorem Program.Closed.isEmpty_eq_false (h : p.Closed) : p.isEmpty = false := by
  have hlt := (Array.getElem?_eq_some_iff.1 h.accept_last).1
  simp only [isEmpty, Array.isEmpty_eq_false_iff, ne_eq, ← Array.size_eq_zero_iff]
  omega

/-- Behind an instruction that does not accept there is another one. -/
theorem Program.Closed.succ_lt (h : p.Closed) (hi : p.code[pc]? = some i) (hne : i ≠ .accept) :
    pc + 1 < p.size := by
  have hlt : pc < p.size := (Array.getElem?_eq_some_iff.1 hi).1
  have hlast : pc ≠ p.size - 1 := by
    rintro rfl
    exact hne (Option.some.inj (hi.symm.trans h.accept_last))
  omega

theorem Program.Closed.lt_of_target (h : p.Closed) (hi : p.code[pc]? = some i) {t : Nat}
    (ht : t ∈ i.targets) : t < p.size :=
  h.target_lt i (Array.mem_of_getElem? hi) t ht

end

/-! ## Stored threads -/

namespace Cell

/-- The thread that is stored. -/
def thread (input : Bytes) (c : Cell) : Thread := ⟨c.pc, c.idle, input.drop c.offset⟩

/-- The move that an effect stands for. -/
def Effect.move (input : Bytes) : Effect → Move
  | .accept => .accept
  | .drop => .drop
  | .consume c => .consume (c.thread input)
  | .jump c => .jump (c.thread input)
  | .fork c d => .fork (c.thread input) (d.thread input)

/-- The stored threads that are there after an effect. -/
def Effect.cells : Effect → List Cell
  | .accept | .drop => []
  | .consume c | .jump c => [c]
  | .fork c d => [c, d]

/-- The instruction of a stored thread has this effect: it is the move of the thread, and the
threads that are there after it fit. -/
structure Takes (p : Program) (input : Bytes) (c : Cell) (e : Effect) : Prop where
  effect : c.effect? p input = some e
  move : e.move input = p.move (c.thread input)
  fits : ∀ d ∈ e.cells, d.Fits p input

theorem exists_thread_eq_of_lt {input : Bytes} {c : Cell} (h : c.offset < input.length) :
    ∃ b, input[c.offset] = b ∧ c.thread input = ⟨c.pc, c.idle, b :: input.drop (c.offset + 1)⟩ :=
  ⟨_, rfl, by rw [thread, List.drop_eq_getElem_cons h]⟩

theorem thread_eq_of_not_lt {input : Bytes} {c : Cell} (h : ¬c.offset < input.length) :
    c.thread input = ⟨c.pc, c.idle, []⟩ := by
  rw [thread, List.drop_eq_nil_of_le (Nat.le_of_not_lt h)]

section
variable {p : Program} {input : Bytes} {c : Cell} {i : Instr}

/-- A stored thread that consumes a byte goes on at the next place of both. -/
theorem Fits.consume (hp : p.Closed) (hi : p.code[c.pc]? = some i) (hne : i ≠ .accept)
    (hlt : c.offset < input.length) : Fits p input ⟨c.pc + 1, 0, c.offset + 1⟩ :=
  ⟨hp.succ_lt hi hne, Nat.zero_le _, hlt⟩

theorem Fits.branch (hc : c.Fits p input) (hp : p.Closed) (hi : p.code[c.pc]? = some i) {x : Nat}
    (hx : x ∈ i.targets) (hidle : c.idle < p.size) : Fits p input ⟨x, c.idle + 1, c.offset⟩ :=
  ⟨hp.lt_of_target hi hx, hidle, hc.offset_le⟩

theorem exists_takes_of_byte {b : UInt8} (hp : p.Closed) (hi : p.code[c.pc]? = some (.byte b)) :
    ∃ e, c.Takes p input e := by
  by_cases hlt : c.offset < input.length
  · obtain ⟨x, hx, hthread⟩ := exists_thread_eq_of_lt hlt
    by_cases hb : x = b
    · refine ⟨.consume ⟨c.pc + 1, 0, c.offset + 1⟩, ?_, ?_, ?_⟩
      · simp [Cell.effect?, hi, hlt, hx, hb]
      · rw [hthread]
        simp [Effect.move, Program.move, hi, hb, thread]
      · simpa [Effect.cells] using Fits.consume hp hi (by simp) hlt
    · refine ⟨.drop, ?_, ?_, by simp [Effect.cells]⟩
      · simp [Cell.effect?, hi, hlt, hx, hb]
      · simp [Effect.move, Program.move, hthread, hi, hb]
  · refine ⟨.drop, ?_, ?_, by simp [Effect.cells]⟩
    · simp [Cell.effect?, hi, hlt]
    · simp [Effect.move, Program.move, thread_eq_of_not_lt hlt, hi]

theorem exists_takes_of_any (hp : p.Closed) (hi : p.code[c.pc]? = some .any) :
    ∃ e, c.Takes p input e := by
  by_cases hlt : c.offset < input.length
  · obtain ⟨x, -, hthread⟩ := exists_thread_eq_of_lt hlt
    refine ⟨.consume ⟨c.pc + 1, 0, c.offset + 1⟩, ?_, ?_, ?_⟩
    · simp [Cell.effect?, hi, hlt]
    · rw [hthread]
      simp [Effect.move, Program.move, hi, thread]
    · simpa [Effect.cells] using Fits.consume hp hi (by simp) hlt
  · refine ⟨.drop, ?_, ?_, by simp [Effect.cells]⟩
    · simp [Cell.effect?, hi, hlt]
    · simp [Effect.move, Program.move, thread_eq_of_not_lt hlt, hi]

theorem Fits.exists_takes_of_jump {x : Nat} (hc : c.Fits p input) (hp : p.Closed)
    (hi : p.code[c.pc]? = some (.jump x)) : ∃ e, c.Takes p input e := by
  by_cases hidle : c.idle < p.size
  · refine ⟨.jump ⟨x, c.idle + 1, c.offset⟩, ?_, ?_, ?_⟩
    · simp [Cell.effect?, hi, hidle]
    · simp [Effect.move, Program.move, thread, hi, hidle]
    · simpa [Effect.cells] using hc.branch hp hi (x := x) (by simp [Instr.targets]) hidle
  · refine ⟨.drop, ?_, ?_, by simp [Effect.cells]⟩
    · simp [Cell.effect?, hi, hidle]
    · simp [Effect.move, Program.move, thread, hi, hidle]

theorem Fits.exists_takes_of_split {x y : Nat} (hc : c.Fits p input) (hp : p.Closed)
    (hi : p.code[c.pc]? = some (.split x y)) : ∃ e, c.Takes p input e := by
  by_cases hidle : c.idle < p.size
  · have hx := hc.branch hp hi (x := x) (by simp [Instr.targets]) hidle
    have hy := hc.branch hp hi (x := y) (by simp [Instr.targets]) hidle
    refine ⟨.fork ⟨x, c.idle + 1, c.offset⟩ ⟨y, c.idle + 1, c.offset⟩, ?_, ?_, ?_⟩
    · simp [Cell.effect?, hi, hidle]
    · simp [Effect.move, Program.move, thread, hi, hidle]
    · simpa [Effect.cells] using And.intro hx hy
  · refine ⟨.drop, ?_, ?_, by simp [Effect.cells]⟩
    · simp [Cell.effect?, hi, hidle]
    · simp [Effect.move, Program.move, thread, hi, hidle]

/-- In a closed program every instruction of a thread that fits has an effect. -/
theorem Fits.exists_takes (hc : c.Fits p input) (hp : p.Closed) : ∃ e, c.Takes p input e := by
  obtain ⟨i, hi⟩ : ∃ i, p.code[c.pc]? = some i := ⟨_, Array.getElem?_eq_getElem hc.pc_lt⟩
  cases i with
  | byte b => exact exists_takes_of_byte hp hi
  | any => exact exists_takes_of_any hp hi
  | accept =>
    refine ⟨.accept, ?_, ?_, by simp [Effect.cells]⟩
    · simp [Cell.effect?, hi]
    · simp [Effect.move, Program.move, thread, hi]
  | jump x => exact hc.exists_takes_of_jump hp hi
  | split x y => exact hc.exists_takes_of_split hp hi

end

end Cell

/-! ## Buffers and queues -/

namespace Scan

/-- The threads of the buffer are those of the machine. -/
structure Represents (input : Bytes) (s : Scan) (m : Machine) : Prop where
  current : s.current.thread input = m.current
  waiting : (s.cells.toList.drop (s.read + 1)).map (Cell.thread input) = m.waiting.toList
  kept : (s.cells.toList.take s.write).map (Cell.thread input) = m.kept.toList
  live : s.live = m.live + 1
  stats : s.stats = m.stats

/-- A visit is over: the queues hold the threads of the buffer, without the one visited. -/
structure Visited (p : Program) (input : Bytes) (cells : Array Cell) (read write : Nat)
    (waiting kept : Queue Thread) (live : Nat) : Prop where
  fits : ∀ c ∈ cells, c.Fits p input
  write_le : write ≤ read + 1
  read_lt : read < cells.size
  waiting : (cells.toList.drop (read + 1)).map (Cell.thread input) = waiting.toList
  kept : (cells.toList.take write).map (Cell.thread input) = kept.toList
  live : live = write + (cells.size - (read + 1))

/-- Both went on to states that agree, or both ended with the same report. -/
inductive Agrees (p : Program) (input : Bytes) :
    Option Progress → SweepRegex.Progress → Prop where
  | done (r : Report) : Agrees p input (some (.done r)) (.done r)
  | running {s : Scan} {m : Machine} : s.Sound p input → s.Represents input m →
      Agrees p input (some (.running s)) (.running m)

/-! ### Between two visits -/

section
variable {p : Program} {input : Bytes} {cells : Array Cell} {read write live : Nat} {stats : Stats}
variable {waiting kept : Queue Thread}

theorem exists_visited {s : Scan} {m : Machine} (hs : s.Sound p input) (hr : s.Represents input m) :
    ∃ live, m.live = live + 1 ∧
      Visited p input s.cells s.read s.write m.waiting m.kept live := by
  have hlive := hr.live
  have hread := hs.read_lt
  have hwrite := hs.write_le
  unfold Scan.live at hlive
  exact ⟨s.write + (s.cells.size - (s.read + 1)), by omega, hs.cells, by omega, hread, hr.waiting,
    hr.kept, rfl⟩

/-- A thread at the end of the buffer waits behind all others. -/
theorem Visited.push (h : Visited p input cells read write waiting kept live) {d : Cell}
    (hd : d.Fits p input) :
    Visited p input (cells.push d) read write (waiting.enqueue (d.thread input)) kept
      (live + 1) := by
  have hread := h.read_lt
  have hwrite := h.write_le
  refine ⟨fun c hc => ?_, hwrite, by rw [Array.size_push]; omega, ?_, ?_, ?_⟩
  · rcases Array.mem_push.1 hc with hc | rfl
    · exact h.fits c hc
    · exact hd
  · rw [Array.toList_push, List.drop_append_of_le_length (by simp; omega), List.map_append,
      h.waiting, Queue.toList_enqueue]
    rfl
  · rw [Array.toList_push, List.take_append_of_le_length (by simp; omega), h.kept]
  · rw [Array.size_push, h.live]
    omega

/-- A thread stored under the write cursor is kept behind all others, and takes the place of none
that is still to be visited. -/
theorem Visited.set (h : Visited p input cells read write waiting kept live) {c : Cell}
    (hc : c.Fits p input) (hle : write ≤ read) (hwrite : write < cells.size) :
    Visited p input (cells.set write c) read (write + 1) waiting (kept.enqueue (c.thread input))
      (live + 1) := by
  have hlength : write < cells.toList.length := by simpa using hwrite
  refine ⟨fun d hd => ?_, by omega, by simpa using h.read_lt, ?_, ?_, ?_⟩
  · rcases Array.mem_or_eq_of_mem_set hd with hd | rfl
    · exact h.fits d hd
    · exact hc
  · rw [Array.toList_set, List.drop_set_of_lt (by omega), h.waiting]
  · have htake : (cells.toList.set write c).take (write + 1) = cells.toList.take write ++ [c] := by
      rw [List.take_add_one, List.take_set_of_le (Nat.le_refl _), List.getElem?_set_self hlength]
      rfl
    rw [Array.toList_set, htake, List.map_append, h.kept, Queue.toList_enqueue]
    rfl
  · rw [Array.size_set, h.live]
    omega

theorem Visited.agrees_of_lt (h : Visited p input cells read write waiting kept live)
    (hlt : read + 1 < cells.size) :
    Agrees p input (visitNext cells read write stats)
      (Machine.visitNext waiting kept live stats) := by
  have hwaiting := h.waiting
  have hlive := h.live
  rw [List.drop_eq_getElem_cons (by simpa using hlt), Array.getElem_toList,
    List.map_cons] at hwaiting
  rw [visitNext_of_lt hlt]
  rcases Machine.visitNext_cases waiting kept live stats with
    ⟨t, rest, hw, hv⟩ | ⟨hw, -⟩ | ⟨hw, -⟩
  · rw [hw] at hwaiting
    obtain ⟨hcurrent, hrest⟩ := List.cons.inj hwaiting
    rw [hv]
    refine .running ⟨h.fits _ (Array.getElem_mem hlt), h.fits, h.write_le, hlt⟩
      ⟨hcurrent, hrest, h.kept, ?_, rfl⟩
    show write + (cells.size - (read + 1)) + 1 = live + 1
    omega
  · rw [hw] at hwaiting
    cases hwaiting
  · rw [hw] at hwaiting
    cases hwaiting

/-- At the end of a sweep all threads are among those kept. -/
theorem Visited.waiting_eq_nil (h : Visited p input cells read write waiting kept live)
    (hlt : ¬read + 1 < cells.size) : waiting.toList = [] := by
  rw [← h.waiting, List.drop_eq_nil_of_le (by simpa using Nat.le_of_not_lt hlt), List.map_nil]

/-- The buffer cut at the write cursor holds the threads kept. -/
theorem Visited.shrink (h : Visited p input cells read write waiting kept live)
    (hlt : ¬read + 1 < cells.size) :
    (cells.shrink write).size = live ∧ (∀ c ∈ cells.shrink write, c.Fits p input) ∧
      (cells.shrink write).toList.map (Cell.thread input) = kept.toList := by
  have hlive := h.live
  have hwrite : write ≤ cells.size := Nat.le_trans h.write_le h.read_lt
  have hshrink : (cells.shrink write).toList = cells.toList.take write := Array.toList_shrink
  refine ⟨?_, fun c hc => ?_, by rw [hshrink, h.kept]⟩
  · rw [Array.size_shrink]
    omega
  · rw [← Array.mem_toList_iff, hshrink] at hc
    exact h.fits c (Array.mem_toList_iff.1 (List.mem_of_mem_take hc))

/-- The first visit of the next sweep, if any thread is kept for it. -/
theorem Visited.agrees_of_not_lt (h : Visited p input cells read write waiting kept live)
    (hlt : ¬read + 1 < cells.size) :
    Agrees p input (visitNext cells read write stats)
      (Machine.visitNext waiting kept live stats) := by
  obtain ⟨hsize, hfits, hkept⟩ := h.shrink hlt
  rw [visitNext_of_not_lt hlt]
  generalize cells.shrink write = next at hkept hsize hfits
  rcases Machine.visitNext_cases waiting kept live stats with
    ⟨t, rest, hw, -⟩ | ⟨-, t, rest, hk, hv⟩ | ⟨-, hk, hv⟩
  · rw [h.waiting_eq_nil hlt] at hw
    cases hw
  · rw [hk] at hkept
    obtain ⟨c, l, hcons, hcurrent, hrest⟩ := List.map_eq_cons_iff.1 hkept
    have hget : next[0]? = some c := by
      rw [← Array.getElem?_toList, hcons]
      rfl
    have hpos := (Array.getElem?_eq_some_iff.1 hget).1
    rw [hv, hget]
    refine .running ⟨hfits c (Array.mem_of_getElem? hget), hfits, Nat.le_refl 0, hpos⟩
      ⟨hcurrent, ?_, rfl, ?_, rfl⟩
    · show (next.toList.drop 1).map _ = _
      rw [hcons]
      exact hrest
    · show 0 + (next.size - 0) + 1 = live + 1
      omega
  · rw [hk, List.map_eq_nil_iff] at hkept
    have hget : next[0]? = none := by
      rw [← Array.getElem?_toList, hkept]
      rfl
    rw [hv, hget]
    exact .done _

/-- The next visit of a thread of the buffer is the next visit of the thread it stores. -/
theorem Visited.agrees (h : Visited p input cells read write waiting kept live) (stats : Stats) :
    Agrees p input (visitNext cells read write stats)
      (Machine.visitNext waiting kept live stats) := by
  by_cases hlt : read + 1 < cells.size
  · exact h.agrees_of_lt hlt
  · exact h.agrees_of_not_lt hlt

theorem Visited.agrees_keep (h : Visited p input cells read write waiting kept live) {c : Cell}
    (hc : c.Fits p input) (hle : write ≤ read) (stats : Stats) :
    Agrees p input (keep cells read write c stats)
      (Machine.visitNext waiting (kept.enqueue (c.thread input)) (live + 1) stats) := by
  have hwrite : write < cells.size := Nat.lt_of_le_of_lt hle h.read_lt
  unfold keep
  rw [dif_pos hwrite]
  exact (h.set hc hle hwrite).agrees stats

end

/-! ### One instruction -/

/-- One instruction of a sound buffer is one instruction of the machine it represents. -/
theorem agrees_step {p : Program} {limits : Limits} {input : Bytes} {s : Scan} {m : Machine}
    (hp : p.Closed) (hs : s.Sound p input) (hr : s.Represents input m) :
    Agrees p input (s.step p limits input) (m.step p limits) := by
  obtain ⟨e, he⟩ := hs.current.exists_takes hp
  obtain ⟨live, hlive, hvisited⟩ := exists_visited hs hr
  have hfits := he.fits
  have hmove : p.move m.current = e.move input := by rw [← hr.current, he.move]
  unfold step Machine.step
  simp only [← hr.stats, he.effect, hmove]
  by_cases hsteps : limits.allowsSteps (s.stats.steps + 1) = true
  · simp only [hsteps]
    cases e with
    | accept => exact .done _
    | drop =>
      simp only [Cell.Effect.move, hlive]
      exact hvisited.agrees _
    | consume c =>
      simp only [Cell.Effect.move, hlive]
      exact hvisited.agrees_keep (hfits c (by simp [Cell.Effect.cells])) hs.write_le _
    | jump c =>
      exact .running ⟨hfits c (by simp [Cell.Effect.cells]), hs.cells, hs.write_le, hs.read_lt⟩
        ⟨rfl, hr.waiting, hr.kept, hr.live, rfl⟩
    | fork c d =>
      simp only [Cell.Effect.move, ← hr.live]
      by_cases hthreads : limits.allowsThreads s.live = true
      · have hpushed := hvisited.push (hfits d (by simp [Cell.Effect.cells]))
        simp only [hthreads]
        rw [hr.live, hlive]
        exact hpushed.agrees_keep (hfits c (by simp [Cell.Effect.cells])) hs.write_le _
      · simp only [hthreads]
        exact .done _
  · simp only [hsteps]
    exact .done _

/-! ## Whole runs -/

/-- The run over a sound buffer uses no index that is outside, and ends with the report of the
machine it represents. -/
theorem exists_runs {p : Program} {limits : Limits} {input : Bytes} (hp : p.Closed) {s : Scan}
    {m : Machine} (hs : s.Sound p input) (hr : s.Represents input m) :
    ∃ visits, Runs p limits input s visits (m.run p limits) ∧ ∀ t ∈ visits, t.Sound p input := by
  refine Machine.run_report_induction p limits (P := fun m r => ∀ s : Scan, s.Sound p input →
    s.Represents input m →
      ∃ visits, Runs p limits input s visits r ∧ ∀ t ∈ visits, t.Sound p input)
    ?_ ?_ m s hs hr
  · intro m r h s hs hr
    have hagrees : Agrees p input (s.step p limits input) (m.step p limits) := agrees_step hp hs hr
    rw [h] at hagrees
    generalize hstep : s.step p limits input = progress at hagrees
    cases hagrees with
    | done => exact ⟨[s], .done hstep, by simpa using hs⟩
  · intro m m' r h ih s hs hr
    have hagrees : Agrees p input (s.step p limits input) (m.step p limits) := agrees_step hp hs hr
    rw [h] at hagrees
    generalize hstep : s.step p limits input = progress at hagrees
    cases hagrees with
    | running hs' hr' =>
      obtain ⟨visits, hruns, hsound⟩ := ih _ hs' hr'
      exact ⟨s :: visits, .running hstep hruns, List.forall_mem_cons.2 ⟨hs, hsound⟩⟩

end Scan

theorem Program.Closed.exists_scan {p : Program} (hp : p.Closed) (limits : Limits)
    (input : Bytes) :
    ∃ visits, Scan.Runs p limits input .start visits (p.run limits input) ∧
      ∀ s ∈ visits, s.Sound p input := by
  have hsize : 0 < p.size := by
    have := hp.isEmpty_eq_false
    simpa [Program.isEmpty, Program.size, Array.size_pos_iff] using this
  have hfits : Cell.Fits p input ⟨0, 0, 0⟩ := ⟨hsize, Nat.zero_le _, Nat.zero_le _⟩
  have hrun : p.run limits input = (Machine.start input).run p limits := by
    simp [Program.run, hp.isEmpty_eq_false]
  rw [hrun]
  exact Scan.exists_runs hp
    ⟨hfits, by simpa [Scan.start] using hfits, Nat.le_refl 0, Nat.one_pos⟩
    ⟨rfl, rfl, rfl, rfl, rfl⟩

/-! ## Accepted patterns -/

theorem Pattern.closed_of_compile {pattern : Bytes} {p : Program} (h : compile pattern = .ok p) :
    p.Closed := by
  obtain ⟨e, he, hcode⟩ := exists_solid_of_compile h
  have hwf := Program.wellFormed_of_solid he hcode
  exact ⟨hwf.accept_last, fun i hi t ht => hwf.target_lt hi ht⟩

/-- The run of an accepted pattern, over a buffer that is sound at every instruction. -/
theorem Pattern.exists_scan {pattern : Bytes} {p : Program} (h : compile pattern = .ok p)
    (limits : Limits) (input : Bytes) :
    ∃ visits, Scan.Runs p limits input .start visits (p.run limits input) ∧
      ∀ s ∈ visits, s.Sound p input :=
  (closed_of_compile h).exists_scan limits input

end SweepRegex
