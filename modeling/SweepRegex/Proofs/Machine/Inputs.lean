import SweepRegex.Proofs.Machine.Timing

/-!
# Runs on other inputs

A thread carries the input that is left to it, so a run on one input is compared with a run on
another by changing that part of every thread (`mapRest`).  As long as the instruction carried out
cannot tell the two apart, a step of one machine is a step of the other (`step_mapRest`), and if
that stays so the two runs report the same (`run_mapRest`).

The first use of it is what a run does not look at.  In the sweep number `k` no thread has consumed
`k` bytes yet (`length_lt_of_ahead`), so a run that ends in the sweep number `n` has looked at the
first `n` bytes of its input only.

    n = (p.run limits s).stats.sweeps → n ≤ s.length → s'.take n = s.take n →
      p.run limits s' = p.run limits s                                        (run_eq_of_take_eq)
-/

namespace SweepRegex

/-! ## Other inputs -/

namespace Queue

variable {α β : Type}

/-- The queue with all its elements replaced. -/
def map (f : α → β) (q : Queue α) : Queue β := ⟨q.front.map f, q.back.map f⟩

theorem dequeue?_map (f : α → β) (q : Queue α) :
    (q.map f).dequeue? = q.dequeue?.map fun xr => (f xr.1, xr.2.map f) := by
  obtain ⟨front, back⟩ := q
  cases front with
  | cons x front => rfl
  | nil =>
    simp only [dequeue?, map, List.map_nil, ← List.map_reverse]
    cases back.reverse with
    | nil => rfl
    | cons x front => rfl

end Queue

/-- The thread with another input left to it. -/
def Thread.mapRest (g : Bytes → Bytes) (t : Thread) : Thread := { t with rest := g t.rest }

/-- The move of a thread with another input. -/
def Move.mapRest (g : Bytes → Bytes) : Move → Move
  | .accept => .accept
  | .drop => .drop
  | .consume t => .consume (t.mapRest g)
  | .jump t => .jump (t.mapRest g)
  | .fork t u => .fork (t.mapRest g) (u.mapRest g)

/-- The machine with another input for each thread. -/
def Machine.mapRest (g : Bytes → Bytes) (m : Machine) : Machine where
  current := m.current.mapRest g
  waiting := m.waiting.map (Thread.mapRest g)
  kept := m.kept.map (Thread.mapRest g)
  live := m.live
  stats := m.stats

/-- The outcome with another input for each thread that is left. -/
def Progress.mapRest (g : Bytes → Bytes) : Progress → Progress
  | .done report => .done report
  | .running m => .running (m.mapRest g)

/-- The instruction with another byte to consume, if it consumes a certain one. -/
def Instr.rename (f : UInt8 → UInt8) : Instr → Instr
  | .byte b => .byte (f b)
  | i => i

@[simp] theorem Instr.rename_id (i : Instr) : i.rename id = i := by
  cases i <;> rfl

/-! ## One instruction -/

/-- The instruction of a thread cannot tell its input from the other one: both are at their end, or
both go on, and then with bytes that it consumes or refuses alike. -/
inductive Thread.Alike (p : Program) (f : UInt8 → UInt8) (g : Bytes → Bytes) (t : Thread) : Prop
  | atEnd : t.rest = [] → g [] = [] → Alike p f g t
  | byte {c c' : UInt8} {rest : Bytes} : t.rest = c :: rest → g (c :: rest) = c' :: g rest →
      (∀ b, p.code[t.pc]? = some (.byte b) → (c' = f b ↔ c = b)) → Alike p f g t

/-- Where the instructions are the same up to the bytes they consume, so are the moves. -/
theorem Program.move_mapRest {p q : Program} {f : UInt8 → UInt8} {g : Bytes → Bytes} {t : Thread}
    (hcode : q.code[t.pc]? = p.code[t.pc]?.map (Instr.rename f)) (hsize : q.size = p.size)
    (ht : t.Alike p f g) : q.move (t.mapRest g) = (p.move t).mapRest g := by
  have hpc : (t.mapRest g).pc = t.pc := rfl
  have hidle : (t.mapRest g).idle = t.idle := rfl
  have hrest : (t.mapRest g).rest = g t.rest := rfl
  unfold move
  rw [hpc, hidle, hrest, hcode, hsize]
  cases hi : p.code[t.pc]? with
  | none => rfl
  | some i =>
    cases i with
    | byte b =>
      cases ht with
      | atEnd hnil hg =>
        rw [hnil, hg]
        rfl
      | byte hcons hg hb =>
        -- both bytes pass the test, or neither does
        simp only [hcons, hg, Option.map_some, Instr.rename, hb b hi, apply_ite (Move.mapRest g)]
        rfl
    | any =>
      cases ht with
      | atEnd hnil hg =>
        rw [hnil, hg]
        rfl
      | byte hcons hg _ =>
        rw [hcons, hg]
        rfl
    | accept => rfl
    | jump x =>
      simp only [Option.map_some, Instr.rename, apply_ite (Move.mapRest g)]
      rfl
    | split x y =>
      simp only [Option.map_some, Instr.rename, apply_ite (Move.mapRest g)]
      rfl

namespace Machine

/-- Going on to the next thread does not depend on what threads carry. -/
theorem visitNext_mapRest (g : Bytes → Bytes) (waiting kept : Queue Thread) (live : Nat)
    (stats : Stats) :
    visitNext (waiting.map (Thread.mapRest g)) (kept.map (Thread.mapRest g)) live stats =
      (visitNext waiting kept live stats).mapRest g := by
  unfold visitNext
  rw [Queue.dequeue?_map, Queue.dequeue?_map]
  cases waiting.dequeue? with
  | some tr => rfl
  | none =>
    cases kept.dequeue? with
    | some tr => rfl
    | none => rfl

theorem step_mapRest {p q : Program} {limits : Limits} {g : Bytes → Bytes} {m : Machine}
    (h : q.move (m.current.mapRest g) = (p.move m.current).mapRest g) :
    (m.mapRest g).step q limits = (m.step p limits).mapRest g := by
  have hcurrent : (m.mapRest g).current = m.current.mapRest g := rfl
  have hstats : (m.mapRest g).stats = m.stats := rfl
  have hlive : (m.mapRest g).live = m.live := rfl
  unfold step
  rw [hcurrent, hstats, hlive, h]
  by_cases hs : limits.allowsSteps (m.stats.steps + 1) = true
  · cases p.move m.current with
    | accept => simp [hs, Move.mapRest, Progress.mapRest]
    | drop =>
      simp only [hs, Move.mapRest, Bool.not_true, Bool.false_eq_true, if_false]
      exact visitNext_mapRest g m.waiting m.kept _ _
    | consume t =>
      simp only [hs, Move.mapRest, Bool.not_true, Bool.false_eq_true, if_false]
      exact visitNext_mapRest g m.waiting (m.kept.enqueue t) _ _
    | jump t => simp [hs, Move.mapRest, Progress.mapRest, mapRest]
    | fork t u =>
      by_cases ht : limits.allowsThreads (m.live + 1) = true
      · simp only [hs, ht, Move.mapRest, Bool.not_true, Bool.false_eq_true, if_false]
        exact visitNext_mapRest g (m.waiting.enqueue u) (m.kept.enqueue t) _ _
      · simp [hs, ht, Move.mapRest, Progress.mapRest]
  · simp [hs, Progress.mapRest]

/-! ## Whole runs -/

/-- A condition that the machines of a run keep, and under which the moves are the same with the
other input, makes the reports the same. -/
theorem run_mapRest {p q : Program} {limits : Limits} {g : Bytes → Bytes} {P : Machine → Prop}
    (move : ∀ m, P m → q.move (m.current.mapRest g) = (p.move m.current).mapRest g)
    (keep : ∀ m m', P m → m.step p limits = .running m' → P m') {m : Machine} (hm : P m) :
    (m.mapRest g).run q limits = m.run p limits := by
  refine run_report_induction p limits (P := fun m r => P m → (m.mapRest g).run q limits = r)
    ?_ ?_ m hm
  · intro m r h hm
    have hstep : (m.mapRest g).step q limits = .done r := by
      rw [step_mapRest (move m hm), h]
      rfl
    exact run_of_done hstep
  · intro m m' r h ih hm
    have hstep : (m.mapRest g).step q limits = .running (m'.mapRest g) := by
      rw [step_mapRest (move m hm), h]
      rfl
    rw [run_of_running hstep]
    exact ih (keep m m' hm h)

end Machine

/-! ## Bytes not reached -/

/-- A path consumes no more bytes than its weight. -/
theorem Program.WeighedPath.length_le {p : Program} {t u : Thread} {w : Nat}
    (h : p.WeighedPath t w u) : t.rest.length ≤ u.rest.length + w := by
  induction h with
  | here t => exact Nat.le_refl _
  | @byte _ _ w _ rest u _ _ ih =>
    have hrest : rest.length ≤ u.rest.length + w := ih
    show rest.length + 1 ≤ u.rest.length + (w + 1)
    omega
  | @any _ _ w _ rest u _ _ ih =>
    have hrest : rest.length ≤ u.rest.length + w := ih
    show rest.length + 1 ≤ u.rest.length + (w + 1)
    omega
  | jump _ _ _ ih => exact ih
  | first _ _ _ ih => exact Nat.le_succ_of_le ih
  | second _ _ _ ih => exact ih

/-- What is left of the input, with other bytes in place of the last `k`. -/
def withEnd (k : Nat) (tail : Bytes) (rest : Bytes) : Bytes :=
  rest.take (rest.length - k) ++ tail

theorem withEnd_append (r t tail : Bytes) : withEnd t.length tail (r ++ t) = r ++ tail := by
  simp [withEnd]

/-- Where more than the last `k` bytes are left, the next byte is not one of these. -/
theorem withEnd_cons {k : Nat} (tail : Bytes) {b : UInt8} {rest : Bytes} (h : k ≤ rest.length) :
    withEnd k tail (b :: rest) = b :: withEnd k tail rest := by
  have hlen : (b :: rest).length - k = (rest.length - k) + 1 := by
    rw [List.length_cons]
    omega
  rw [withEnd, withEnd, hlen, List.take_succ_cons, List.cons_append]

namespace Machine

section
variable {p : Program} {limits : Limits} {m m' : Machine}

theorem sweeps_le_of_step (h : m.step p limits = .running m') :
    m.stats.sweeps ≤ m'.stats.sweeps :=
  sweeps_le_of_ahead ((ahead_of_step (step_none_of_running h)).2 (.inr (ahead_current p m')))

/-- Sweeps are only added. -/
theorem sweeps_le_run (p : Program) (limits : Limits) (m : Machine) :
    m.stats.sweeps ≤ (m.run p limits).stats.sweeps := by
  refine run_report_induction p limits (P := fun m r => m.stats.sweeps ≤ r.stats.sweeps) ?_ ?_ m
  · intro m r h
    rw [stats_of_done h]
    exact Nat.le_refl _
  · intro m m' r h ih
    exact Nat.le_trans (sweeps_le_of_step h) ih

/-- Of an input of `length` bytes, every thread ahead has consumed fewer bytes than the sweep it is
due in has in its number, and the run ends in the sweep number `n` at the latest. -/
structure Trails (p : Program) (limits : Limits) (length n : Nat) (m : Machine) : Prop where
  length_lt : ∀ k u, p.Ahead m.due k u → length < u.rest.length + k
  sweeps_le : (m.run p limits).stats.sweeps ≤ n

theorem Trails.step {length n : Nat} (hm : m.Trails p limits length n)
    (h : m.step p limits = .running m') : m'.Trails p limits length n where
  length_lt k u hu :=
    hm.length_lt k u ((ahead_of_step (step_none_of_running h)).2 (.inr hu))
  sweeps_le := by
    rw [← run_of_running h]
    exact hm.sweeps_le

/-- The thread being visited has all the bytes left from the `n`-th on. -/
theorem Trails.current {length n : Nat} (hm : m.Trails p limits length n) :
    length < m.current.rest.length + n := by
  have hcurrent := hm.length_lt _ _ (ahead_current p m)
  have hle := sweeps_le_run p limits m
  have hn := hm.sweeps_le
  omega

theorem trails_start {s : Bytes} {n : Nat}
    (h : ((start s).run p limits).stats.sweeps ≤ n) : (start s).Trails p limits s.length n where
  length_lt k u hu := by
    obtain ⟨w, rfl, hpath⟩ := ahead_start.1 hu
    have hle : s.length ≤ u.rest.length + w := hpath.length_le
    omega
  sweeps_le := h

end

/-- The bytes that a run has no time to reach may be others. -/
theorem run_start_append {p : Program} {limits : Limits} {r t : Bytes}
    (h : ((start (r ++ t)).run p limits).stats.sweeps ≤ r.length) (t' : Bytes) :
    (start (r ++ t')).run p limits = (start (r ++ t)).run p limits := by
  have hstart : start (r ++ t') = (start (r ++ t)).mapRest (withEnd t.length t') := by
    show start (r ++ t') = { start (r ++ t) with current := ⟨0, 0, withEnd t.length t' (r ++ t)⟩ }
    rw [withEnd_append]
    rfl
  rw [hstart]
  refine run_mapRest (P := Trails p limits (r ++ t).length r.length) ?_ ?_ (trails_start h)
  · intro m hm
    have hcurrent := hm.current
    rw [List.length_append] at hcurrent
    refine Program.move_mapRest (f := id) ?_ rfl ?_
    · cases p.code[m.current.pc]? <;> simp
    · -- more than the replaced bytes are left, so the next byte is there and is the same
      cases hrest : m.current.rest with
      | nil =>
        rw [hrest, List.length_nil] at hcurrent
        omega
      | cons b rest =>
        rw [hrest, List.length_cons] at hcurrent
        exact .byte hrest (withEnd_cons t' (by omega)) fun _ _ => Iff.rfl
  · intro m m' hm hstep
    exact hm.step hstep

end Machine

namespace Program

/-- The bytes that a run has no time to reach may be others. -/
theorem run_append {p : Program} {limits : Limits} {r t : Bytes}
    (h : (p.run limits (r ++ t)).stats.sweeps ≤ r.length) (t' : Bytes) :
    p.run limits (r ++ t') = p.run limits (r ++ t) := by
  unfold run at h ⊢
  by_cases hp : p.isEmpty = true
  · rw [if_pos hp, if_pos hp]
  · rw [if_neg hp] at h
    rw [if_neg hp, if_neg hp]
    exact Machine.run_start_append h t'

/-! ## Main statement -/

/-- **Bytes not reached.**  A run that ends after `n` sweeps, whether with a verdict or at a limit,
depends on the first `n` bytes of its input alone: on every input that goes on after these, however
it does, the run gives the same verdict or error and takes the same steps, sweeps and threads. -/
theorem run_eq_of_take_eq (p : Program) (limits : Limits) {s s' : Bytes} {n : Nat}
    (hn : (p.run limits s).stats.sweeps = n) (hs : n ≤ s.length)
    (h : s'.take n = s.take n) : p.run limits s' = p.run limits s := by
  have hlen : (s.take n).length = n := by
    rw [List.length_take]
    omega
  have hsplit : s.take n ++ s.drop n = s := List.take_append_drop n s
  have hsplit' : s.take n ++ s'.drop n = s' := by rw [← h, List.take_append_drop]
  have hsweeps : (p.run limits (s.take n ++ s.drop n)).stats.sweeps ≤ (s.take n).length := by
    rw [hsplit, hlen, hn]
  have hrun := run_append hsweeps (s'.drop n)
  rwa [hsplit, hsplit'] at hrun

/-- A loop that is taken twice, on an input that is followed by other bytes. -/
theorem run_eq_of_take_eq_loop :
    let p : Program := ⟨#[.split 1 3, .byte 97, .jump 0, .byte 98, .accept]⟩
    (p.run .none (ascii "aabccc")).stats.sweeps = 6 ∧ 6 ≤ (ascii "aabccc").length ∧
      (ascii "aabcccaab").take 6 = (ascii "aabccc").take 6 ∧
      p.run .none (ascii "aabcccaab") = p.run .none (ascii "aabccc") := by
  intro p
  have hsweeps : (p.run .none (ascii "aabccc")).stats.sweeps = 6 := by decide +kernel
  have hlength : 6 ≤ (ascii "aabccc").length := by decide
  have htake : (ascii "aabcccaab").take 6 = (ascii "aabccc").take 6 := by decide
  exact ⟨hsweeps, hlength, htake, run_eq_of_take_eq p .none hsweeps hlength htake⟩

end Program

end SweepRegex
