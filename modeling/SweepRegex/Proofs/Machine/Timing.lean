import SweepRegex.Proofs.Machine.Verdict
import Mathlib.Order.Bounds.Basic

/-!
# When a run does what

A sweep visits threads of different offsets, some of which a fork added while it was under way, so
it is not plain in which sweep the end of a given path is reached.  The weight of the path tells: a
byte consumed, and the first target of a split, let a thread go on in the next sweep, whereas a
jump and the second target go on in the same one (`WeighedPath`).  A machine knows the sweep in
which each of its threads is due (`due`); carrying out one instruction takes that instruction off
what lies ahead, and nothing else (`ahead_of_step`).

    (p.run .none input).stats.sweeps = 1 + the least weight of a path to a match,
    or, without a match, the greatest weight of a path                     (sweeps_eq_weight)
-/

namespace SweepRegex

/-- The threads that are there after a move, with the number of sweeps until they are visited. -/
def Move.delays : Move → List (Nat × Thread)
  | .accept | .drop => []
  | .consume t => [(1, t)]
  | .jump t => [(0, t)]
  | .fork t u => [(1, t), (0, u)]

namespace Program

/-! ## Weights of paths -/

/-- A path from a thread to an instruction it comes to, along which no more branches are taken than
the count allows.  The weight of the path is the number of bytes it consumes and of splits it
leaves for their first target. -/
inductive WeighedPath (p : Program) : Thread → Nat → Thread → Prop where
  | here (t : Thread) : WeighedPath p t 0 t
  | byte {pc idle w : Nat} {b : UInt8} {rest : Bytes} {u : Thread} :
      p.code[pc]? = some (.byte b) → WeighedPath p ⟨pc + 1, 0, rest⟩ w u →
      WeighedPath p ⟨pc, idle, b :: rest⟩ (w + 1) u
  | any {pc idle w : Nat} {b : UInt8} {rest : Bytes} {u : Thread} :
      p.code[pc]? = some .any → WeighedPath p ⟨pc + 1, 0, rest⟩ w u →
      WeighedPath p ⟨pc, idle, b :: rest⟩ (w + 1) u
  | jump {pc idle x w : Nat} {rest : Bytes} {u : Thread} :
      p.code[pc]? = some (.jump x) → idle < p.size → WeighedPath p ⟨x, idle + 1, rest⟩ w u →
      WeighedPath p ⟨pc, idle, rest⟩ w u
  | first {pc idle x y w : Nat} {rest : Bytes} {u : Thread} :
      p.code[pc]? = some (.split x y) → idle < p.size → WeighedPath p ⟨x, idle + 1, rest⟩ w u →
      WeighedPath p ⟨pc, idle, rest⟩ (w + 1) u
  | second {pc idle x y w : Nat} {rest : Bytes} {u : Thread} :
      p.code[pc]? = some (.split x y) → idle < p.size → WeighedPath p ⟨y, idle + 1, rest⟩ w u →
      WeighedPath p ⟨pc, idle, rest⟩ w u

section
variable {p : Program} {t u v : Thread} {w d k : Nat}

/-- A path that goes on begins with a move, and its weight is the delay of that move and the weight
of the rest. -/
theorem WeighedPath.of_move (hv : (d, v) ∈ (p.move t).delays) (h : p.WeighedPath v k u) :
    p.WeighedPath t (k + d) u := by
  obtain ⟨pc, idle, rest⟩ := t
  cases hcode : p.code[pc]? with
  | none => simp [move, hcode, Move.delays] at hv
  | some i =>
    cases i with
    | byte b =>
      cases rest with
      | nil => simp [move, hcode, Move.delays] at hv
      | cons c rest =>
        by_cases hc : c = b
        · simp only [move, hcode, hc, if_true, Move.delays, List.mem_singleton,
            Prod.mk.injEq] at hv
          obtain ⟨rfl, rfl⟩ := hv
          subst hc
          exact .byte hcode h
        · simp [move, hcode, hc, Move.delays] at hv
    | any =>
      cases rest with
      | nil => simp [move, hcode, Move.delays] at hv
      | cons c rest =>
        simp only [move, hcode, Move.delays, List.mem_singleton, Prod.mk.injEq] at hv
        obtain ⟨rfl, rfl⟩ := hv
        exact .any hcode h
    | accept => simp [move, hcode, Move.delays] at hv
    | jump x =>
      by_cases hidle : idle < p.size
      · simp only [move, hcode, hidle, if_true, Move.delays, List.mem_singleton,
          Prod.mk.injEq] at hv
        obtain ⟨rfl, rfl⟩ := hv
        exact .jump hcode hidle h
      · simp [move, hcode, hidle, Move.delays] at hv
    | split x y =>
      by_cases hidle : idle < p.size
      · simp only [move, hcode, hidle, if_true, Move.delays, List.mem_cons, List.not_mem_nil,
          or_false, Prod.mk.injEq] at hv
        rcases hv with ⟨rfl, rfl⟩ | ⟨rfl, rfl⟩
        · exact .first hcode hidle h
        · exact .second hcode hidle h
      · simp [move, hcode, hidle, Move.delays] at hv

/-- A path ends where it starts, or begins with a move. -/
theorem weighedPath_iff :
    p.WeighedPath t w u ↔ (w = 0 ∧ u = t) ∨
      ∃ d v k, (d, v) ∈ (p.move t).delays ∧ w = k + d ∧ p.WeighedPath v k u := by
  constructor
  · intro h
    cases h with
    | here => exact .inl ⟨rfl, rfl⟩
    | byte hcode h => exact .inr ⟨1, _, _, by simp [move, hcode, Move.delays], rfl, h⟩
    | any hcode h => exact .inr ⟨1, _, _, by simp [move, hcode, Move.delays], rfl, h⟩
    | jump hcode hidle h =>
      exact .inr ⟨0, _, _, by simp [move, hcode, hidle, Move.delays], rfl, h⟩
    | first hcode hidle h =>
      exact .inr ⟨1, _, _, by simp [move, hcode, hidle, Move.delays], rfl, h⟩
    | second hcode hidle h =>
      exact .inr ⟨0, ⟨_, _, _⟩, _, by simp [move, hcode, hidle, Move.delays], rfl, h⟩
  · rintro (⟨rfl, rfl⟩ | ⟨d, v, k, hv, rfl, h⟩)
    · exact .here u
    · exact .of_move hv h

end

end Program

/-! ## What lies ahead -/

/-- The instruction of a thread lies ahead of threads that are due in given sweeps, in the sweep
number `n`. -/
def Program.Ahead (p : Program) (due : List (Nat × Thread)) (n : Nat) (u : Thread) : Prop :=
  ∃ s t w, (s, t) ∈ due ∧ n = s + w ∧ p.WeighedPath t w u

section
variable {p : Program} {l l' : List (Nat × Thread)} {n s : Nat} {t u : Thread}

theorem Program.ahead_congr (h : l.Perm l') : p.Ahead l n u ↔ p.Ahead l' n u := by
  simp only [Ahead, h.mem_iff]

theorem Program.ahead_append : p.Ahead (l ++ l') n u ↔ p.Ahead l n u ∨ p.Ahead l' n u := by
  simp only [Ahead, List.mem_append, or_and_right, exists_or]

/-- Of a thread its own instruction lies ahead, in the sweep the thread is due in, and what lies
ahead of the threads that are there after it. -/
theorem Program.ahead_singleton :
    p.Ahead [(s, t)] n u ↔
      (n = s ∧ u = t) ∨ p.Ahead ((p.move t).delays.map fun (d, v) => (s + d, v)) n u := by
  constructor
  · rintro ⟨s', t', w, hmem, rfl, hpath⟩
    obtain ⟨rfl, rfl⟩ := Prod.mk.inj (List.mem_singleton.1 hmem)
    rcases weighedPath_iff.1 hpath with ⟨rfl, rfl⟩ | ⟨d, v, k, hv, rfl, hrest⟩
    · exact .inl ⟨rfl, rfl⟩
    · exact .inr ⟨s' + d, v, k, List.mem_map.2 ⟨(d, v), hv, rfl⟩, by omega, hrest⟩
  · rintro (⟨rfl, rfl⟩ | ⟨s', v, k, hmem, rfl, hpath⟩)
    · exact ⟨n, u, 0, List.mem_singleton.2 rfl, rfl, .here u⟩
    · obtain ⟨⟨d, v'⟩, hv, heq⟩ := List.mem_map.1 hmem
      obtain ⟨rfl, rfl⟩ := Prod.mk.inj heq
      exact ⟨s, t, k + d, List.mem_singleton.2 rfl, by omega, .of_move hv hpath⟩

end

namespace Machine

/-- The threads of a machine with the sweeps they are due in. -/
def due (m : Machine) : List (Nat × Thread) :=
  (m.stats.sweeps, m.current) ::
    (m.waiting.toList.map (m.stats.sweeps, ·) ++ m.kept.toList.map (m.stats.sweeps + 1, ·))

section
variable {p : Program} {m m' : Machine} {n : Nat} {u : Thread}

/-- Going on to the next thread changes no thread's sweep. -/
theorem due_of_visitNext {waiting kept : Queue Thread} {live : Nat} {stats : Stats}
    (h : visitNext waiting kept live stats = .running m) :
    m.due = waiting.toList.map (stats.sweeps, ·) ++ kept.toList.map (stats.sweeps + 1, ·) := by
  rcases visitNext_cases waiting kept live stats with
    ⟨t, rest, hw, hv⟩ | ⟨hw, t, rest, hk, hv⟩ | ⟨-, -, hv⟩
  · rw [h] at hv
    cases hv
    simp [due, hw]
  · rw [h] at hv
    cases hv
    simp [due, hw, hk]
  · rw [h] at hv
    cases hv

/-- An instruction leaves the threads of its move, each due after its delay, and all others. -/
theorem due_of_step (h : m.step p .none = .running m') :
    m'.due.Perm (((p.move m.current).delays.map fun (d, v) => (m.stats.sweeps + d, v)) ++
      m.due.tail) := by
  rw [step_none] at h
  cases hmove : p.move m.current with
  | accept =>
    rw [hmove] at h
    cases h
  | drop =>
    rw [hmove] at h
    rw [due_of_visitNext h]
    exact .refl _
  | consume t =>
    rw [hmove] at h
    rw [due_of_visitNext h, Queue.toList_enqueue, List.map_append, ← List.append_assoc]
    exact List.perm_append_comm
  | jump t =>
    rw [hmove] at h
    cases h
    exact .refl _
  | fork t u =>
    rw [hmove] at h
    rw [due_of_visitNext h]
    -- the new thread stands between those of this sweep and those of the next
    have ht := List.perm_append_singleton (m.stats.sweeps + 1, t)
      (m.waiting.toList.map (m.stats.sweeps, ·) ++
        (m.stats.sweeps, u) :: m.kept.toList.map (m.stats.sweeps + 1, ·))
    have hu : (m.waiting.toList.map (m.stats.sweeps, ·) ++
        (m.stats.sweeps, u) :: m.kept.toList.map (m.stats.sweeps + 1, ·)).Perm
          ((m.stats.sweeps, u) :: m.due.tail) := List.perm_middle
    simpa [Move.delays, stepped] using ht.trans (hu.cons _)

/-- Carrying out an instruction takes it off what lies ahead, and leaves the rest in its sweeps. -/
theorem ahead_of_step (h : m.step p .none = .running m') :
    p.Ahead m.due n u ↔ (n = m.stats.sweeps ∧ u = m.current) ∨ p.Ahead m'.due n u := by
  have hdue : m.due = [(m.stats.sweeps, m.current)] ++ m.due.tail := rfl
  rw [Program.ahead_congr (due_of_step h), hdue, Program.ahead_append, Program.ahead_append,
    Program.ahead_singleton, or_assoc]
  rfl

theorem ahead_current (p : Program) (m : Machine) :
    p.Ahead m.due m.stats.sweeps m.current :=
  ⟨_, _, 0, List.mem_cons_self, rfl, .here _⟩

/-- Nothing lies ahead in a sweep that is over. -/
theorem sweeps_le_of_ahead (h : p.Ahead m.due n u) : m.stats.sweeps ≤ n := by
  obtain ⟨s, t, w, hmem, rfl, -⟩ := h
  have hs : s = m.stats.sweeps ∨ s = m.stats.sweeps + 1 := by
    simp only [due, List.mem_cons, List.mem_append, List.mem_map, Prod.mk.injEq] at hmem
    rcases hmem with ⟨rfl, -⟩ | ⟨_, -, rfl, -⟩ | ⟨_, -, rfl, -⟩
    · exact .inl rfl
    · exact .inl rfl
    · exact .inr rfl
  omega

/-! ## Whole runs -/

/-- What the verdict says about the sweep in which a run ends: a match is the first one ahead, and
without a match the run ends with the last instruction ahead. -/
structure EndsOnTime (p : Program) (m : Machine) (r : Report) : Prop where
  first : r.verdict = .ok true →
    (∃ u, p.Ahead m.due r.stats.sweeps u ∧ p.move u = .accept) ∧
      ∀ n u, p.Ahead m.due n u → p.move u = .accept → r.stats.sweeps ≤ n
  last : r.verdict = .ok false →
    (∃ u, p.Ahead m.due r.stats.sweeps u) ∧ ∀ n u, p.Ahead m.due n u → n ≤ r.stats.sweeps

theorem endsOnTime_of_done {r : Report} (h : m.step p .none = .done r) : EndsOnTime p m r := by
  rcases done_of_step h with ⟨hmove, rfl⟩ | ⟨hmove, hothers, rfl⟩
  · refine ⟨fun _ => ⟨⟨m.current, ahead_current p m, hmove⟩, ?_⟩, by simp⟩
    intro n u hu _
    exact sweeps_le_of_ahead hu
  · refine ⟨by simp, fun _ => ⟨⟨m.current, ahead_current p m⟩, ?_⟩⟩
    -- only the instruction just carried out is ahead, for no thread is left
    intro n u hu
    obtain ⟨hw, hk⟩ := List.append_eq_nil_iff.1 hothers
    have hdue : m.due = [(m.stats.sweeps, m.current)] := by simp [due, hw, hk]
    rw [hdue, Program.ahead_singleton, hmove] at hu
    rcases hu with ⟨rfl, -⟩ | ⟨_, _, _, hmem, -⟩
    · exact Nat.le_refl _
    · simp [Move.delays] at hmem

theorem EndsOnTime.of_step {r : Report} (h : EndsOnTime p m' r)
    (hstep : m.step p .none = .running m') (hmove : p.move m.current ≠ .accept) :
    EndsOnTime p m r where
  first hv := by
    obtain ⟨⟨u, hu, haccept⟩, hmin⟩ := h.first hv
    refine ⟨⟨u, (ahead_of_step hstep).2 (.inr hu), haccept⟩, fun n v hahead hacc => ?_⟩
    rcases (ahead_of_step hstep).1 hahead with ⟨-, rfl⟩ | hahead
    · exact absurd hacc hmove
    · exact hmin n v hahead hacc
  last hv := by
    obtain ⟨⟨u, hu⟩, hmax⟩ := h.last hv
    have hu' := (ahead_of_step hstep).2 (.inr hu)
    refine ⟨⟨u, hu'⟩, fun n v hahead => ?_⟩
    rcases (ahead_of_step hstep).1 hahead with ⟨rfl, -⟩ | hahead
    · exact sweeps_le_of_ahead hu'
    · exact hmax n v hahead

theorem endsOnTime_run (hc : m.Counted) : EndsOnTime p m (m.run p .none) := by
  refine run_induction p (P := fun m => EndsOnTime p m (m.run p .none)) ?_ ?_ hc
  · intro m r _ h
    rw [run_of_done h]
    exact endsOnTime_of_done h
  · intro m m' _ h hnext ih
    rw [run_of_running h]
    exact ih.of_step h hnext.not_accept

end

theorem ahead_start {p : Program} {input : Bytes} {n : Nat} {u : Thread} :
    p.Ahead (start input).due n u ↔ ∃ w, n = 1 + w ∧ p.WeighedPath ⟨0, 0, input⟩ w u := by
  constructor
  · rintro ⟨s, t, w, hmem, rfl, hpath⟩
    obtain ⟨rfl, rfl⟩ := Prod.mk.inj (List.mem_singleton.1 hmem)
    exact ⟨w, rfl, hpath⟩
  · rintro ⟨w, rfl, hpath⟩
    exact ⟨1, ⟨0, 0, input⟩, w, List.mem_singleton.2 rfl, rfl, hpath⟩

end Machine

namespace Program

/-! ## Main statement -/

/-- **Timing.**  A run without limits that finds a match ends in the sweep whose number is the
least weight of a path to an accepting instruction, and one that finds none in the sweep whose
number is the greatest weight of any path; the first sweep is the one of weight zero. -/
theorem sweeps_eq_weight {p : Program} (hp : p.isEmpty = false) (input : Bytes) :
    (∃ v, (p.run .none input).verdict = .ok v) ∧
    ((p.run .none input).verdict = .ok true → ∃ w, (p.run .none input).stats.sweeps = 1 + w ∧
      IsLeast {w | ∃ u, p.WeighedPath ⟨0, 0, input⟩ w u ∧ p.code[u.pc]? = some .accept} w) ∧
    ((p.run .none input).verdict = .ok false → ∃ w, (p.run .none input).stats.sweeps = 1 + w ∧
      IsGreatest {w | ∃ u, p.WeighedPath ⟨0, 0, input⟩ w u} w) := by
  have hrun : p.run .none input = (Machine.start input).run p .none := by simp [run, hp]
  have htime := Machine.endsOnTime_run (p := p) (Machine.counted_start input)
  rw [← hrun] at htime
  obtain ⟨v, hv, -⟩ := p.verdict_run_none input
  refine ⟨⟨v, hv⟩, fun htrue => ?_, fun hfalse => ?_⟩
  · obtain ⟨⟨u, hu, haccept⟩, hmin⟩ := htime.first htrue
    obtain ⟨w, hw, hpath⟩ := Machine.ahead_start.1 hu
    refine ⟨w, hw, ⟨u, hpath, move_eq_accept_iff.1 haccept⟩, ?_⟩
    rintro k ⟨t, ht, hacc⟩
    have := hmin (1 + k) t (Machine.ahead_start.2 ⟨k, rfl, ht⟩) (move_eq_accept_iff.2 hacc)
    omega
  · obtain ⟨⟨u, hu⟩, hmax⟩ := htime.last hfalse
    obtain ⟨w, hw, hpath⟩ := Machine.ahead_start.1 hu
    refine ⟨w, hw, ⟨u, hpath⟩, ?_⟩
    rintro k ⟨t, ht⟩
    have := hmax (1 + k) t (Machine.ahead_start.2 ⟨k, rfl, ht⟩)
    omega

/-- A loop that is taken twice: each turn weighs a split and a byte, and the way out a byte. -/
theorem sweeps_eq_weight_loop :
    let p : Program := ⟨#[.split 1 3, .byte 97, .jump 0, .byte 98, .accept]⟩
    p.isEmpty = false ∧ (p.run .none (ascii "aab")).verdict = .ok true ∧
      (p.run .none (ascii "aab")).stats.sweeps = 6 ∧
      IsLeast {w | ∃ u, p.WeighedPath ⟨0, 0, ascii "aab"⟩ w u ∧ p.code[u.pc]? = some .accept} 5 := by
  intro p
  have hp : p.isEmpty = false := rfl
  have hverdict : (p.run .none (ascii "aab")).verdict = .ok true := by cbv
  have hsweeps : (p.run .none (ascii "aab")).stats.sweeps = 6 := by decide +kernel
  obtain ⟨w, hw, hleast⟩ := (sweeps_eq_weight hp (ascii "aab")).2.1 hverdict
  obtain rfl : w = 5 := by omega
  exact ⟨hp, hverdict, hsweeps, hleast⟩

end Program

end SweepRegex
