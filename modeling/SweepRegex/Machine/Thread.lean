import SweepRegex.Program

/-!
# Threads

A thread is one attempt to follow the code of a program along the input.  It carries the input
that is left to it, and it counts the branches it took since it last consumed a byte: a thread
that took as many of them as the program has instructions is walking in circles and takes no more.
That makes the tree of everything a thread can still do finite: `height` bounds its paths and
`pathCount` is its size.

Main statements: every move lowers the height (`height_lt_of_mem_move`), and `pathCount_eq` unfolds
the tree once.
-/

namespace SweepRegex

/-- One attempt to match. -/
structure Thread where
  /-- The place in the program. -/
  pc : Nat
  /-- Branches taken since a byte was last consumed. -/
  idle : Nat
  /-- The input not yet consumed. -/
  rest : Bytes
deriving DecidableEq

/-- What carrying out one instruction does to a thread. -/
inductive Move where
  /-- The input consumed so far matches. -/
  | accept
  /-- The thread ends. -/
  | drop
  /-- A byte is consumed. -/
  | consume (t : Thread)
  /-- The thread goes on elsewhere. -/
  | jump (t : Thread)
  /-- The thread goes on at one place, and a new one at another. -/
  | fork (t u : Thread)
deriving DecidableEq

/-- The threads that are there after a move. -/
def Move.threads : Move → List Thread
  | .accept | .drop => []
  | .consume t | .jump t => [t]
  | .fork t u => [t, u]

namespace Program

/-! ## Algorithm -/

/-- The next move of a thread.  Outside the program there is nothing to do and the thread ends. -/
def move (p : Program) (t : Thread) : Move :=
  match p.code[t.pc]? with
  | none => .drop
  | some (.byte b) =>
    match t.rest with
    | [] => .drop
    | c :: rest => if c = b then .consume ⟨t.pc + 1, 0, rest⟩ else .drop
  | some .any =>
    match t.rest with
    | [] => .drop
    | _ :: rest => .consume ⟨t.pc + 1, 0, rest⟩
  | some .accept => .accept
  | some (.jump x) =>
    if t.idle < p.size then .jump ⟨x, t.idle + 1, t.rest⟩ else .drop
  | some (.split x y) =>
    if t.idle < p.size then .fork ⟨x, t.idle + 1, t.rest⟩ ⟨y, t.idle + 1, t.rest⟩ else .drop

/-- How many more instructions a thread can carry out before it ends, whichever way it takes: all
branches it still may take, then for each byte of its input that byte and all branches anew. -/
def height (p : Program) (t : Thread) : Nat :=
  t.rest.length * (p.size + 1) + (p.size - t.idle)

/-- The threads that are there after a move: one that consumed a byte, or those that took one of
the branches still allowed. -/
theorem mem_threads_move {p : Program} {t u : Thread} (h : u ∈ (p.move t).threads) :
    (∃ b rest, t.rest = b :: rest ∧ u = ⟨t.pc + 1, 0, rest⟩ ∧
      (p.code[t.pc]? = some (.byte b) ∨ p.code[t.pc]? = some .any)) ∨
    (∃ i, p.code[t.pc]? = some i ∧ t.idle < p.size ∧
      ∃ x ∈ i.targets, u = ⟨x, t.idle + 1, t.rest⟩) := by
  unfold move at h
  split at h
  · simp [Move.threads] at h
  · next b hi =>
    split at h
    · simp [Move.threads] at h
    · next c rest hr =>
      split at h
      · next hc =>
        subst hc
        simp only [Move.threads, List.mem_singleton] at h
        exact .inl ⟨c, rest, hr, h, .inl hi⟩
      · simp [Move.threads] at h
  · next hi =>
    split at h
    · simp [Move.threads] at h
    · next c rest hr =>
      simp only [Move.threads, List.mem_singleton] at h
      exact .inl ⟨c, rest, hr, h, .inr hi⟩
  · simp [Move.threads] at h
  · next x hi =>
    split at h
    · next hidle =>
      simp only [Move.threads, List.mem_singleton] at h
      exact .inr ⟨_, hi, hidle, x, by simp [Instr.targets], h⟩
    · simp [Move.threads] at h
  · next x y hi =>
    split at h
    · next hidle =>
      simp only [Move.threads, List.mem_cons, List.not_mem_nil, or_false] at h
      rcases h with h | h
      · exact .inr ⟨_, hi, hidle, x, by simp [Instr.targets], h⟩
      · exact .inr ⟨_, hi, hidle, y, by simp [Instr.targets], h⟩
    · simp [Move.threads] at h

theorem height_lt_of_mem_move {p : Program} {t u : Thread} (h : u ∈ (p.move t).threads) :
    p.height u < p.height t := by
  unfold height
  rcases mem_threads_move h with ⟨b, rest, hr, rfl, -⟩ | ⟨i, -, hidle, x, -, rfl⟩
  · rw [hr, List.length_cons, Nat.add_mul]
    show rest.length * (p.size + 1) + (p.size - 0) < _
    omega
  · show t.rest.length * (p.size + 1) + (p.size - (t.idle + 1)) < _
    omega

/-- How many instructions a thread and all threads that come from it carry out until they end. -/
def pathCount (p : Program) (t : Thread) : Nat :=
  match h : p.move t with
  | .accept | .drop => 1
  | .consume u | .jump u => 1 + pathCount p u
  | .fork u v => 1 + pathCount p u + pathCount p v
termination_by p.height t
decreasing_by
  all_goals exact height_lt_of_mem_move (by simp [h, Move.threads])

/-- How many instructions these threads and all threads that come from them carry out. -/
def pathCounts (p : Program) (threads : List Thread) : Nat :=
  threads.foldr (fun t n => p.pathCount t + n) 0

/-! ## Lemmas -/

@[simp] theorem pathCounts_nil (p : Program) : p.pathCounts [] = 0 := rfl

@[simp] theorem pathCounts_cons (p : Program) (t : Thread) (ts : List Thread) :
    p.pathCounts (t :: ts) = p.pathCount t + p.pathCounts ts := rfl

@[simp] theorem pathCounts_append (p : Program) (ts us : List Thread) :
    p.pathCounts (ts ++ us) = p.pathCounts ts + p.pathCounts us := by
  induction ts with
  | nil => simp
  | cons t ts ih => simp [ih, Nat.add_assoc]

/-- The instruction itself, and what each thread that is there after it carries out. -/
theorem pathCount_eq (p : Program) (t : Thread) :
    p.pathCount t = 1 + p.pathCounts (p.move t).threads := by
  rw [pathCount]
  split <;> rename_i h <;> simp [h, Move.threads, Nat.add_assoc]

theorem pathCount_pos (p : Program) (t : Thread) : 0 < p.pathCount t := by
  rw [pathCount_eq]
  omega

end Program

end SweepRegex
