import SweepRegex.Machine.Thread
import Mathlib.Data.Finset.Card
import Mathlib.Data.Nat.Find
import Mathlib.Logic.Relation

/-!
# Paths through a program

What a program accepts, without threads: a configuration is a place in the program with the input
that is left, `Step` takes it to its successors, and it is accepted from if some path reaches an
accepting instruction (`AcceptsFrom`).  Nothing counts branches here, so a path may walk in circles
as long as it likes.

A thread does count them.  `accepting_iff_acceptsFrom` says that the count loses nothing: on a
shortest path to acceptance no place is visited twice between two bytes, so fewer branches are
taken there than the program has instructions.
-/

namespace SweepRegex

/-- A place in a program, and the input not yet consumed there. -/
structure Config where
  pc : Nat
  rest : Bytes

/-- Where a thread is, without its count of branches. -/
def Thread.config (t : Thread) : Config := ⟨t.pc, t.rest⟩

namespace Program

/-! ## Paths -/

/-- One instruction, carried out at a configuration. -/
inductive Step (p : Program) : Config → Config → Prop where
  | byte {pc : Nat} {b : UInt8} {rest : Bytes} :
      p.code[pc]? = some (.byte b) → Step p ⟨pc, b :: rest⟩ ⟨pc + 1, rest⟩
  | any {pc : Nat} {b : UInt8} {rest : Bytes} :
      p.code[pc]? = some .any → Step p ⟨pc, b :: rest⟩ ⟨pc + 1, rest⟩
  | jump {pc x : Nat} {rest : Bytes} :
      p.code[pc]? = some (.jump x) → Step p ⟨pc, rest⟩ ⟨x, rest⟩
  | first {pc x y : Nat} {rest : Bytes} :
      p.code[pc]? = some (.split x y) → Step p ⟨pc, rest⟩ ⟨x, rest⟩
  | second {pc x y : Nat} {rest : Bytes} :
      p.code[pc]? = some (.split x y) → Step p ⟨pc, rest⟩ ⟨y, rest⟩

/-- Some path from the configuration reaches an accepting instruction. -/
def AcceptsFrom (p : Program) (c : Config) : Prop :=
  ∃ d, Relation.ReflTransGen p.Step c d ∧ p.code[d.pc]? = some .accept

/-- Some path of the given length does. -/
def AcceptsIn (p : Program) : Nat → Config → Prop
  | 0, c => p.code[c.pc]? = some .accept
  | n + 1, c => ∃ d, p.Step c d ∧ p.AcceptsIn n d

theorem acceptsFrom_iff_exists_acceptsIn {p : Program} {c : Config} :
    p.AcceptsFrom c ↔ ∃ n, p.AcceptsIn n c := by
  constructor
  · rintro ⟨d, hpath, hd⟩
    induction hpath using Relation.ReflTransGen.head_induction_on with
    | refl => exact ⟨0, hd⟩
    | head hstep _ ih =>
      obtain ⟨n, hn⟩ := ih
      exact ⟨n + 1, _, hstep, hn⟩
  · rintro ⟨n, hn⟩
    induction n generalizing c with
    | zero => exact ⟨c, .refl, hn⟩
    | succ n ih =>
      obtain ⟨d, hstep, hd⟩ := hn
      obtain ⟨e, hpath, he⟩ := ih hd
      exact ⟨e, .head hstep hpath, he⟩

theorem Step.pc_lt {p : Program} {c d : Config} (h : p.Step c d) : c.pc < p.size := by
  have lt {pc : Nat} {i : Instr} (hi : p.code[pc]? = some i) : pc < p.size :=
    (Array.getElem?_eq_some_iff.1 hi).1
  cases h with
  | byte hi => exact lt hi
  | any hi => exact lt hi
  | jump hi => exact lt hi
  | first hi => exact lt hi
  | second hi => exact lt hi

/-! ## Moves of a thread -/

theorem move_eq_accept_iff {p : Program} {t : Thread} :
    p.move t = .accept ↔ p.code[t.pc]? = some .accept := by
  unfold move
  repeat' split
  all_goals simp_all

/-- A move of a thread is a step. -/
theorem step_of_mem_move {p : Program} {t u : Thread} (h : u ∈ (p.move t).threads) :
    p.Step t.config u.config := by
  obtain ⟨pc, idle, rest⟩ := t
  rcases mem_threads_move h with ⟨b, rest, rfl, rfl, hi | hi⟩ | ⟨i, hi, -, x, hx, rfl⟩
  · exact .byte hi
  · exact .any hi
  · cases i with
    | jump y =>
      obtain rfl : x = y := by simpa [Instr.targets] using hx
      exact .jump hi
    | split y z =>
      obtain rfl | rfl : x = y ∨ x = z := by simpa [Instr.targets] using hx
      · exact .first hi
      · exact .second hi
    | _ => simp [Instr.targets] at hx

/-- A step is a move of a thread that has branches left to take.  Either a byte is consumed and the
count starts anew, or one more branch is counted. -/
theorem exists_mem_move_of_step {p : Program} {t : Thread} {d : Config} (h : p.Step t.config d)
    (hi : t.idle < p.size) :
    ∃ u ∈ (p.move t).threads, u.config = d ∧
      (u.idle = 0 ∨ u.idle = t.idle + 1 ∧ d.rest = t.rest) := by
  obtain ⟨pc, idle, rest⟩ := t
  generalize hc : (⟨pc, idle, rest⟩ : Thread).config = c at h
  cases h with
  | byte hcode =>
    cases hc
    exact ⟨⟨_, 0, _⟩, by simp [move, hcode, Move.threads], rfl, .inl rfl⟩
  | any hcode =>
    cases hc
    exact ⟨⟨_, 0, _⟩, by simp [move, hcode, Move.threads], rfl, .inl rfl⟩
  | jump hcode =>
    cases hc
    exact ⟨⟨_, idle + 1, _⟩, by simp [move, hcode, hi, Move.threads], rfl, .inr ⟨rfl, rfl⟩⟩
  | first hcode =>
    cases hc
    exact ⟨⟨_, idle + 1, _⟩, by simp [move, hcode, hi, Move.threads], rfl, .inr ⟨rfl, rfl⟩⟩
  | second hcode =>
    cases hc
    exact ⟨⟨_, idle + 1, _⟩, by simp [move, hcode, hi, Move.threads], rfl, .inr ⟨rfl, rfl⟩⟩

/-! ## The count of branches -/

/-- The thread, or one that comes from it, accepts. -/
inductive Accepting (p : Program) : Thread → Prop where
  | here {t : Thread} : p.move t = .accept → Accepting p t
  | later {t u : Thread} : u ∈ (p.move t).threads → Accepting p u → Accepting p t

theorem accepting_iff {p : Program} {t : Thread} :
    p.Accepting t ↔ p.move t = .accept ∨ ∃ u ∈ (p.move t).threads, p.Accepting u := by
  constructor
  · rintro (h | ⟨hu, h⟩)
    · exact .inl h
    · exact .inr ⟨_, hu, h⟩
  · rintro (h | ⟨u, hu, h⟩)
    · exact .here h
    · exact .later hu h

theorem Accepting.acceptsFrom {p : Program} {t : Thread} (h : p.Accepting t) :
    p.AcceptsFrom t.config := by
  induction h with
  | here h => exact ⟨_, .refl, move_eq_accept_iff.1 h⟩
  | later hu _ ih =>
    obtain ⟨d, hpath, hd⟩ := ih
    exact ⟨d, .head (step_of_mem_move hu) hpath, hd⟩

/-- Along a shortest path to acceptance.  `visited` holds the places of the branches taken since a
byte was last consumed, at least as many as the thread counts.  All of them are further away from
acceptance than the thread is, so it is at none of them, and as they are places of the program
there is a branch left for it to take. -/
theorem accepting_of_shortest {p : Program} {n : Nat} {t : Thread} (visited : Finset Nat)
    (hn : p.AcceptsIn n t.config) (hmin : ∀ k < n, ¬p.AcceptsIn k t.config)
    (hsub : visited ⊆ Finset.range p.size) (hidle : t.idle ≤ visited.card)
    (hfar : ∀ pc ∈ visited, ∀ k ≤ n, ¬p.AcceptsIn k ⟨pc, t.rest⟩) : p.Accepting t := by
  induction n generalizing t visited with
  | zero => exact .here (move_eq_accept_iff.2 hn)
  | succ n ih =>
    have hnew : t.pc ∉ visited := fun h => hfar t.pc h (n + 1) (Nat.le_refl _) hn
    obtain ⟨d, hstep, hd⟩ := hn
    have hdmin : ∀ k < n, ¬p.AcceptsIn k d :=
      fun k hk hacc => hmin (k + 1) (by omega) ⟨d, hstep, hacc⟩
    have hsub' : insert t.pc visited ⊆ Finset.range p.size :=
      Finset.insert_subset (Finset.mem_range.2 hstep.pc_lt) hsub
    have hcard : (insert t.pc visited).card = visited.card + 1 := Finset.card_insert_of_notMem hnew
    have hbound : (insert t.pc visited).card ≤ p.size := by
      simpa using Finset.card_le_card hsub'
    obtain ⟨u, hu, rfl, hcount⟩ := exists_mem_move_of_step hstep (by omega)
    refine .later hu ?_
    rcases hcount with h0 | ⟨h1, hrest⟩
    · exact ih ∅ hd hdmin (Finset.empty_subset _) (by omega) (by simp)
    · refine ih (insert t.pc visited) hd hdmin hsub' (by omega) fun pc hpc k hk => ?_
      have hrest' : u.rest = t.rest := hrest
      rw [hrest']
      rcases Finset.mem_insert.1 hpc with rfl | hpc
      · exact hmin k (by omega)
      · exact hfar pc hpc k (by omega)

/-- A thread that has not counted a branch yet accepts as soon as any path does. -/
theorem accepting_iff_acceptsFrom {p : Program} {pc : Nat} {rest : Bytes} :
    p.Accepting ⟨pc, 0, rest⟩ ↔ p.AcceptsFrom ⟨pc, rest⟩ := by
  constructor
  · exact fun h => h.acceptsFrom
  · intro h
    have hex := acceptsFrom_iff_exists_acceptsIn.1 h
    classical
    exact accepting_of_shortest ∅ (Nat.find_spec hex) (fun k hk => Nat.find_min hex hk)
      (Finset.empty_subset _) (Nat.zero_le _) (by simp)

end Program

end SweepRegex
