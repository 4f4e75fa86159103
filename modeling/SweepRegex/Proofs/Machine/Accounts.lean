import SweepRegex.Proofs.Machine.Limits
import SweepRegex.Proofs.Machine.Scans
import Mathlib.Order.Bounds.Basic

/-!
# Accounts of threads

How many threads are alive follows from what a run did so far: it starts with one, a fork makes one
more, a thread that ends makes one less, and nothing else changes their number.  The count that is
read off the cursors at a fork is this number with the new thread in it, so the bound on threads is
one on the threads there are, and the peak is the most there ever were.

Main statement: `accounts_of_compile`.
-/

namespace SweepRegex

namespace Scan

/-! ## Accounts -/

/-- How many threads are alive after these instructions of a run. -/
def alive (p : Program) (input : Bytes) (visits : List Scan) : Nat :=
  1 + visits.countP (forks p input) - visits.countP (drops p input)

/-- The next instruction is a fork, and the run goes on after it. -/
def TakesFork (p : Program) (limits : Limits) (input : Bytes) (s : Scan) : Prop :=
  s.forks p input = true ∧ ∃ s', s.step p limits input = some (.running s')

/-- After these instructions the bound on instructions admits one more, which is a fork, and the
fork would make more threads than the bound on threads admits. -/
structure Exceeds (p : Program) (limits : Limits) (input : Bytes) (before : List Scan) (s : Scan) :
    Prop where
  forks : s.forks p input = true
  steps : limits.allowsSteps (before.length + 1) = true
  bounded : limits.maxThreads ≠ 0
  threads : limits.maxThreads < alive p input (before ++ [s])

/-- The accounts of a run: its instructions are those of `visits`, and it ends with the report. -/
structure Accounts (p : Program) (limits : Limits) (input : Bytes) (visits : List Scan)
    (report : Report) : Prop where
  /-- The count at a fork. -/
  live : ∀ before s after, visits = before ++ s :: after → s.forks p input = true →
    s.live + before.countP (drops p input) = 1 + (before ++ [s]).countP (forks p input)
  peak_of_none : (∀ s ∈ visits, ¬s.TakesFork p limits input) → report.stats.peak = 1
  peak_of_some : (∃ s ∈ visits, s.TakesFork p limits input) →
    IsGreatest {n | ∃ before s after, visits = before ++ s :: after ∧
      s.TakesFork p limits input ∧ n = alive p input (before ++ [s])} report.stats.peak
  peak_le : limits.maxThreads ≠ 0 → report.stats.peak ≤ limits.maxThreads
  /-- The run ends at the first fork that exceeds the bound. -/
  last_of_exceeds : ∀ before s after, visits = before ++ s :: after →
    Exceeds p limits input before s → after = []
  threads_iff : report.verdict = .error .threads ↔
    ∃ before s after, visits = before ++ s :: after ∧ Exceeds p limits input before s

/-! ## Lemmas -/

theorem drops_of_forks {p : Program} {input : Bytes} {s : Scan} (h : s.forks p input = true) :
    s.drops p input = false := by
  unfold forks at h
  split at h
  · next c d he => simp [drops, he]
  · cases h

section
variable {p : Program} {limits : Limits} {input : Bytes} {s t : Scan} {r : Report}
variable {visits before after : List Scan}

/-- The state of the buffer before an instruction, by those the run carried out until then. -/
structure Balanced (p : Program) (input : Bytes) (s : Scan) (before : List Scan) (t : Scan) :
    Prop where
  live : t.live + before.countP (drops p input) = s.live + before.countP (forks p input)
  steps : t.stats.steps = s.stats.steps + before.length

theorem Balanced.nil : Balanced p input s [] s := ⟨rfl, rfl⟩

/-- The balance of one instruction and of those after it. -/
theorem Balanced.cons {s' : Scan} (hnext : Next p input s s') (h : Balanced p input s' before t) :
    Balanced p input s (s :: before) t := by
  have hlive := hnext.live
  have hbalance := h.live
  constructor
  · rw [List.countP_cons, List.countP_cons]
    cases hd : s.drops p input <;> cases hf : s.forks p input <;>
      simp only [hd, hf, Bool.toNat_true, Bool.toNat_false, if_true, Bool.false_eq_true, if_false]
        at hlive ⊢ <;> omega
  · rw [h.steps, hnext.steps, List.length_cons]
    omega

/-- Before each instruction of a run the buffer is balanced, and from there on it is a run. -/
theorem Runs.balanced (h : Runs p limits input s visits r) (hs : ∀ u ∈ visits, u.Sound p input)
    (hvisits : visits = before ++ t :: after) :
    Balanced p input s before t ∧ Runs p limits input t (t :: after) r := by
  induction h generalizing before with
  | done hstep =>
    rcases List.cons_eq_append_iff.1 hvisits with ⟨rfl, heq⟩ | ⟨before, rfl, heq⟩
    · cases heq
      exact ⟨.nil, .done hstep⟩
    · simp at heq
  | running hstep hrest ih =>
    obtain ⟨hsound, hsounds⟩ := List.forall_mem_cons.1 hs
    rcases List.cons_eq_append_iff.1 hvisits with ⟨rfl, heq⟩ | ⟨before, rfl, heq⟩
    · cases heq
      exact ⟨.nil, .running hstep hrest⟩
    · obtain ⟨hbalanced, hruns⟩ := ih hsounds heq
      exact ⟨.cons (next_of_step hsound hstep) hbalanced, hruns⟩

/-- The instruction that ends a run is its last one. -/
theorem Runs.of_done (h : Runs p limits input t (t :: after) r) {r' : Report}
    (hstep : t.step p limits input = some (.done r')) : after = [] ∧ r = r' := by
  cases h with
  | done hdone =>
    rw [hstep] at hdone
    cases hdone
    exact ⟨rfl, rfl⟩
  | running hrunning =>
    rw [hstep] at hrunning
    cases hrunning

theorem Runs.exists_last (h : Runs p limits input s visits r) :
    ∃ before t, visits = before ++ [t] ∧ t.step p limits input = some (.done r) := by
  induction h with
  | @done s r hstep => exact ⟨[], s, rfl, hstep⟩
  | @running s s' visits r _ _ ih =>
    obtain ⟨before, t, rfl, hstep⟩ := ih
    exact ⟨s :: before, t, rfl, hstep⟩

theorem TakesFork.allowsThreads (h : s.TakesFork p limits input) :
    limits.allowsThreads s.live = true := by
  obtain ⟨hforks, s', hstep⟩ := h
  unfold forks at hforks
  rcases running_cases hstep with ⟨he, -⟩ | ⟨c, he, -⟩ | ⟨c, he, -⟩ | ⟨c, d, -, hlive, -⟩
  · simp [he] at hforks
  · simp [he] at hforks
  · simp [he] at hforks
  · exact hlive

theorem Sound.two_le_live (hs : s.Sound p input) : 2 ≤ s.live := by
  have hread := hs.read_lt
  unfold live
  omega

/-- An instruction leaves the peak as it is, or raises it to the count at a fork. -/
theorem peak_of_step {s' : Scan} (hs : s.Sound p input)
    (h : s.step p limits input = some (.running s')) :
    s.stats.peak ≤ s'.stats.peak ∧
    (s.TakesFork p limits input → s.live ≤ s'.stats.peak) ∧
    (s'.stats.peak = s.stats.peak ∨
      s.TakesFork p limits input ∧ s'.stats.peak = s.live) := by
  have hpeak := (next_of_step hs h).peak
  by_cases hforks : s.forks p input = true
  · rw [if_pos hforks] at hpeak
    refine ⟨by omega, fun _ => by omega, ?_⟩
    rcases Nat.le_total s.live s.stats.peak with hle | hle
    · exact .inl (by omega)
    · exact .inr ⟨⟨hforks, s', h⟩, by omega⟩
  · rw [if_neg hforks] at hpeak
    exact ⟨by omega, fun htakes => absurd htakes.1 hforks, .inl hpeak⟩

/-- The peak of a run is that of its start, or the count at a fork that it takes. -/
theorem Runs.peak (h : Runs p limits input s visits r) (hs : ∀ u ∈ visits, u.Sound p input) :
    s.stats.peak ≤ r.stats.peak ∧
    (∀ u ∈ visits, u.TakesFork p limits input → u.live ≤ r.stats.peak) ∧
    (r.stats.peak = s.stats.peak ∨
      ∃ u ∈ visits, u.TakesFork p limits input ∧ r.stats.peak = u.live) := by
  induction h with
  | @done s r hstep =>
    have hsound := hs s (List.mem_singleton_self s)
    have hpeak : r.stats.peak = s.stats.peak := by
      rw [(done_of_step hsound hstep).1]
      rfl
    refine ⟨Nat.le_of_eq hpeak.symm, fun u hu htakes => ?_, .inl hpeak⟩
    obtain ⟨-, s', hstep'⟩ := htakes
    rw [List.mem_singleton.1 hu, hstep] at hstep'
    cases hstep'
  | @running s s' visits r hstep hrest ih =>
    obtain ⟨hsound, hsounds⟩ := List.forall_mem_cons.1 hs
    obtain ⟨hle, hall, hpeak⟩ := ih hsounds
    obtain ⟨hleStep, hstepTakes, hpeakStep⟩ := peak_of_step hsound hstep
    refine ⟨by omega, fun u hu htakes => ?_, ?_⟩
    · rcases List.mem_cons.1 hu with rfl | hu
      · exact Nat.le_trans (hstepTakes htakes) hle
      · exact hall u hu htakes
    · rcases hpeak with hpeak | ⟨u, hu, htakes, hpeak⟩
      · rw [hpeak]
        rcases hpeakStep with hsame | ⟨htakes, hlive⟩
        · exact .inl hsame
        · exact .inr ⟨s, List.mem_cons_self, htakes, hlive⟩
      · exact .inr ⟨u, List.mem_cons_of_mem s hu, htakes, hpeak⟩

/-! ## Runs from the start -/

/-- The account at a fork. -/
theorem Balanced.live_of_forks (h : Balanced p input .start before t)
    (hforks : t.forks p input = true) :
    t.live + before.countP (drops p input) = 1 + (before ++ [t]).countP (forks p input) := by
  have hlive := h.live
  have hstart : start.live = 2 := rfl
  rw [List.countP_append, List.countP_singleton, if_pos hforks]
  omega

theorem Balanced.alive_of_forks (h : Balanced p input .start before t)
    (hforks : t.forks p input = true) : alive p input (before ++ [t]) = t.live := by
  have hlive := h.live_of_forks hforks
  have hdrops : (before ++ [t]).countP (drops p input) = before.countP (drops p input) := by
    simp [drops_of_forks hforks]
  unfold alive
  rw [hdrops, ← hlive]
  omega

/-- A fork exceeds the bound on threads exactly if the bound refuses it. -/
theorem Balanced.exceeds_iff (h : Balanced p input .start before t) :
    Exceeds p limits input before t ↔
      t.forks p input = true ∧ limits.allowsSteps (t.stats.steps + 1) = true ∧
        limits.allowsThreads t.live = false := by
  have hsteps : t.stats.steps = before.length := h.steps.trans (Nat.zero_add _)
  have hrefused : limits.allowsThreads t.live = false ↔
      limits.maxThreads ≠ 0 ∧ limits.maxThreads < t.live := by
    rw [← Bool.not_eq_true, Limits.allowsThreads_iff]
    omega
  rw [hsteps, hrefused]
  constructor
  · rintro ⟨hforks, hadmitted, hbounded, hthreads⟩
    rw [h.alive_of_forks hforks] at hthreads
    exact ⟨hforks, hadmitted, hbounded, hthreads⟩
  · rintro ⟨hforks, hadmitted, hbounded, hthreads⟩
    rw [← h.alive_of_forks hforks] at hthreads
    exact ⟨hforks, hadmitted, hbounded, hthreads⟩

/-- A fork that exceeds the bound on threads ends the run. -/
theorem Balanced.of_exceeds (h : Balanced p input .start before t)
    (hruns : Runs p limits input t (t :: after) r) (hx : Exceeds p limits input before t) :
    after = [] ∧ r.verdict = .error .threads := by
  obtain ⟨hforks, hadmitted, hrefused⟩ := h.exceeds_iff.1 hx
  obtain ⟨hnil, rfl⟩ := hruns.of_done (step_of_not_allowsThreads hforks hadmitted hrefused)
  exact ⟨hnil, rfl⟩

theorem Runs.peak_eq_one (h : Runs p limits input .start visits r)
    (hs : ∀ u ∈ visits, u.Sound p input) (hnone : ∀ u ∈ visits, ¬u.TakesFork p limits input) :
    r.stats.peak = 1 := by
  obtain ⟨-, -, hpeak | ⟨u, hu, htakes, -⟩⟩ := h.peak hs
  · exact hpeak
  · exact absurd htakes (hnone u hu)

theorem Runs.isGreatest_peak (h : Runs p limits input .start visits r)
    (hs : ∀ u ∈ visits, u.Sound p input) (hsome : ∃ u ∈ visits, u.TakesFork p limits input) :
    IsGreatest {n | ∃ before u after, visits = before ++ u :: after ∧
      u.TakesFork p limits input ∧ n = alive p input (before ++ [u])} r.stats.peak := by
  obtain ⟨-, hle, hpeak⟩ := h.peak hs
  constructor
  · rcases hpeak with hpeak | ⟨u, hu, htakes, hpeak⟩
    · -- at a fork there are two threads, so the peak of the start is not the greatest
      obtain ⟨u, hu, htakes⟩ := hsome
      have hlive := hle u hu htakes
      have htwo := (hs u hu).two_le_live
      have hstart : start.stats.peak = 1 := rfl
      omega
    · obtain ⟨before, after, hv⟩ := List.append_of_mem hu
      refine ⟨before, u, after, hv, htakes, hpeak.trans ?_⟩
      exact ((h.balanced hs hv).1.alive_of_forks htakes.1).symm
  · rintro n ⟨before, u, after, hv, htakes, rfl⟩
    rw [(h.balanced hs hv).1.alive_of_forks htakes.1]
    exact hle u (by simp [hv]) htakes

theorem Runs.peak_le (h : Runs p limits input .start visits r)
    (hs : ∀ u ∈ visits, u.Sound p input) (hbounded : limits.maxThreads ≠ 0) :
    r.stats.peak ≤ limits.maxThreads := by
  obtain ⟨-, -, hpeak | ⟨u, -, htakes, hpeak⟩⟩ := h.peak hs
  · have hstart : start.stats.peak = 1 := rfl
    omega
  · have hlive := Limits.allowsThreads_iff.1 htakes.allowsThreads
    omega

theorem Runs.threads_iff (h : Runs p limits input .start visits r)
    (hs : ∀ u ∈ visits, u.Sound p input) :
    r.verdict = .error .threads ↔
      ∃ before u after, visits = before ++ u :: after ∧ Exceeds p limits input before u := by
  constructor
  · intro herror
    obtain ⟨before, u, hv, hstep⟩ := h.exists_last
    have hbalanced := (h.balanced hs hv).1
    have hrefused := (done_of_step (hs u (by simp [hv])) hstep).2 herror
    exact ⟨before, u, [], hv, hbalanced.exceeds_iff.2 hrefused⟩
  · rintro ⟨before, u, after, hv, hx⟩
    obtain ⟨hbalanced, hruns⟩ := h.balanced hs hv
    exact (hbalanced.of_exceeds hruns hx).2

theorem Runs.accounts (h : Runs p limits input .start visits r)
    (hs : ∀ u ∈ visits, u.Sound p input) : Accounts p limits input visits r where
  live _ _ _ hv hforks := (h.balanced hs hv).1.live_of_forks hforks
  peak_of_none := h.peak_eq_one hs
  peak_of_some := h.isGreatest_peak hs
  peak_le := h.peak_le hs
  last_of_exceeds before u after hv hx := by
    obtain ⟨hbalanced, hruns⟩ := h.balanced hs hv
    exact (hbalanced.of_exceeds hruns hx).1
  threads_iff := h.threads_iff hs

end

end Scan

namespace Pattern

/-! ## Main statement -/

/-- **Accounts of threads.**  At every fork of the run of an accepted pattern the count read off the
cursors is one, and the forks so far, without the threads that ended.  The peak of the run is the
greatest of these counts, and the bound on threads ends the run at the first that exceeds it. -/
theorem accounts_of_compile {pattern : Bytes} {p : Program} (h : compile pattern = .ok p)
    (limits : Limits) (input : Bytes) :
    ∃ visits, Scan.Runs p limits input .start visits (p.run limits input) ∧
      Scan.Accounts p limits input visits (p.run limits input) := by
  obtain ⟨visits, hruns, hsound⟩ := exists_scan h limits input
  exact ⟨visits, hruns, hruns.accounts hsound⟩

/-- A loop around a loop, in a run that the bound on threads ends. -/
theorem accounts_of_compile_nested_loop :
    ∃ p, compile (ascii "(a*)*b") = .ok p ∧
      (p.run ⟨4, 0⟩ (ascii "aab")).verdict = .error .threads ∧
      ∃ visits, Scan.Runs p ⟨4, 0⟩ (ascii "aab") .start visits (p.run ⟨4, 0⟩ (ascii "aab")) ∧
        Scan.Accounts p ⟨4, 0⟩ (ascii "aab") visits (p.run ⟨4, 0⟩ (ascii "aab")) := by
  have h : compile (ascii "(a*)*b") =
      .ok ⟨#[.split 1 5, .split 2 4, .byte 97, .jump 1, .jump 0, .byte 98, .accept]⟩ := by cbv
  exact ⟨_, h, by cbv, accounts_of_compile h ⟨4, 0⟩ (ascii "aab")⟩

end Pattern

end SweepRegex
