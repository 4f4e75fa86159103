import SweepRegex.CommandLine.Session

/-!
# Calls on a system

A call asks a system for its environment, for what the path of the settings leads to and for its
input, and for nothing that it does not get to.  In surroundings that are known that is the same as
having all of it beforehand (`execute_eq`).  And a system whose answers are those that the
surroundings would give (`System.Shows`) cannot be told from them: whatever else asking it does, the
call has the same outcome.  Of a stream it has to show no more than the read at hand can see, which
is one byte behind the bound (`Stream.read_upTo`).

    system.Shows here → conduct system arguments = pure (execute here arguments)   (conduct_eq_pure)
-/

namespace SweepRegex

/-! ## Known surroundings -/

theorem Job.read_system (job : Job) (here : Surroundings) :
    (job.read here.system).run =
      if job.options.inputPath = [] then (here.stdin.read job.settings.maxBytes).1
      else here.files.read job.options.inputPath job.settings.maxBytes := by
  unfold Job.read
  split <;> rfl

theorem execute_eq (here : Surroundings) (arguments : List Bytes) :
    execute here arguments =
      match Options.ofArguments arguments with
      | .error outcome => outcome
      | .ok options =>
        let loaded := Settings.load here.files here.environment options.settingsPath
        match Job.prepare options loaded.1 loaded.2 with
        | .error outcome => outcome
        | .ok job => job.finish (job.read here.system).run := by
  unfold execute conduct
  cases Options.ofArguments arguments with
  | error outcome => rfl
  | ok options =>
    show Id.run (match Job.prepare options _ _ with | .error outcome => _ | .ok job => _) = _
    generalize Settings.load here.files here.environment options.settingsPath = loaded
    cases Job.prepare options loaded.1 loaded.2 <;> rfl

/-! ## Streams that are shown in part -/

/-- A stream as far as a read of up to `max` bytes can see it. -/
def Stream.upTo (s : Stream) (max : Nat) : Stream :=
  { s with
    rest := s.rest.take (max + 1)
    fault? := if s.rest.length ≤ max then s.fault? else none }

/-- Where all of the bound can be read, nothing depends on what is behind it. -/
theorem Stream.read_of_le {s : Stream} {max : Nat} (h : max ≤ s.rest.length) :
    (s.read max).1 =
      match s.failed? with
      | some why => .error (.cannotRead why)
      | none => .ok ⟨s.rest.take max, decide (max < s.rest.length)⟩ := by
  have hlt : ¬s.rest.length < max := Nat.not_lt.2 h
  cases hf : s.failed? with
  | some why => simp [read, gather_eq, fetch, hlt, hf]
  | none => simp [read, gather_eq, fetch, hlt, hf, h]

/-- No read sees more than one byte behind its bound. -/
theorem Stream.read_upTo (s : Stream) (max : Nat) : ((s.upTo max).read max).1 = (s.read max).1 := by
  by_cases hmax : s.rest.length ≤ max
  · have hsame : s.upTo max = s := by
      simp [upTo, hmax, List.take_of_length_le (Nat.le_succ_of_le hmax)]
    rw [hsame]
  · have hlt : max < s.rest.length := Nat.lt_of_not_le hmax
    have hlen : (s.upTo max).rest.length = max + 1 := by
      simp only [upTo, List.length_take]
      omega
    rw [read_of_le (Nat.le_of_lt hlt), read_of_le (hlen ▸ Nat.le_succ max), hlen]
    simp [upTo, List.take_take, hlt]

/-! ## Systems -/

/-- The answers of the system are those of the surroundings, as far as a call can see. -/
structure System.Shows {m : Type → Type} [Monad m] (system : System m) (here : Surroundings) :
    Prop where
  environment : system.environment = pure here.environment
  node : ∀ path, system.node path = pure (here.files.node path)
  stdin : ∀ max, system.stdin max = pure (here.stdin.upTo max)
  openFile : ∀ path max, system.openFile path max =
    pure ((Stream.openNode (here.files.node path)).map fun s => s.upTo max)

section
variable {m : Type → Type} [Monad m] [LawfulMonad m] {system : System m} {here : Surroundings}
  (h : system.Shows here)
include h

theorem Settings.loadFrom_eq_pure (path : Bytes) :
    loadFrom system.node here.environment path =
      pure (load here.files here.environment path) := by
  unfold load loadFrom
  split
  · cases here.environment.settingsPath? with
    | none => rfl
    | some place =>
      simp only [h.node, pure_bind]
      rfl
  · simp only [h.node, pure_bind]
    rfl

theorem Job.read_eq_pure (job : Job) :
    job.read system = pure (job.read here.system).run := by
  rw [read_system, read]
  split
  · rw [h.stdin, pure_bind, Stream.read_upTo]
  · simp only [h.openFile, pure_bind, FileSystem.read]
    cases Stream.openNode (here.files.node job.options.inputPath) with
    | error why => rfl
    | ok s => exact congrArg pure (Stream.read_upTo s _)

/-- **A call sees its surroundings only by what the system answers.** -/
theorem conduct_eq_pure (arguments : List Bytes) :
    conduct system arguments = pure (execute here arguments) := by
  rw [execute_eq, conduct]
  cases Options.ofArguments arguments with
  | error outcome => rfl
  | ok options =>
    simp only [h.environment, pure_bind, Settings.loadFrom_eq_pure h]
    generalize Settings.load here.files here.environment options.settingsPath = loaded
    cases Job.prepare options loaded.1 loaded.2 with
    | error outcome => rfl
    | ok job => simp only [Job.read_eq_pure h, pure_bind]

end

end SweepRegex
