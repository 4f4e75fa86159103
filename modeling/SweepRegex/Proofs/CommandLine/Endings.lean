import SweepRegex.Proofs.CommandLine.Systems

/-!
# How a call ends

A call of the program asks for four things in turn: its options, the program of its pattern, its
input and the answer of the machine.  The first of them that cannot be had ends the call, and what
it prints then depends on nothing behind it; with all four it ends with a verdict.

    execute_of_usage        the arguments are refused
    execute_of_fault        the pattern is refused
    execute_of_unreadable   the input cannot be read
    execute_of_limit        a limit ends the run or the search
    execute_of_verdict      the answer is printed
-/

namespace SweepRegex

/-- The listing of a program, if it was asked for. -/
def Options.listing (o : Options) (p : Program) : Bytes := if o.dump then p.listing else []

namespace Verdict

/-- The verdict of a run. -/
def ofRun (b : Bool) : Verdict := if b then .found else .notFound

/-- The verdict of a search. -/
def ofSearch : Option Nat → Verdict
  | none => .notFound
  | some k => .foundAt k

theorem line_ne_nil (v : Verdict) : v.line ≠ [] := by
  cases v <;> simp [line, ascii]

/-- The line tells the verdict. -/
theorem line_injective : Function.Injective line := by
  have hno : line .notFound = [110, 111, 32, 109, 97, 116, 99, 104, 10] := by decide +kernel
  have hfound : line .found = [109, 97, 116, 99, 104, 10] := by decide +kernel
  have hat (k : Nat) : line (.foundAt k) =
      [109, 97, 116, 99, 104, 32, 97, 116, 32] ++ Bytes.decimal k ++ [Bytes.newline] := rfl
  intro v w h
  cases v <;> cases w <;> simp_all [Bytes.decimal_injective.eq_iff]

end Verdict

section
variable {ε α β : Type} {r : Except ε α} {f : α → β}

theorem map_eq_ok_iff {b : β} : r.map f = .ok b ↔ ∃ a, r = .ok a ∧ f a = b := by
  cases r <;> simp [Except.map]

theorem map_eq_error_iff {e : ε} : r.map f = .error e ↔ r = .error e := by
  cases r <;> simp [Except.map]

end

namespace Surroundings

/-! ## What a call asks for -/

/-- The settings of a call with these options. -/
def settings (here : Surroundings) (o : Options) : Settings :=
  (Settings.load here.files here.environment o.settingsPath).1

/-- The chosen pattern: the one on the command line, or else the one in the settings. -/
def pattern (here : Surroundings) (o : Options) : Bytes :=
  o.pattern.getD (here.settings o).pattern

/-- The input, as far as it may be read. -/
def read (here : Surroundings) (o : Options) : Except ReadError Input :=
  if o.inputPath = [] then (here.stdin.read (here.settings o).maxBytes).1
  else here.files.read o.inputPath (here.settings o).maxBytes

/-- All the input there is to read.  A directory can be opened, but it holds nothing. -/
def content? (here : Surroundings) (o : Options) : Option Bytes :=
  if o.inputPath = [] then some here.stdin.rest
  else
    match here.files.node o.inputPath with
    | .refused _ => none
    | .directory => some []
    | .file content => some content

/-- What the machine says about the input. -/
def answer (here : Surroundings) (o : Options) (p : Program) (data : Bytes) :
    Except LimitError Verdict :=
  if o.search then (p.search (here.settings o).limits data).map .ofSearch
  else (p.run (here.settings o).limits data).verdict.map .ofRun

/-- What a call prints in front of its verdict: the listing, if it was asked for and there is a
program. -/
def listing (here : Surroundings) (arguments : List Bytes) : Bytes :=
  match Options.parse arguments with
  | .error _ => []
  | .ok o =>
    match Pattern.compile (here.pattern o) with
    | .error _ => []
    | .ok p => o.listing p

theorem answer_of_run {here : Surroundings} {o : Options} {p : Program} {data : Bytes}
    (h : o.search = false) :
    here.answer o p data = (p.run (here.settings o).limits data).verdict.map .ofRun := by
  simp [answer, h]

theorem answer_of_search {here : Surroundings} {o : Options} {p : Program} {data : Bytes}
    (h : o.search = true) :
    here.answer o p data = (p.search (here.settings o).limits data).map .ofSearch := by
  simp [answer, h]

theorem listing_of_usage {here : Surroundings} {arguments : List Bytes} {e : UsageError}
    (h : Options.parse arguments = .error e) : here.listing arguments = [] := by
  simp [listing, h]

theorem listing_of_fault {here : Surroundings} {arguments : List Bytes} {o : Options}
    {fault : Fault} (ho : Options.parse arguments = .ok o)
    (h : Pattern.compile (here.pattern o) = .error fault) : here.listing arguments = [] := by
  simp [listing, ho, h]

theorem listing_of_program {here : Surroundings} {arguments : List Bytes} {o : Options}
    {p : Program} (ho : Options.parse arguments = .ok o)
    (h : Pattern.compile (here.pattern o) = .ok p) : here.listing arguments = o.listing p := by
  simp [listing, ho, h]

/-- What was read is the front part of the input that the bound allows. -/
theorem exists_content_of_read {here : Surroundings} {o : Options} {i : Input}
    (h : here.read o = .ok i) :
    ∃ content, here.content? o = some content ∧
      i.data = content.take (here.settings o).maxBytes := by
  simp only [read, FileSystem.read] at h
  unfold content?
  split at h
  · next hpath => exact ⟨here.stdin.rest, if_pos hpath, Stream.data_of_read h⟩
  · next hpath =>
    rw [if_neg hpath]
    cases hnode : here.files.node o.inputPath with
    | refused why =>
      rw [hnode] at h
      cases h
    | directory =>
      rw [hnode] at h
      exact ⟨[], rfl, Stream.data_of_read h⟩
    | file content =>
      rw [hnode] at h
      exact ⟨content, rfl, Stream.data_of_read h⟩

end Surroundings

/-! ## Messages -/

theorem Notice.text_ne_nil (n : Notice) : n.text ≠ [] := by
  simp [Notice.text, ascii]

/-- A failure ends with its own message. -/
theorem Outcome.stderr_failure (stdout : Bytes) (notices : List Notice) (n : Notice) :
    (Outcome.failure stdout (notices ++ [n])).stderr = noticesText notices ++ n.text := by
  simp [Outcome.failure, noticesText]

theorem Outcome.stderr_failure_ne_nil (stdout : Bytes) (notices : List Notice) (n : Notice) :
    (Outcome.failure stdout (notices ++ [n])).stderr ≠ [] := by
  rw [Outcome.stderr_failure]
  exact List.append_ne_nil_of_right_ne_nil _ n.text_ne_nil

/-! ## Endings -/

theorem execute_of_usage {here : Surroundings} {arguments : List Bytes} {e : UsageError}
    (h : Options.parse arguments = .error e) :
    execute here arguments = .failure (here.listing arguments) [.usage e] := by
  rw [Surroundings.listing_of_usage h, execute_eq]
  simp only [Options.ofArguments, h]

section
variable {here : Surroundings} {arguments : List Bytes} {o : Options} {p : Program} {i : Input}
  (ho : Options.parse arguments = .ok o) (hhelp : o.help = false)
include ho hhelp

theorem ofArguments_eq_ok : Options.ofArguments arguments = .ok o := by
  simp [Options.ofArguments, ho, hhelp]

theorem execute_of_fault {fault : Fault} (h : Pattern.compile (here.pattern o) = .error fault) :
    ∃ notices, execute here arguments =
      .failure (here.listing arguments)
        (notices ++ [.patternRefused (here.pattern o) fault]) := by
  have hpattern : Pattern.compile (o.pattern.getD
      (Settings.load here.files here.environment o.settingsPath).1.pattern) = .error fault := h
  rw [Surroundings.listing_of_fault ho h, execute_eq]
  simp only [ofArguments_eq_ok ho hhelp, Job.prepare, hpattern]
  exact ⟨_, rfl⟩

/-- With a program there is a job to finish. -/
theorem exists_job (h : Pattern.compile (here.pattern o) = .ok p) :
    ∃ job : Job, job.options = o ∧ job.settings = here.settings o ∧ job.program = p ∧
      job.listing = here.listing arguments ∧
      execute here arguments = job.finish (here.read o) := by
  have hpattern : Pattern.compile (o.pattern.getD
      (Settings.load here.files here.environment o.settingsPath).1.pattern) = .ok p := h
  rw [Surroundings.listing_of_program ho h, execute_eq]
  simp only [ofArguments_eq_ok ho hhelp, Job.prepare, hpattern, Job.read_system]
  exact ⟨_, rfl, rfl, rfl, rfl, rfl⟩

theorem execute_of_unreadable {e : ReadError} (h : Pattern.compile (here.pattern o) = .ok p)
    (hread : here.read o = .error e) :
    ∃ notices, execute here arguments =
      .failure (here.listing arguments) (notices ++ [.inputUnreadable e]) := by
  obtain ⟨job, -, -, -, hlisting, hfinish⟩ := exists_job ho hhelp h
  rw [hfinish, hread, ← hlisting]
  exact ⟨_, rfl⟩

theorem exists_job_of_read (h : Pattern.compile (here.pattern o) = .ok p)
    (hread : here.read o = .ok i) :
    ∃ job : Job, job.listing = here.listing arguments ∧
      (job.judge i.data).1 = here.answer o p i.data ∧
      execute here arguments = job.finish (.ok i) := by
  obtain ⟨job, rfl, hsettings, rfl, hlisting, hfinish⟩ := exists_job ho hhelp h
  refine ⟨job, hlisting, ?_, by rw [hfinish, hread]⟩
  unfold Job.judge Surroundings.answer
  rw [hsettings]
  split
  · cases job.program.search (here.settings job.options).limits i.data with
    | error e => rfl
    | ok k? => cases k? <;> rfl
  · rfl

theorem execute_of_limit {e : LimitError} (h : Pattern.compile (here.pattern o) = .ok p)
    (hread : here.read o = .ok i) (hanswer : here.answer o p i.data = .error e) :
    ∃ notices, execute here arguments =
      .failure (here.listing arguments) (notices ++ [.limitExceeded e]) := by
  obtain ⟨job, hlisting, hjudge, hfinish⟩ := exists_job_of_read ho hhelp h hread
  rw [hfinish, ← hlisting]
  simp only [Job.finish, hjudge, hanswer]
  exact ⟨_, rfl⟩

theorem execute_of_verdict {v : Verdict} (h : Pattern.compile (here.pattern o) = .ok p)
    (hread : here.read o = .ok i) (hanswer : here.answer o p i.data = .ok v) :
    ∃ stderr, execute here arguments =
      ⟨v.status, here.listing arguments ++ v.line, stderr⟩ := by
  obtain ⟨job, hlisting, hjudge, hfinish⟩ := exists_job_of_read ho hhelp h hread
  rw [hfinish, ← hlisting]
  simp only [Job.finish, hjudge, hanswer]
  exact ⟨_, rfl⟩

end

end SweepRegex
