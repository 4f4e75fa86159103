import SweepRegex.Proofs.CommandLine.Endings
import SweepRegex.Proofs.Machine.Limits
import SweepRegex.Proofs.Search

/-!
# The verdict of a call

A call fails for five reasons (`Hindered`), and for no other.  What it prints on standard output
then is the listing it was asked for, if it got as far, and nothing that looks like a verdict.
Otherwise one line follows the listing, and exit status and line tell the same verdict (`Tells`).
The verdict is right whatever the limits are: a limit may keep a call from a verdict, but it cannot
change one.

    Hindered here arguments ↔ (execute here arguments).status.code = 2        (execute_verdict)
-/

namespace SweepRegex

/-! ## Reasons and verdicts -/

/-- What keeps a call from a verdict. -/
inductive Hindered (here : Surroundings) (arguments : List Bytes) : Prop where
  | usage {e : UsageError} : Options.parse arguments = .error e → Hindered here arguments
  | pattern {o : Options} {fault : Fault} : Options.parse arguments = .ok o →
      Pattern.compile (here.pattern o) = .error fault → Hindered here arguments
  | input {o : Options} {e : ReadError} : Options.parse arguments = .ok o →
      here.read o = .error e → Hindered here arguments
  | run {o : Options} {p : Program} {i : Input} {e : LimitError} :
      Options.parse arguments = .ok o → o.search = false →
      Pattern.compile (here.pattern o) = .ok p → here.read o = .ok i →
      (p.run (here.settings o).limits i.data).verdict = .error e → Hindered here arguments
  | search {o : Options} {p : Program} {i : Input} {e : LimitError} :
      Options.parse arguments = .ok o → o.search = true →
      Pattern.compile (here.pattern o) = .ok p → here.read o = .ok i →
      p.search (here.settings o).limits i.data = .error e → Hindered here arguments

/-- The right exit status and the right line for a pattern and the input that was read, when the
match is sought at the start of the input only, and when it is sought everywhere. -/
inductive Tells (pattern data : Bytes) : Bool → Nat → Bytes → Prop where
  | found : Pattern.OccursAt pattern data 0 → Tells pattern data false 0 (ascii "match\n")
  | notFound : ¬Pattern.OccursAt pattern data 0 →
      Tells pattern data false 1 (ascii "no match\n")
  | foundAt {k : Nat} : k ≤ data.length → Pattern.OccursAt pattern data k →
      (∀ j < k, ¬Pattern.OccursAt pattern data j) →
      Tells pattern data true 0 (ascii "match at " ++ Bytes.decimal k ++ ascii "\n")
  | nowhere : (∀ k ≤ data.length, ¬Pattern.OccursAt pattern data k) →
      Tells pattern data true 1 (ascii "no match\n")

/-! ## Right answers -/

/-- The answer of one run, under any limits, is whether the pattern occurs where it starts. -/
theorem Pattern.attempt_ok_iff {pattern : Bytes} {p : Program} (h : compile pattern = .ok p)
    {limits : Limits} {data : Bytes} {k : Nat} {b : Bool}
    (hb : p.attempt limits data k = .ok b) : b = true ↔ OccursAt pattern data k := by
  have hnone : p.attempt .none data k = .ok b := Program.verdict_run_none_of_ok hb
  obtain ⟨htrue, hfalse⟩ := attempt_none_iff h data k
  cases b with
  | true => exact iff_of_true rfl (htrue.1 hnone)
  | false => exact iff_of_false (by simp) (hfalse.1 hnone)

/-- The machine's answer is right. -/
theorem tells_of_answer {here : Surroundings} {o : Options} {p : Program} {data : Bytes}
    (h : Pattern.compile (here.pattern o) = .ok p) {v : Verdict}
    (hv : here.answer o p data = .ok v) :
    Tells (here.pattern o) data o.search v.status.code v.line := by
  cases hsearch : o.search with
  | false =>
    rw [Surroundings.answer_of_run hsearch] at hv
    obtain ⟨b, hrun, rfl⟩ := map_eq_ok_iff.1 hv
    have hoccurs := Pattern.attempt_ok_iff h (k := 0) hrun
    cases b with
    | true => exact .found (hoccurs.1 rfl)
    | false => exact .notFound fun hno => by cases hoccurs.2 hno
  | true =>
    rw [Surroundings.answer_of_search hsearch] at hv
    obtain ⟨found, hfind, rfl⟩ := map_eq_ok_iff.1 hv
    have not_occursAt {j : Nat} (hj : p.attempt (here.settings o).limits data j = .ok false) :
        ¬Pattern.OccursAt (here.pattern o) data j :=
      fun hno => by cases (Pattern.attempt_ok_iff h hj).2 hno
    cases found with
    | none => exact .nowhere fun k hk => not_occursAt (Program.search_eq_none_iff.1 hfind k hk)
    | some k =>
      have hfirst := Program.search_eq_some_iff.1 hfind
      exact .foundAt hfirst.le_length ((Pattern.attempt_ok_iff h hfirst.attempt_eq).1 rfl)
        fun j hj => not_occursAt (hfirst.before j hj)

/-! ## The two ways to end -/

theorem Verdict.code_status_ne_two (v : Verdict) : v.status.code ≠ 2 := by
  cases v <;> simp [Verdict.status, ExitStatus.code]

/-- A limit that is hit keeps a call from its verdict, in either mode. -/
theorem hindered_of_answer {here : Surroundings} {arguments : List Bytes} {o : Options}
    {p : Program} {i : Input} {e : LimitError} (ho : Options.parse arguments = .ok o)
    (hp : Pattern.compile (here.pattern o) = .ok p) (hread : here.read o = .ok i)
    (hanswer : here.answer o p i.data = .error e) : Hindered here arguments := by
  cases hsearch : o.search with
  | false =>
    rw [Surroundings.answer_of_run hsearch, map_eq_error_iff] at hanswer
    exact .run ho hsearch hp hread hanswer
  | true =>
    rw [Surroundings.answer_of_search hsearch, map_eq_error_iff] at hanswer
    exact .search ho hsearch hp hread hanswer

section
variable (here : Surroundings) {arguments : List Bytes}
  (hhelp : ∀ o, Options.parse arguments = .ok o → o.help = false)
include hhelp

/-- A call that is hindered fails with a message, and prints the listing at most. -/
theorem failure_of_hindered (h : Hindered here arguments) :
    ∃ notices n, execute here arguments =
      .failure (here.listing arguments) (notices ++ [n]) := by
  cases h with
  | usage he => exact ⟨[], _, execute_of_usage he⟩
  | pattern ho hfault =>
    obtain ⟨notices, hend⟩ := execute_of_fault ho (hhelp _ ho) hfault
    exact ⟨notices, _, hend⟩
  | @input o e ho hread =>
    -- the input is not asked for before there is a program
    cases hp : Pattern.compile (here.pattern o) with
    | error fault =>
      obtain ⟨notices, hend⟩ := execute_of_fault ho (hhelp o ho) hp
      exact ⟨notices, _, hend⟩
    | ok p =>
      obtain ⟨notices, hend⟩ := execute_of_unreadable ho (hhelp o ho) hp hread
      exact ⟨notices, _, hend⟩
  | run ho hsearch hp hread hrun =>
    have hanswer := (Surroundings.answer_of_run hsearch).trans (map_eq_error_iff.2 hrun)
    obtain ⟨notices, hend⟩ := execute_of_limit ho (hhelp _ ho) hp hread hanswer
    exact ⟨notices, _, hend⟩
  | search ho hsearch hp hread hfind =>
    have hanswer := (Surroundings.answer_of_search hsearch).trans (map_eq_error_iff.2 hfind)
    obtain ⟨notices, hend⟩ := execute_of_limit ho (hhelp _ ho) hp hread hanswer
    exact ⟨notices, _, hend⟩

/-- A call that nothing hinders has an answer to print. -/
theorem verdict_of_not_hindered (h : ¬Hindered here arguments) :
    ∃ o p i v stderr, Options.parse arguments = .ok o ∧
      Pattern.compile (here.pattern o) = .ok p ∧ here.read o = .ok i ∧
      here.answer o p i.data = .ok v ∧
      execute here arguments = ⟨v.status, here.listing arguments ++ v.line, stderr⟩ := by
  cases ho : Options.parse arguments with
  | error e => exact absurd (.usage ho) h
  | ok o =>
    cases hp : Pattern.compile (here.pattern o) with
    | error fault => exact absurd (.pattern ho hp) h
    | ok p =>
      cases hread : here.read o with
      | error e => exact absurd (.input ho hread) h
      | ok i =>
        cases hanswer : here.answer o p i.data with
        | error e => exact absurd (hindered_of_answer ho hp hread hanswer) h
        | ok v =>
          obtain ⟨stderr, hend⟩ := execute_of_verdict ho (hhelp o ho) hp hread hanswer
          exact ⟨o, p, i, v, stderr, rfl, hp, hread, hanswer, hend⟩

end

/-! ## Main statement -/

/-- **Exit status, standard output and verdict agree.**  A call that does not ask for help ends
with status 2 exactly if something keeps it from a verdict; then it prints the listing and nothing
else, as far as it got, and has something to say on standard error.  Any other call prints one line
behind the listing, and its status and this line tell the right verdict about the front part of the
input that the bound allows. -/
theorem execute_verdict (here : Surroundings) (arguments : List Bytes)
    (hhelp : ∀ o, Options.parse arguments = .ok o → o.help = false) :
    ((execute here arguments).status.code = 2 ↔ Hindered here arguments) ∧
    (Hindered here arguments →
      (execute here arguments).stdout = here.listing arguments ∧
        (execute here arguments).stderr ≠ []) ∧
    (¬Hindered here arguments →
      ∃ o content line, Options.parse arguments = .ok o ∧ here.content? o = some content ∧
        Tells (here.pattern o) (content.take (here.settings o).maxBytes) o.search
          (execute here arguments).status.code line ∧
        (execute here arguments).stdout = here.listing arguments ++ line) := by
  have hfailure := failure_of_hindered here hhelp
  have hverdict := verdict_of_not_hindered here hhelp
  refine ⟨⟨fun hcode => ?_, fun h => ?_⟩, fun h => ?_, fun h => ?_⟩
  · by_contra h
    obtain ⟨o, p, i, v, stderr, -, -, -, -, hend⟩ := hverdict h
    rw [hend] at hcode
    exact v.code_status_ne_two hcode
  · obtain ⟨notices, n, hend⟩ := hfailure h
    rw [hend]
    rfl
  · obtain ⟨notices, n, hend⟩ := hfailure h
    rw [hend]
    exact ⟨rfl, Outcome.stderr_failure_ne_nil _ _ _⟩
  · obtain ⟨o, p, i, v, stderr, ho, hp, hread, hanswer, hend⟩ := hverdict h
    obtain ⟨content, hcontent, hdata⟩ := Surroundings.exists_content_of_read hread
    refine ⟨o, content, v.line, ho, hcontent, ?_, by rw [hend]⟩
    rw [hend, ← hdata]
    exact tells_of_answer hp hanswer

/-- A listing with the place of a match behind it, and nothing behind it where standard input breaks
off. -/
theorem execute_verdict_dump_search :
    let here : Surroundings := ⟨.empty, .ofList [], ascii "xaab"⟩
    let broken : Surroundings := ⟨.empty, .ofList [], ⟨ascii "xaab", some .isDirectory, none⟩⟩
    let arguments := [ascii "--dump", ascii "--search", ascii "(a|)b"]
    (∀ o, Options.parse arguments = .ok o → o.help = false) ∧ ¬Hindered here arguments ∧
      (∃ o content line, Options.parse arguments = .ok o ∧ here.content? o = some content ∧
        Tells (here.pattern o) (content.take (here.settings o).maxBytes) o.search
          (execute here arguments).status.code line ∧
        (execute here arguments).stdout = here.listing arguments ++ line) ∧
      Hindered broken arguments ∧
        (execute broken arguments).stdout = broken.listing arguments ∧
        (execute broken arguments).stderr ≠ [] := by
  intro here broken arguments
  have hhelp : ∀ o, Options.parse arguments = .ok o → o.help = false := by
    have hparse : (Options.parse arguments).toOption.map Options.help = some false := by
      decide +kernel
    intro o ho
    rw [ho] at hparse
    exact Option.some.inj hparse
  have hcode : (execute here arguments).status.code = 0 := by decide +kernel
  obtain ⟨hiff, -, hverdict⟩ := execute_verdict here arguments hhelp
  have hfree : ¬Hindered here arguments := by
    intro h
    have := hiff.2 h
    omega
  have hcode' : (execute broken arguments).status.code = 2 := by decide +kernel
  obtain ⟨hiff', hfailure, -⟩ := execute_verdict broken arguments hhelp
  have hhindered := hiff'.1 hcode'
  exact ⟨hhelp, hfree, hverdict hfree, hhindered, hfailure hhindered⟩

end SweepRegex
