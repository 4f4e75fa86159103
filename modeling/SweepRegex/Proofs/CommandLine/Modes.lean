import SweepRegex.Proofs.CommandLine.Endings
import SweepRegex.Proofs.Search

/-!
# Matching at the start and searching

A call matches at the start of the input only; with `--search` in front of its arguments it matches
at every offset, one after the other.  Its first attempt is then the run of the plain call, with
the same program, on the same input and under the same limits.  So a match there is found by both,
a limit that is hit there ends both, and what keeps the plain call from a run at all keeps the
search from it too.  Only if the run at the start says no does the search go on (`GoesOn`), and what
it comes to lies behind the start.

    (execute here arguments).status.code = 0 ↔
      (executeSearch here arguments).stdout =
        here.listing arguments ++ ascii "match at 0\n"                        (execute_modes)
-/

namespace SweepRegex

/-! ## The search of a call -/

/-- The call with these arguments, made to search. -/
def executeSearch (here : Surroundings) (arguments : List Bytes) : Outcome :=
  execute here (ascii "--search" :: arguments)

/-- These options, made to search. -/
def Options.searching (o : Options) : Options := { o with search := true }

/-- The call's program hits this limit when it starts at this offset, and says no at every offset in
front of it. -/
def LimitAt (here : Surroundings) (arguments : List Bytes) (k : Nat) (e : LimitError) : Prop :=
  ∃ o p i, Options.parse arguments = .ok o ∧ Pattern.compile (here.pattern o) = .ok p ∧
    here.read o = .ok i ∧ p.FirstAnswer (here.settings o).limits i.data k (.error e)

/-- What a search comes to that goes on behind the start of the input. -/
inductive GoesOn (here : Surroundings) (arguments : List Bytes) : Outcome → Prop where
  | foundAt {k : Nat} {stderr : Bytes} : 0 < k → GoesOn here arguments
      ⟨.matched,
        here.listing arguments ++ (ascii "match at " ++ Bytes.decimal k ++ ascii "\n"), stderr⟩
  | nowhere {stderr : Bytes} : GoesOn here arguments
      ⟨.unmatched, here.listing arguments ++ ascii "no match\n", stderr⟩
  | limit {k : Nat} {e : LimitError} {notices : List Notice} : 0 < k →
      LimitAt here arguments k e → GoesOn here arguments
        (.failure (here.listing arguments) (notices ++ [.limitExceeded e]))

/-! ## Reading the arguments -/

namespace Options

/-- A search that is asked for beforehand changes nothing else about how arguments are read. -/
theorem extend_searching (o : Options) (arguments : List Bytes) :
    o.searching.extend arguments = (o.extend arguments).map searching := by
  fun_induction extend o arguments with
  | case1 o => rfl
  -- an option, with its value if it takes one, or a pattern behind two dashes
  | case2 o a rest ha ih
  | case3 o a rest ha ih
  | case4 o a rest ha ih
  | case6 o a ha value rest ih
  | case8 o a ha value rest ih
  | case10 o a ha value rest ih =>
    rw [extend.eq_def]
    simp only [ha]
    exact ih
  -- nothing behind the argument is read
  | case5 o a ha
  | case7 o a ha
  | case9 o a ha
  | case11 o a rest ha =>
    rw [extend.eq_def]
    simp only [ha]
    rfl
  -- an operand is the pattern, or is refused behind one
  | case12 o a rest ha hpattern ih =>
    rw [extend.eq_def]
    simp only [ha, searching, hpattern]
    exact ih
  | case13 o a rest ha pattern hpattern =>
    rw [extend.eq_def]
    simp only [ha, searching, hpattern]
    rfl

theorem parse_search_cons (arguments : List Bytes) :
    parse (ascii "--search" :: arguments) = (parse arguments).map searching := by
  have hsearch : Argument.ofBytes (ascii "--search") = .search := by decide +kernel
  rw [parse, extend.eq_def]
  simp only [hsearch]
  exact extend_searching {} arguments

theorem parse_search_cons_of_ok {arguments : List Bytes} {o : Options}
    (h : parse arguments = .ok o) : parse (ascii "--search" :: arguments) = .ok o.searching := by
  rw [parse_search_cons, h]
  rfl

end Options

/-! ## Both calls -/

theorem Surroundings.listing_search_cons (here : Surroundings) (arguments : List Bytes) :
    here.listing (ascii "--search" :: arguments) = here.listing arguments := by
  unfold listing
  rw [Options.parse_search_cons]
  cases Options.parse arguments with
  | error e => rfl
  | ok o => rfl

section
variable {here : Surroundings} {arguments : List Bytes} {o : Options} {p : Program} {i : Input}
  (ho : Options.parse arguments = .ok o) (hhelp : o.help = false)
  (hp : Pattern.compile (here.pattern o) = .ok p) (hread : here.read o = .ok i)
include ho hhelp hp hread

/-- The limit that ends the search is the error of the call. -/
theorem executeSearch_of_error {e : LimitError}
    (h : p.search (here.settings o).limits i.data = .error e) :
    ∃ notices, executeSearch here arguments =
      .failure (here.listing arguments) (notices ++ [.limitExceeded e]) := by
  have hanswer : here.answer o.searching p i.data = .error e :=
    (Surroundings.answer_of_search rfl).trans (map_eq_error_iff.2 h)
  rw [← Surroundings.listing_search_cons]
  exact execute_of_limit (Options.parse_search_cons_of_ok ho) hhelp hp hread hanswer

/-- What the search finds is the verdict of the call. -/
theorem executeSearch_of_ok {found : Option Nat}
    (h : p.search (here.settings o).limits i.data = .ok found) :
    ∃ stderr, executeSearch here arguments =
      ⟨(Verdict.ofSearch found).status,
        here.listing arguments ++ (Verdict.ofSearch found).line, stderr⟩ := by
  have hanswer : here.answer o.searching p i.data = .ok (.ofSearch found) :=
    (Surroundings.answer_of_search rfl).trans (map_eq_ok_iff.2 ⟨found, h, rfl⟩)
  rw [← Surroundings.listing_search_cons]
  exact execute_of_verdict (Options.parse_search_cons_of_ok ho) hhelp hp hread hanswer

/-- Where the run at the start says no, the search goes on. -/
theorem goesOn_of_run (hno : (p.run (here.settings o).limits i.data).verdict = .ok false) :
    GoesOn here arguments (executeSearch here arguments) := by
  have behind {k : Nat} {answer : Except LimitError Bool}
      (hk : p.FirstAnswer (here.settings o).limits i.data k answer) : 0 < k := by
    refine Nat.pos_of_ne_zero fun h0 => ?_
    subst h0
    exact hk.not_no (hk.attempt_eq.symm.trans hno)
  cases hfind : p.search (here.settings o).limits i.data with
  | error e =>
    obtain ⟨k, hk⟩ := Program.search_eq_error_iff.1 hfind
    obtain ⟨notices, hend⟩ := executeSearch_of_error ho hhelp hp hread hfind
    rw [hend]
    exact .limit (behind hk) ⟨o, p, i, ho, hp, hread, hk⟩
  | ok found =>
    obtain ⟨stderr, hend⟩ := executeSearch_of_ok ho hhelp hp hread hfind
    rw [hend]
    cases found with
    | none => exact .nowhere
    | some k => exact .foundAt (behind (Program.search_eq_some_iff.1 hfind))

end

section
variable (here : Surroundings) {arguments : List Bytes}
  (h : ∀ o, Options.parse arguments = .ok o → o.help = false ∧ o.search = false)
include h

/-- The two calls fail alike, or find the match at the start alike, or the search goes on where the
plain call has said no. -/
theorem execute_cases :
    (∃ notices notices', execute here arguments = .failure (here.listing arguments) notices ∧
      executeSearch here arguments = .failure (here.listing arguments) notices') ∨
    (∃ stderr stderr', execute here arguments =
        ⟨.matched, here.listing arguments ++ Verdict.found.line, stderr⟩ ∧
      executeSearch here arguments =
        ⟨.matched, here.listing arguments ++ (Verdict.foundAt 0).line, stderr'⟩) ∨
    (∃ stderr, execute here arguments =
        ⟨.unmatched, here.listing arguments ++ Verdict.notFound.line, stderr⟩ ∧
      GoesOn here arguments (executeSearch here arguments)) := by
  have hlisting := here.listing_search_cons arguments
  cases ho : Options.parse arguments with
  | error e =>
    have hsearching := Options.parse_search_cons arguments
    rw [ho] at hsearching
    rw [execute_of_usage ho, executeSearch, execute_of_usage hsearching, hlisting]
    exact .inl ⟨_, _, rfl, rfl⟩
  | ok o =>
    have hsearching := Options.parse_search_cons_of_ok ho
    obtain ⟨hhelp, hplain⟩ := h o ho
    -- both calls ask for the same settings, pattern and input
    cases hp : Pattern.compile (here.pattern o) with
    | error fault =>
      obtain ⟨_, hend⟩ := execute_of_fault ho hhelp hp
      obtain ⟨_, hend'⟩ := execute_of_fault hsearching hhelp hp
      rw [hlisting] at hend'
      exact .inl ⟨_, _, hend, hend'⟩
    | ok p =>
      cases hread : here.read o with
      | error e =>
        obtain ⟨_, hend⟩ := execute_of_unreadable ho hhelp hp hread
        obtain ⟨_, hend'⟩ := execute_of_unreadable hsearching hhelp hp hread
        rw [hlisting] at hend'
        exact .inl ⟨_, _, hend, hend'⟩
      | ok i =>
        have hanswer : here.answer o p i.data = _ := Surroundings.answer_of_run hplain
        cases hrun : (p.run (here.settings o).limits i.data).verdict with
        | error e =>
          rw [hrun] at hanswer
          have hfirst := Program.firstAnswer_zero hrun (by simp)
          have hfind := Program.search_eq_error_iff.2 ⟨0, hfirst⟩
          obtain ⟨_, hend⟩ := execute_of_limit ho hhelp hp hread hanswer
          obtain ⟨_, hend'⟩ := executeSearch_of_error ho hhelp hp hread hfind
          exact .inl ⟨_, _, hend, hend'⟩
        | ok b =>
          rw [hrun] at hanswer
          obtain ⟨_, hend⟩ := execute_of_verdict ho hhelp hp hread hanswer
          cases b with
          | true =>
            have hfind := Program.search_eq_zero_iff.2 hrun
            obtain ⟨_, hend'⟩ := executeSearch_of_ok ho hhelp hp hread hfind
            exact .inr (.inl ⟨_, _, hend, hend'⟩)
          | false => exact .inr (.inr ⟨_, hend, goesOn_of_run ho hhelp hp hread hrun⟩)

end

/-! ## Main statement -/

theorem GoesOn.stdout_ne {here : Surroundings} {arguments : List Bytes} {out : Outcome}
    (h : GoesOn here arguments out) :
    out.stdout ≠ here.listing arguments ++ (Verdict.foundAt 0).line := by
  cases h with
  | @foundAt k _ hk =>
    intro hline
    have heq : Verdict.foundAt k = .foundAt 0 :=
      Verdict.line_injective (List.append_cancel_left hline)
    cases heq
    omega
  | nowhere =>
    intro hline
    have heq : Verdict.notFound = .foundAt 0 :=
      Verdict.line_injective (List.append_cancel_left hline)
    cases heq
  | limit => simp [Outcome.failure, Verdict.line_ne_nil]

/-- **Matching at the start and searching agree.**  For a call that asks neither for help nor for
a search: it finds a match exactly if its search finds one at offset 0; if it fails, its search
fails with the same standard output; and if it finds no match, its search finds one further on, or
none at all, or a limit is hit at a later offset. -/
theorem execute_modes (here : Surroundings) (arguments : List Bytes)
    (h : ∀ o, Options.parse arguments = .ok o → o.help = false ∧ o.search = false) :
    here.listing (ascii "--search" :: arguments) = here.listing arguments ∧
    ((execute here arguments).status.code = 0 ↔
      (executeSearch here arguments).stdout = here.listing arguments ++ ascii "match at 0\n") ∧
    ((execute here arguments).status.code = 0 →
      (executeSearch here arguments).status.code = 0) ∧
    ((execute here arguments).status.code = 2 →
      (executeSearch here arguments).status.code = 2 ∧
        (executeSearch here arguments).stdout = (execute here arguments).stdout) ∧
    ((execute here arguments).status.code = 1 →
      GoesOn here arguments (executeSearch here arguments)) := by
  have hline : ascii "match at 0\n" = (Verdict.foundAt 0).line := by decide +kernel
  refine ⟨here.listing_search_cons arguments, ?_⟩
  rw [hline]
  rcases execute_cases here h with
    ⟨_, _, hplain, hsearch⟩ | ⟨_, _, hplain, hsearch⟩ | ⟨_, hplain, hgoes⟩
  · rw [hplain, hsearch]
    simp [Outcome.failure, ExitStatus.code, Verdict.line_ne_nil]
  · rw [hplain, hsearch]
    simp [ExitStatus.code]
  · rw [hplain]
    simpa [ExitStatus.code, hgoes] using hgoes.stdout_ne

/-- No match at the start, and one behind it; and a standard input that breaks off, which neither
call can read. -/
theorem execute_modes_second_letter :
    let here : Surroundings := ⟨.empty, .ofList [], ascii "ab"⟩
    let broken : Surroundings := ⟨.empty, .ofList [], ⟨ascii "ab", some .isDirectory, none⟩⟩
    let arguments := [ascii "b"]
    (∀ o, Options.parse arguments = .ok o → o.help = false ∧ o.search = false) ∧
      GoesOn here arguments (executeSearch here arguments) ∧
      (execute broken arguments).status.code = 2 ∧
      (executeSearch broken arguments).status.code = 2 := by
  intro here broken arguments
  have h : ∀ o, Options.parse arguments = .ok o → o.help = false ∧ o.search = false := by
    have hparse : (Options.parse arguments).toOption.map (fun o => (o.help, o.search)) =
        some (false, false) := by
      decide +kernel
    intro o ho
    rw [ho] at hparse
    exact Prod.mk.inj (Option.some.inj hparse)
  have hcode : (execute here arguments).status.code = 1 := by decide +kernel
  obtain ⟨-, -, -, -, hgoes⟩ := execute_modes here arguments h
  have hcode' : (execute broken arguments).status.code = 2 := by decide +kernel
  obtain ⟨-, -, -, hfails, -⟩ := execute_modes broken arguments h
  exact ⟨h, hgoes hcode, hcode', (hfails hcode').1⟩

end SweepRegex
