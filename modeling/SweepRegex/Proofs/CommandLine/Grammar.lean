import SweepRegex.Proofs.CommandLine.Clauses

/-!
# The grammar of a command line

A command line is a sequence of clauses, and it may end with two dashes alone.  It can be read in
one way only.  It is accepted unless an operand stands behind another pattern.  Behind two dashes a
pattern is always accepted, in place of one that was given before.

    Options.parse arguments = .ok o ↔
      ∃ c : CommandLine, c.arguments = arguments ∧ Admissible c.clauses ∧ o = c.options
                                                                             (parse_eq_ok_iff)
-/

namespace SweepRegex

open Clause

/-- A command line as it is meant. -/
structure CommandLine where
  clauses : List Clause
  /-- Are there two dashes alone at the end? -/
  dashes : Bool

namespace CommandLine

/-- The arguments of a command line. -/
def arguments (c : CommandLine) : List Bytes :=
  written c.clauses ++ if c.dashes then [ascii "--"] else []

/-- All patterns that are given, in order. -/
def patterns (c : CommandLine) : List Bytes := c.clauses.filterMap pattern?

end CommandLine

/-- The options that a command line asks for. -/
def CommandLine.options (c : CommandLine) : Options := ({} : Options).after c.clauses

/-! ## Clauses with few patterns -/

theorem Clause.patterns_eq_nil_or_singleton {us : List Clause}
    (h : (us.filterMap pattern?).length ≤ 1) :
    us.filterMap pattern? = [] ∨ ∃ p, us.filterMap pattern? = [p] := by
  rcases Nat.le_one_iff_eq_zero_or_eq_one.1 h with hnil | hone
  · exact .inl (List.length_eq_zero_iff.1 hnil)
  · exact .inr (List.length_eq_one_iff.1 hone)

/-- With one pattern there is none in front of it. -/
theorem Clause.admissible_of_length_le_one {us : List Clause}
    (h : (us.filterMap pattern?).length ≤ 1) : Admissible us := by
  induction us with
  | nil => exact .nil
  | cons u us ih =>
    cases hu : u.pattern? with
    | none =>
      rw [List.filterMap_cons_none hu] at h
      exact .cons (fun v _ hp => absurd hu hp) (ih h)
    | some p =>
      rw [List.filterMap_cons_some hu, List.length_cons] at h
      have hnil : us.filterMap pattern? = [] := List.length_eq_zero_iff.1 (by omega)
      refine .cons (fun v hv _ hk => ?_) (ih (by simp [hnil]))
      -- an operand is a pattern
      have hv' := List.filterMap_eq_nil_iff.1 hnil v hv
      cases v <;> simp_all [kind, pattern?]

/-- No clause is two dashes alone. -/
theorem Clause.arguments_append_ne (u : Clause) (rest : List Bytes) (dashes : Bool) :
    u.arguments ++ rest ≠ if dashes then [ascii "--"] else [] := by
  obtain ⟨a, values, hu, ha⟩ := u.exists_arguments_eq
  intro h
  cases dashes with
  | false => simp [hu] at h
  | true =>
    rw [hu] at h
    obtain ⟨rfl, hrest⟩ := List.cons.inj h
    have hkind : u.kind = .dashes := ha.symm.trans (Argument.ofBytes_eq_iff.2 rfl)
    cases u <;> cases hkind
    cases hu
    cases hrest

namespace CommandLine

/-- Arguments can be read in one way only. -/
theorem arguments_injective : Function.Injective arguments := by
  rintro ⟨us, dashes⟩ ⟨vs, dashes'⟩ h
  simp only [arguments] at h
  induction us generalizing vs with
  | nil =>
    cases vs with
    | nil => cases dashes <;> cases dashes' <;> simp_all [written]
    | cons v vs =>
      rw [written, written, List.flatMap_cons, List.append_assoc] at h
      exact absurd h.symm (v.arguments_append_ne _ dashes)
  | cons u us ih =>
    rw [written, List.flatMap_cons, List.append_assoc] at h
    cases vs with
    | nil => exact absurd h (u.arguments_append_ne _ dashes')
    | cons v vs =>
      rw [written, List.flatMap_cons, List.append_assoc] at h
      obtain ⟨rfl, hrest⟩ := Clause.arguments_append_inj h
      cases ih vs hrest
      rfl

theorem pattern_options (c : CommandLine) : c.options.pattern = c.patterns.getLast? := by
  simp [options, Options.after, patterns]

/-- Where there is more than one pattern, the last one stands behind two dashes. -/
theorem exists_dashes_of_admissible {c : CommandLine} (h : Admissible c.clauses)
    (hlen : 1 < c.patterns.length) :
    ∃ r p t, c.clauses = r ++ .dashes p :: t ∧ (∃ u ∈ r, u.pattern? ≠ none) ∧
      c.options.pattern = some p := by
  rcases List.eq_nil_or_concat c.patterns with hnil | ⟨front, p, hpatterns⟩
  · simp [hnil] at hlen
  rw [List.concat_eq_append] at hpatterns
  obtain ⟨r, l, hclauses, hfront, hl⟩ := List.filterMap_eq_append_iff.1 hpatterns
  obtain ⟨s, u, t, rfl, hs, hu, -⟩ := List.filterMap_eq_cons_iff.1 hl
  have hbefore : ∃ v ∈ r, v.pattern? ≠ none := by
    by_contra hno
    have hnil : front = [] := by
      rw [← hfront, List.filterMap_eq_nil_iff]
      intro v hv
      by_contra hv'
      exact hno ⟨v, hv, hv'⟩
    simp [hpatterns, hnil] at hlen
  rw [← List.append_assoc] at hclauses
  rw [Admissible, hclauses, List.pairwise_append] at h
  obtain ⟨v, hv, hpattern⟩ := hbefore
  have hkind : u.kind ≠ .operand :=
    h.2.2 v (List.mem_append_left s hv) u List.mem_cons_self hpattern
  have hdashes : u = .dashes p := by
    cases u <;> simp_all [kind, pattern?]
  refine ⟨r ++ s, p, t, hdashes ▸ hclauses, ⟨v, List.mem_append_left s hv, hpattern⟩, ?_⟩
  rw [pattern_options, hpatterns, List.getLast?_concat]

end CommandLine

namespace Options

theorem admits_default_iff {us : List Clause} : ({} : Options).Admits us ↔ Admissible us :=
  ⟨And.right, fun h => ⟨fun hno => absurd rfl hno, h⟩⟩

theorem parse_of_admissible {c : CommandLine} (h : Admissible c.clauses) :
    parse c.arguments = .ok c.options := by
  rw [parse, CommandLine.arguments, extend_written (admits_default_iff.2 h)]
  split
  · exact extend_dashes _
  · rfl

theorem parse_eq_ok_iff {arguments : List Bytes} {o : Options} :
    parse arguments = .ok o ↔
      ∃ c : CommandLine, c.arguments = arguments ∧ Admissible c.clauses ∧ o = c.options := by
  constructor
  · intro h
    obtain ⟨us, rest, rfl, hus, hstops⟩ := exists_reading {} arguments
    rw [parse, extend_written hus] at h
    have hadmissible := admits_default_iff.1 hus
    rcases hstops with rfl | rfl | ⟨e, he⟩
    · exact ⟨⟨us, false⟩, rfl, hadmissible, (Except.ok.inj h).symm⟩
    · rw [extend_dashes] at h
      exact ⟨⟨us, true⟩, rfl, hadmissible, (Except.ok.inj h).symm⟩
    · rw [extend_of_refuses he] at h
      cases h
  · rintro ⟨c, rfl, hc, rfl⟩
    exact parse_of_admissible hc

theorem parse_eq_error_iff {arguments : List Bytes} {e : UsageError} :
    parse arguments = .error e ↔
      ∃ us rest, arguments = written us ++ rest ∧ Admissible us ∧
        (({} : Options).after us).Refuses rest e := by
  constructor
  · intro h
    obtain ⟨us, rest, rfl, hus, hstops⟩ := exists_reading {} arguments
    rw [parse, extend_written hus] at h
    rcases hstops with rfl | rfl | ⟨e', he⟩
    · cases h
    · rw [extend_dashes] at h
      cases h
    · rw [extend_of_refuses he] at h
      cases h
      exact ⟨us, rest, rfl, admits_default_iff.1 hus, he⟩
  · rintro ⟨us, rest, rfl, hus, he⟩
    rw [parse, extend_written (admits_default_iff.2 hus), extend_of_refuses he]

/-! ## Main statement -/

/-- **The command lines that are accepted.**  Arguments are accepted if they are clauses, with or
without two dashes alone at the end, of which no operand stands behind another pattern, and the
options are what the clauses say.  In all other cases they are refused at the first place where
they cannot be read like this.  They can be read in one way only.  With at most one pattern they are
accepted, and none is discarded.  With more than one the pattern in force is the last, which two
dashes have put in place of another. -/
theorem parse_grammar (arguments : List Bytes) :
    (∀ o, parse arguments = .ok o ↔
      ∃ c : CommandLine, c.arguments = arguments ∧ Admissible c.clauses ∧ o = c.options) ∧
    (∀ e, parse arguments = .error e ↔
      ∃ us rest, arguments = written us ++ rest ∧ Admissible us ∧
        (({} : Options).after us).Refuses rest e) ∧
    (∀ c c' : CommandLine, c.arguments = arguments → c'.arguments = arguments → c = c') ∧
    ∀ c : CommandLine, c.arguments = arguments →
      (c.patterns.length ≤ 1 →
        parse arguments = .ok c.options ∧ ∀ p ∈ c.patterns, c.options.pattern = some p) ∧
      ∀ o, parse arguments = .ok o → 1 < c.patterns.length →
        ∃ r p t, c.clauses = r ++ .dashes p :: t ∧ (∃ u ∈ r, u.pattern? ≠ none) ∧
          o.pattern = some p := by
  refine ⟨fun o => parse_eq_ok_iff, fun e => parse_eq_error_iff,
    fun c c' hc hc' => CommandLine.arguments_injective (hc.trans hc'.symm),
    fun c hc => ⟨fun hlen => ⟨?_, fun p hp => ?_⟩, fun o ho hlen => ?_⟩⟩
  · rw [← hc]
    exact parse_of_admissible (Clause.admissible_of_length_le_one hlen)
  · rw [c.pattern_options]
    obtain ⟨q, hq⟩ := List.length_eq_one_iff.1
      (Nat.le_antisymm hlen (List.length_pos_of_mem hp))
    rw [hq] at hp ⊢
    rw [List.mem_singleton.1 hp]
    rfl
  · obtain ⟨c', hc', hadmissible, rfl⟩ := parse_eq_ok_iff.1 ho
    obtain rfl := CommandLine.arguments_injective (hc.trans hc'.symm)
    exact CommandLine.exists_dashes_of_admissible hadmissible hlen

/-- A value that looks like an option, a pattern that gives way to another, and two dashes alone. -/
theorem parse_grammar_two_patterns :
    let a : Operand := ⟨ascii "a", by decide, by decide⟩
    let c : CommandLine := ⟨[.settingsPath (ascii "--dump"), .operand a, .dashes (ascii "-h")], true⟩
    c.arguments = [ascii "--config", ascii "--dump", ascii "a", ascii "--", ascii "-h",
        ascii "--"] ∧
      Admissible c.clauses ∧ 1 < c.patterns.length ∧ parse c.arguments = .ok c.options ∧
        ∃ r p t, c.clauses = r ++ .dashes p :: t ∧ (∃ u ∈ r, u.pattern? ≠ none) ∧
          c.options.pattern = some p := by
  intro a c
  have hadmissible : Admissible c.clauses := by
    simp [c, Admissible, kind, pattern?]
  have hlen : 1 < c.patterns.length := Nat.lt_succ_self 1
  obtain ⟨hok, -, -, hpatterns⟩ := parse_grammar c.arguments
  have hparse := (hok c.options).2 ⟨c, rfl, hadmissible, rfl⟩
  exact ⟨rfl, hadmissible, hlen, hparse, (hpatterns c rfl).2 c.options hparse hlen⟩

/-- A pattern can be discarded without a word. -/
theorem not_parse_iff_one_pattern : ¬∀ arguments : List Bytes,
    (∃ o, parse arguments = .ok o) ↔
      ∃ c : CommandLine, c.arguments = arguments ∧ c.patterns.length ≤ 1 := by
  intro h
  let a : Operand := ⟨ascii "a", by decide, by decide⟩
  let c : CommandLine := ⟨[.operand a, .dashes (ascii "b")], false⟩
  have hadmissible : Admissible c.clauses := by
    simp [c, Admissible, kind, pattern?]
  obtain ⟨c', hc', hlen⟩ := (h c.arguments).1 ⟨_, parse_of_admissible hadmissible⟩
  rw [CommandLine.arguments_injective hc'] at hlen
  simp [c, CommandLine.patterns, pattern?] at hlen

end Options

end SweepRegex
