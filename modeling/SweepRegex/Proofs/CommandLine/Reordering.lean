import SweepRegex.Proofs.CommandLine.Grammar

/-!
# Clauses in any order

As long as there is only one pattern, the order of the clauses matters for repeated values alone, of
which the last one counts.

    us.Perm vs → us.filterMap settingsPath? = vs.filterMap settingsPath? →
      us.filterMap inputPath? = vs.filterMap inputPath? →
        Options.parse (written us) = Options.parse (written vs)               (parse_written)
-/

namespace SweepRegex

namespace Clause

variable {us vs : List Clause}

/-! ## What clauses say -/

/-- A clause that is all there is of its kind. -/
theorem mem_map_kind {v : Clause} (hv : ∀ u : Clause, u.kind = v.kind → u = v) :
    v.kind ∈ us.map kind ↔ v ∈ us := by
  rw [List.mem_map]
  constructor
  · rintro ⟨u, hu, hkind⟩
    exact hv u hkind ▸ hu
  · exact fun hmem => ⟨v, hmem, rfl⟩

theorem mem_map_kind_dump : .dump ∈ us.map kind ↔ .dump ∈ us :=
  mem_map_kind (v := .dump) fun u hkind => by
    cases u <;> cases hkind
    rfl

theorem mem_map_kind_search : .search ∈ us.map kind ↔ .search ∈ us :=
  mem_map_kind (v := .search) fun u hkind => by
    cases u <;> cases hkind
    rfl

theorem mem_map_kind_help : .help ∈ us.map kind ↔ ∃ short, .help short ∈ us := by
  rw [List.mem_map]
  constructor
  · rintro ⟨u, hu, hkind⟩
    cases u <;> cases hkind
    exact ⟨_, hu⟩
  · rintro ⟨short, hu⟩
    exact ⟨_, hu, rfl⟩

/-- Of at most one pattern, the last is any. -/
theorem getLast?_patterns_eq_some_iff (h : (us.filterMap pattern?).length ≤ 1) {p : Bytes} :
    (us.filterMap pattern?).getLast? = some p ↔ ∃ u ∈ us, u.pattern? = some p := by
  rw [← List.mem_filterMap]
  rcases patterns_eq_nil_or_singleton h with hnil | ⟨q, hone⟩
  · simp [hnil]
  · simp [hone, eq_comm]

/-! ## Other orders -/

theorem patterns_eq_of_perm (hperm : us.Perm vs) (h : (us.filterMap pattern?).length ≤ 1) :
    us.filterMap pattern? = vs.filterMap pattern? := by
  have hpatterns : (us.filterMap pattern?).Perm (vs.filterMap pattern?) := hperm.filterMap pattern?
  rcases patterns_eq_nil_or_singleton h with hnil | ⟨q, hone⟩
  · rw [hnil] at hpatterns ⊢
    exact hpatterns.nil_eq
  · rw [hone] at hpatterns ⊢
    exact hpatterns.singleton_eq

theorem after_eq_of_perm (o : Options) (hperm : us.Perm vs)
    (h : (us.filterMap pattern?).length ≤ 1)
    (hsettings : us.filterMap settingsPath? = vs.filterMap settingsPath?)
    (hinput : us.filterMap inputPath? = vs.filterMap inputPath?) : o.after us = o.after vs := by
  have hkinds (k : Argument) : k ∈ us.map kind ↔ k ∈ vs.map kind := (hperm.map kind).mem_iff
  simp only [Options.after, hsettings, hinput, patterns_eq_of_perm hperm h, hkinds]

end Clause

open Clause

namespace Options

theorem parse_written_of_admissible {us : List Clause} (h : Admissible us) :
    parse (written us) = .ok (({} : Options).after us) := by
  have hread := parse_of_admissible (c := ⟨us, false⟩) h
  rwa [CommandLine.arguments, if_neg Bool.false_ne_true, List.append_nil] at hread

/-! ## Main statement -/

/-- **Clauses round trip, in any order.**  Clauses with at most one pattern are accepted, and the
options are what they say: a flag is set if there is a clause for it, a value is that of the last
clause for it, the pattern is that of the one clause that gives one.  In any other order that
keeps values of one kind in their order they give the same options. -/
theorem parse_written {us : List Clause} (h : (us.filterMap pattern?).length ≤ 1) :
    (∃ o, parse (written us) = .ok o ∧
      (o.dump = true ↔ .dump ∈ us) ∧ (o.search = true ↔ .search ∈ us) ∧
      (o.help = true ↔ ∃ short, .help short ∈ us) ∧
      o.settingsPath = (us.filterMap settingsPath?).getLast?.getD [] ∧
      o.inputPath = (us.filterMap inputPath?).getLast?.getD [] ∧
      ∀ p, o.pattern = some p ↔ ∃ u ∈ us, u.pattern? = some p) ∧
    ∀ vs : List Clause, us.Perm vs →
      us.filterMap settingsPath? = vs.filterMap settingsPath? →
      us.filterMap inputPath? = vs.filterMap inputPath? →
      parse (written us) = parse (written vs) := by
  have hparse := parse_written_of_admissible (admissible_of_length_le_one h)
  refine ⟨⟨_, hparse, ?_, ?_, ?_, rfl, rfl, fun p => ?_⟩, fun vs hperm hsettings hinput => ?_⟩
  · simp [after, mem_map_kind_dump]
  · simp [after, mem_map_kind_search]
  · simp [after, mem_map_kind_help]
  · rw [← getLast?_patterns_eq_some_iff h]
    simp [after]
  · have hvs : (vs.filterMap pattern?).length ≤ 1 := patterns_eq_of_perm hperm h ▸ h
    rw [hparse, parse_written_of_admissible (admissible_of_length_le_one hvs),
      after_eq_of_perm {} hperm h hsettings hinput]

/-- Values that look like options, given twice, and the clauses in another order. -/
theorem parse_written_twice :
    let one : Clause := .settingsPath (ascii "--dump")
    let two : Clause := .settingsPath (ascii "--")
    let three : Clause := .dashes (ascii "--file")
    ([one, three, .help true, two].filterMap pattern?).length ≤ 1 ∧
      (∃ o, parse (written [one, three, .help true, two]) = .ok o ∧ o.help = true ∧
        o.dump = false ∧ o.settingsPath = ascii "--" ∧ o.pattern = some (ascii "--file")) ∧
      [one, three, .help true, two].Perm [.help true, one, two, three] ∧
      parse (written [one, three, .help true, two]) =
        parse (written [.help true, one, two, three]) := by
  intro one two three
  have hlen : ([one, three, .help true, two].filterMap pattern?).length ≤ 1 := Nat.le_refl 1
  have hperm : [one, three, .help true, two].Perm [.help true, one, two, three] := by
    decide +kernel
  obtain ⟨⟨o, hparse, hdump, -, hhelp, hsettings, -, hpattern⟩, horder⟩ := parse_written hlen
  refine ⟨hlen, ⟨o, hparse, hhelp.2 ⟨true, by simp⟩, ?_, hsettings,
    (hpattern _).2 ⟨three, by simp, rfl⟩⟩, hperm, horder _ hperm rfl rfl⟩
  rw [← Bool.not_eq_true, hdump]
  simp [one, two, three]

end Options

end SweepRegex
