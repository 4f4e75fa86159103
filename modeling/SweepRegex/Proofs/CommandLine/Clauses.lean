import SweepRegex.CommandLine.Options
import Mathlib.Data.List.Basic

/-!
# Clauses of a command line

A command line consists of clauses of one or two arguments, and the first argument of a clause tells
what clause it is.  The options are what the clauses say: a flag is set by any clause for it, a
value is that of the last one (`after`).  Reading takes clause by clause off the arguments, and it
stops at their end, at two dashes alone, or at something that no clause begins with.

    o.Admits us → o.extend (written us ++ rest) = (o.after us).extend rest        (extend_written)

What may stand in front of `rest` here, where reading stops, is found by going through the arguments
once (`exists_reading`).
-/

namespace SweepRegex

/-! ## Clauses -/

namespace Argument

/-- The arguments that begin with two dashes and mean something. -/
def options : List Bytes :=
  [ascii "--help", ascii "--dump", ascii "--search", ascii "--config", ascii "--file", ascii "--"]

/-- How an argument of each kind is spelled. -/
def Spells (a : Bytes) : Argument → Prop
  | .help => a = ascii "--help" ∨ a = ascii "-h"
  | .dump => a = ascii "--dump"
  | .search => a = ascii "--search"
  | .settingsPath => a = ascii "--config"
  | .inputPath => a = ascii "--file"
  | .dashes => a = ascii "--"
  | .unknown => ascii "--" <+: a ∧ a ∉ options
  | .operand => a ≠ ascii "-h" ∧ ¬ascii "--" <+: a

end Argument

/-- An argument that stands for itself: no request for help and no dashes in front. -/
structure Operand where
  text : Bytes
  ne_help : text ≠ ascii "-h"
  no_dashes : ¬ascii "--" <+: text
deriving DecidableEq

/-- A part of a command line that means something by itself. -/
inductive Clause where
  /-- A request for help, in the short or the long spelling. -/
  | help (short : Bool)
  | dump
  | search
  | settingsPath (path : Bytes)
  | inputPath (path : Bytes)
  | operand (pattern : Operand)
  /-- A pattern behind two dashes, whatever it looks like. -/
  | dashes (pattern : Bytes)
deriving DecidableEq

namespace Clause

/-- The arguments a clause consists of. -/
def arguments : Clause → List Bytes
  | .help short => [if short then ascii "-h" else ascii "--help"]
  | .dump => [ascii "--dump"]
  | .search => [ascii "--search"]
  | .settingsPath path => [ascii "--config", path]
  | .inputPath path => [ascii "--file", path]
  | .operand pattern => [pattern.text]
  | .dashes pattern => [ascii "--", pattern]

/-- The arguments of some clauses, one after the other. -/
def written (us : List Clause) : List Bytes := us.flatMap arguments

/-- What the first argument of a clause is. -/
def kind : Clause → Argument
  | .help _ => .help
  | .dump => .dump
  | .search => .search
  | .settingsPath _ => .settingsPath
  | .inputPath _ => .inputPath
  | .operand _ => .operand
  | .dashes _ => .dashes

/-- The pattern that a clause gives. -/
def pattern? : Clause → Option Bytes
  | .operand pattern => some pattern.text
  | .dashes pattern => some pattern
  | _ => none

/-- The place of the settings that a clause gives. -/
def settingsPath? : Clause → Option Bytes
  | .settingsPath path => some path
  | _ => none

/-- The place of the input that a clause gives. -/
def inputPath? : Clause → Option Bytes
  | .inputPath path => some path
  | _ => none

/-- No operand stands behind another pattern. -/
def Admissible (us : List Clause) : Prop :=
  us.Pairwise fun u v => u.pattern? ≠ none → v.kind ≠ .operand

end Clause

open Clause

namespace Options

/-- The options with what some clauses say. -/
def after (o : Options) (us : List Clause) : Options where
  settingsPath := (us.filterMap settingsPath?).getLast?.getD o.settingsPath
  inputPath := (us.filterMap inputPath?).getLast?.getD o.inputPath
  pattern := (us.filterMap pattern?).getLast?.or o.pattern
  dump := o.dump || decide (.dump ∈ us.map kind)
  search := o.search || decide (.search ∈ us.map kind)
  help := o.help || decide (.help ∈ us.map kind)

/-- Clauses that may follow what the options were told by. -/
def Admits (o : Options) (us : List Clause) : Prop :=
  (o.pattern ≠ none → ∀ u ∈ us, u.kind ≠ .operand) ∧ Admissible us

/-- No clause begins like this where the options are what they are. -/
inductive Refuses (o : Options) : List Bytes → UsageError → Prop where
  | settingsPath : o.Refuses [ascii "--config"] (.missingValue (ascii "--config"))
  | inputPath : o.Refuses [ascii "--file"] (.missingValue (ascii "--file"))
  | unknown {a : Bytes} {rest : List Bytes} : ascii "--" <+: a → a ∉ Argument.options →
      o.Refuses (a :: rest) (.unknownOption a)
  | operand {rest : List Bytes} (a : Operand) : o.pattern ≠ none →
      o.Refuses (a.text :: rest) (.unexpectedArgument a.text)

/-- Nothing more is read as a clause: the command line ends here, or is refused. -/
def Stops (o : Options) (rest : List Bytes) : Prop :=
  rest = [] ∨ rest = [ascii "--"] ∨ ∃ e, o.Refuses rest e

end Options

/-! ## Single arguments -/

namespace Argument

theorem dashes_prefix_of_mem_options {a : Bytes} (h : a ∈ options) : ascii "--" <+: a := by
  have hall : options.all (ascii "--").isPrefixOf := by decide +kernel
  exact List.isPrefixOf_iff_prefix.1 (List.all_eq_true.1 hall a h)

theorem ofBytes_of_not_mem_options {a : Bytes} (h : a ∉ options) :
    ofBytes a =
      if a = ascii "-h" then .help else if ascii "--" <+: a then .unknown else .operand := by
  simp only [options, List.mem_cons, List.not_mem_nil, or_false, not_or] at h
  obtain ⟨hhelp, hdump, hsearch, hsettings, hinput, hdashes⟩ := h
  simp only [ofBytes, hhelp, hdump, hsearch, hsettings, hinput, hdashes, false_or, if_false,
    List.isPrefixOf_iff_prefix]

theorem spells_ofBytes (a : Bytes) : Spells a (ofBytes a) := by
  unfold ofBytes
  split_ifs with hhelp hdump hsearch hsettings hinput hdashes hunknown
  · exact hhelp
  · exact hdump
  · exact hsearch
  · exact hsettings
  · exact hinput
  · exact hdashes
  · refine ⟨List.isPrefixOf_iff_prefix.1 hunknown, ?_⟩
    simp only [options, List.mem_cons, List.not_mem_nil, or_false, not_or]
    exact ⟨fun h => hhelp (.inl h), hdump, hsearch, hsettings, hinput, hdashes⟩
  · exact ⟨fun h => hhelp (.inr h), fun h => hunknown (List.isPrefixOf_iff_prefix.2 h)⟩

theorem ofBytes_eq_iff {a : Bytes} {k : Argument} : ofBytes a = k ↔ Spells a k := by
  constructor
  · rintro rfl
    exact spells_ofBytes a
  · intro h
    cases k with
    | help => rcases h with rfl | rfl <;> decide +kernel
    | dump | search | settingsPath | inputPath | dashes =>
      subst h
      decide +kernel
    | unknown =>
      have hh : a ≠ ascii "-h" := by
        rintro rfl
        exact absurd h.1 (by decide +kernel)
      rw [ofBytes_of_not_mem_options h.2, if_neg hh, if_pos h.1]
    | operand =>
      have hno : a ∉ options := fun hmem => h.2 (dashes_prefix_of_mem_options hmem)
      rw [ofBytes_of_not_mem_options hno, if_neg h.1, if_neg h.2]

end Argument

/-! ## Single clauses -/

namespace Clause

/-- A clause can be told from its first argument. -/
theorem exists_arguments_eq (u : Clause) :
    ∃ a values, u.arguments = a :: values ∧ Argument.ofBytes a = u.kind := by
  cases u with
  | help short =>
    refine ⟨_, _, rfl, Argument.ofBytes_eq_iff.2 ?_⟩
    cases short with
    | true => exact .inr rfl
    | false => exact .inl rfl
  | operand pattern =>
    exact ⟨_, _, rfl, Argument.ofBytes_eq_iff.2 ⟨pattern.ne_help, pattern.no_dashes⟩⟩
  | dump | search | settingsPath path | inputPath path | dashes pattern =>
    exact ⟨_, _, rfl, Argument.ofBytes_eq_iff.2 rfl⟩

/-- Of two clauses at the front of the same arguments neither is the longer one. -/
theorem arguments_append_inj {u v : Clause} {r s : List Bytes}
    (h : u.arguments ++ r = v.arguments ++ s) : u = v ∧ r = s := by
  obtain ⟨a, values, hu, hua⟩ := u.exists_arguments_eq
  obtain ⟨b, values', hv, hvb⟩ := v.exists_arguments_eq
  have hkind : u.kind = v.kind := by
    rw [hu, hv] at h
    rw [← hua, ← hvb, (List.cons.inj h).1]
  cases u <;> cases v <;> cases hkind
  case help.help.refl short short' =>
    have hspelled : ascii "-h" ≠ ascii "--help" := by decide +kernel
    cases short <;> cases short' <;> simp_all [arguments]
  case operand.operand.refl p q =>
    obtain ⟨p, _, _⟩ := p
    obtain ⟨q, _, _⟩ := q
    simpa [arguments] using h
  all_goals simpa [arguments] using h

end Clause

namespace Options

section
variable (o : Options)

theorem after_nil : o.after [] = o := by
  simp [after]

theorem after_append (us vs : List Clause) : o.after (us ++ vs) = (o.after us).after vs := by
  simp [after, List.getLast?_append, Option.or_assoc, Bool.or_assoc, Option.getD_or]

/-- What a single clause says. -/
theorem after_singleton (u : Clause) :
    o.after [u] =
      match u with
      | .help _ => { o with help := true }
      | .dump => { o with dump := true }
      | .search => { o with search := true }
      | .settingsPath path => { o with settingsPath := path }
      | .inputPath path => { o with inputPath := path }
      | .operand pattern => { o with pattern := some pattern.text }
      | .dashes pattern => { o with pattern := some pattern } := by
  cases u <;> simp [after, kind, pattern?, settingsPath?, inputPath?]

end

/-- A clause that is admitted is read whole. -/
theorem extend_clause {o : Options} {u : Clause} (hu : u.kind = .operand → o.pattern = none)
    (rest : List Bytes) : o.extend (u.arguments ++ rest) = (o.after [u]).extend rest := by
  obtain ⟨a, values, harguments, hkind⟩ := u.exists_arguments_eq
  rw [harguments, List.cons_append, extend.eq_def, after_singleton]
  simp only [hkind]
  cases u with
  | help | dump | search | settingsPath | inputPath | dashes =>
    cases harguments
    rfl
  | operand pattern =>
    cases harguments
    simp only [kind, hu rfl]
    rfl

/-! ## Many clauses -/

theorem pattern_after_singleton (o : Options) (u : Clause) :
    (o.after [u]).pattern = u.pattern?.or o.pattern := by
  cases u <;> rfl

theorem admits_cons_iff {o : Options} {u : Clause} {us : List Clause} :
    o.Admits (u :: us) ↔ (u.kind = .operand → o.pattern = none) ∧ (o.after [u]).Admits us := by
  have hpattern : (o.after [u]).pattern ≠ none ↔ u.pattern? ≠ none ∨ o.pattern ≠ none := by
    rw [pattern_after_singleton]
    cases u.pattern? <;> simp
  unfold Admits Admissible
  rw [hpattern, List.pairwise_cons]
  constructor
  · rintro ⟨hfirst, hbehind, hrest⟩
    refine ⟨fun hk => by_contra fun hp => hfirst hp u List.mem_cons_self hk, fun hp v hv => ?_,
      hrest⟩
    rcases hp with hu | ho
    · exact hbehind v hv hu
    · exact hfirst ho v (List.mem_cons_of_mem u hv)
  · rintro ⟨hu, hafter, hrest⟩
    refine ⟨fun ho v hv => ?_, fun v hv hp => hafter (.inl hp) v hv, hrest⟩
    rcases List.mem_cons.1 hv with rfl | hv
    · exact fun hk => ho (hu hk)
    · exact hafter (.inr ho) v hv

/-- Clauses that are admitted are read to their end. -/
theorem extend_written {o : Options} {us : List Clause} (h : o.Admits us) (rest : List Bytes) :
    o.extend (written us ++ rest) = (o.after us).extend rest := by
  induction us generalizing o with
  | nil => rw [after_nil]; rfl
  | cons u us ih =>
    obtain ⟨hu, hus⟩ := admits_cons_iff.1 h
    have hafter : o.after (u :: us) = (o.after [u]).after us := o.after_append [u] us
    rw [written, List.flatMap_cons, List.append_assoc, extend_clause hu, hafter, ← ih hus, written]

theorem extend_dashes (o : Options) : o.extend [ascii "--"] = .ok o := by
  have hdashes : Argument.ofBytes (ascii "--") = .dashes := Argument.ofBytes_eq_iff.2 rfl
  rw [extend.eq_def]
  simp only [hdashes]

theorem extend_of_refuses {o : Options} {rest : List Bytes} {e : UsageError}
    (h : o.Refuses rest e) : o.extend rest = .error e := by
  rw [extend.eq_def]
  cases h with
  | settingsPath =>
    have hkind : Argument.ofBytes (ascii "--config") = .settingsPath :=
      Argument.ofBytes_eq_iff.2 rfl
    simp only [hkind]
  | inputPath =>
    have hkind : Argument.ofBytes (ascii "--file") = .inputPath := Argument.ofBytes_eq_iff.2 rfl
    simp only [hkind]
  | @unknown a _ hdashes hno =>
    have hkind : Argument.ofBytes a = .unknown := Argument.ofBytes_eq_iff.2 ⟨hdashes, hno⟩
    simp only [hkind]
  | operand a hpattern =>
    have hkind : Argument.ofBytes a.text = .operand :=
      Argument.ofBytes_eq_iff.2 ⟨a.ne_help, a.no_dashes⟩
    obtain ⟨pattern, hpattern⟩ := Option.ne_none_iff_exists'.1 hpattern
    simp only [hkind, hpattern]

/-- One more clause in front of what was read. -/
theorem exists_reading_cons {o : Options} {u : Clause} {arguments : List Bytes}
    (hu : u.kind = .operand → o.pattern = none)
    (h : ∃ us rest, arguments = written us ++ rest ∧ (o.after [u]).Admits us ∧
      ((o.after [u]).after us).Stops rest) :
    ∃ us rest, u.arguments ++ arguments = written us ++ rest ∧ o.Admits us ∧
      (o.after us).Stops rest := by
  obtain ⟨us, rest, rfl, hus, hrest⟩ := h
  refine ⟨u :: us, rest, ?_, admits_cons_iff.2 ⟨hu, hus⟩, ?_⟩
  · rw [written, written, List.flatMap_cons, List.append_assoc]
  · rwa [← after_append] at hrest

theorem exists_reading_of_stops {o : Options} {rest : List Bytes} (h : o.Stops rest) :
    ∃ us rest', rest = written us ++ rest' ∧ o.Admits us ∧ (o.after us).Stops rest' :=
  ⟨[], rest, rfl, ⟨fun _ _ hu => absurd hu List.not_mem_nil, .nil⟩, o.after_nil.symm ▸ h⟩

/-- Arguments are read as clauses until reading stops. -/
theorem exists_reading (o : Options) (arguments : List Bytes) :
    ∃ us rest, arguments = written us ++ rest ∧ o.Admits us ∧ (o.after us).Stops rest := by
  fun_induction extend o arguments with
  | case1 o => exact exists_reading_of_stops (.inl rfl)
  | case2 o a rest ha ih =>
    rcases Argument.ofBytes_eq_iff.1 ha with rfl | rfl
    · exact exists_reading_cons (u := .help false) (by simp [kind]) (by rwa [after_singleton])
    · exact exists_reading_cons (u := .help true) (by simp [kind]) (by rwa [after_singleton])
  | case3 o a rest ha ih =>
    obtain rfl := Argument.ofBytes_eq_iff.1 ha
    exact exists_reading_cons (u := .dump) (by simp [kind]) (by rwa [after_singleton])
  | case4 o a rest ha ih =>
    obtain rfl := Argument.ofBytes_eq_iff.1 ha
    exact exists_reading_cons (u := .search) (by simp [kind]) (by rwa [after_singleton])
  | case5 o a ha =>
    obtain rfl := Argument.ofBytes_eq_iff.1 ha
    exact exists_reading_of_stops (.inr (.inr ⟨_, .settingsPath⟩))
  | case6 o a ha path rest ih =>
    obtain rfl := Argument.ofBytes_eq_iff.1 ha
    exact exists_reading_cons (u := .settingsPath path) (by simp [kind]) (by rwa [after_singleton])
  | case7 o a ha =>
    obtain rfl := Argument.ofBytes_eq_iff.1 ha
    exact exists_reading_of_stops (.inr (.inr ⟨_, .inputPath⟩))
  | case8 o a ha path rest ih =>
    obtain rfl := Argument.ofBytes_eq_iff.1 ha
    exact exists_reading_cons (u := .inputPath path) (by simp [kind]) (by rwa [after_singleton])
  | case9 o a ha =>
    obtain rfl := Argument.ofBytes_eq_iff.1 ha
    exact exists_reading_of_stops (.inr (.inl rfl))
  | case10 o a ha pattern rest ih =>
    obtain rfl := Argument.ofBytes_eq_iff.1 ha
    exact exists_reading_cons (u := .dashes pattern) (by simp [kind]) (by rwa [after_singleton])
  | case11 o a rest ha =>
    obtain ⟨hdashes, hno⟩ := Argument.ofBytes_eq_iff.1 ha
    exact exists_reading_of_stops (.inr (.inr ⟨_, .unknown hdashes hno⟩))
  | case12 o a rest ha hpattern ih =>
    obtain ⟨hhelp, hdashes⟩ := Argument.ofBytes_eq_iff.1 ha
    exact exists_reading_cons (u := .operand ⟨a, hhelp, hdashes⟩) (fun _ => hpattern)
      (by rwa [after_singleton])
  | case13 o a rest ha pattern hpattern =>
    obtain ⟨hhelp, hdashes⟩ := Argument.ofBytes_eq_iff.1 ha
    have hsome : o.pattern ≠ none := by simp [hpattern]
    exact exists_reading_of_stops (.inr (.inr ⟨_, .operand ⟨a, hhelp, hdashes⟩ hsome⟩))

end Options

end SweepRegex
