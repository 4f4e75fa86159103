import Mathlib.Data.List.Induction
import SweepRegex.Proofs.Settings.Lines
import SweepRegex.Proofs.Settings.Store

/-!
# The last assignment counts

A settings document is a sequence of lines.  A line that names a table opens it for the lines up to
the next one that names a table (`InTable`), however often the same table is opened; in front of all
of them is the table without a name.  A line assigns a value to a key of the table it stands in
(`AssignsAt`).  What a key has been assigned in earlier lines, and whatever lies between, is
forgotten with the next line that assigns a value to it.  The document keeps one table of each name
and one value under each key, so that nothing else is left in it.

    (parse text).get? table key = some v ↔ LastAssigned (Bytes.lines text) table key v
                                                                     (get?_parse_eq_some_iff)
-/

namespace SweepRegex.Document

/-! ## Assignments of a text -/

/-- What stands behind these lines stands in this table, the one named last. -/
inductive InTable : List Bytes → Bytes → Prop where
  | top {before : List Bytes} : (∀ raw ∈ before, ∀ name, ¬Line.Heads raw name) → InTable before []
  | named {before between : List Bytes} {raw name : Bytes} : Line.Heads raw name →
      (∀ r ∈ between, ∀ n, ¬Line.Heads r n) → InTable (before ++ raw :: between) name

/-- The line of this number assigns this value to this key of this table. -/
def AssignsAt (lines : List Bytes) (i : Nat) (table key value : Bytes) : Prop :=
  ∃ before raw behind, lines = before ++ raw :: behind ∧ before.length = i ∧
    InTable before table ∧ Line.Assigns raw key value

/-- Of the lines that assign something to this key of this table, the last one assigns this. -/
def LastAssigned (lines : List Bytes) (table key value : Bytes) : Prop :=
  ∃ i, AssignsAt lines i table key value ∧ ∀ j v, AssignsAt lines j table key v → j ≤ i

/-! ## One more line -/

section
variable {lines : List Bytes} {raw table key v : Bytes} {i : Nat}

theorem tableAfter_concat (table : Bytes) (lines : List Line) (l : Line) :
    tableAfter table (lines ++ [l]) =
      match l with
      | .table name => name
      | _ => tableAfter table lines := by
  induction lines generalizing table with
  | nil => cases l <;> rfl
  | cons m lines ih =>
    cases m with
    | nothing => exact ih table
    | table name => exact ih name
    | assignment key value => exact ih table

/-- A line of a text with one more line is this last one, or a line of the text. -/
theorem eq_or_exists_of_concat_eq {before behind : List Bytes} {r : Bytes}
    (h : lines ++ [raw] = before ++ r :: behind) :
    (lines = before ∧ raw = r ∧ behind = []) ∨
      ∃ between, lines = before ++ r :: between ∧ behind = between ++ [raw] := by
  rcases List.eq_nil_or_concat behind with rfl | ⟨between, last, rfl⟩
  · obtain ⟨rfl, hr⟩ := List.append_inj' h rfl
    exact .inl ⟨rfl, List.singleton_inj.1 hr, rfl⟩
  · rw [List.concat_eq_append, ← List.cons_append, ← List.append_assoc] at h
    obtain ⟨rfl, hr⟩ := List.append_inj' h rfl
    rw [List.concat_eq_append, List.singleton_inj.1 hr]
    exact .inr ⟨between, rfl, rfl⟩

theorem inTable_concat_iff :
    InTable (lines ++ [raw]) table ↔
      Line.Heads raw table ∨ (∀ name, ¬Line.Heads raw name) ∧ InTable lines table := by
  constructor
  · generalize hl : lines ++ [raw] = all
    intro h
    cases h with
    | top hnone =>
      subst hl
      rw [List.forall_mem_append, List.forall_mem_singleton] at hnone
      exact .inr ⟨hnone.2, .top hnone.1⟩
    | named hhead hnone =>
      rcases eq_or_exists_of_concat_eq hl with ⟨-, rfl, -⟩ | ⟨between, rfl, rfl⟩
      · exact .inl hhead
      · rw [List.forall_mem_append, List.forall_mem_singleton] at hnone
        exact .inr ⟨hnone.2, .named hhead hnone.1⟩
  · rintro (hhead | ⟨hraw, h⟩)
    · exact .named hhead (by simp)
    · have hlast : ∀ r ∈ [raw], ∀ name, ¬Line.Heads r name := List.forall_mem_singleton.2 hraw
      cases h with
      | top hnone => exact .top (List.forall_mem_append.2 ⟨hnone, hlast⟩)
      | named hhead hnone =>
        rw [List.append_assoc, List.cons_append]
        exact .named hhead (List.forall_mem_append.2 ⟨hnone, hlast⟩)

/-- The reader keeps the table named last. -/
theorem tableAfter_eq_iff_inTable :
    tableAfter [] (lines.map Line.ofBytes) = table ↔ InTable lines table := by
  induction lines using List.reverseRecOn with
  | nil =>
    constructor
    · rintro rfl
      exact .top (by simp)
    · generalize hl : ([] : List Bytes) = lines
      intro h
      cases h with
      | top _ => subst hl; rfl
      | named _ _ => simp at hl
  | append_singleton lines raw ih =>
    rw [List.map_append, List.map_singleton, tableAfter_concat, inTable_concat_iff, ← ih]
    simp only [← Line.ofBytes_eq_table_iff]
    cases Line.ofBytes raw <;> simp

theorem assignsAt_concat_iff :
    AssignsAt (lines ++ [raw]) i table key v ↔
      AssignsAt lines i table key v ∨
        i = lines.length ∧ InTable lines table ∧ Line.Assigns raw key v := by
  constructor
  · rintro ⟨before, r, behind, hl, rfl, htable, hr⟩
    rcases eq_or_exists_of_concat_eq hl with ⟨rfl, rfl, -⟩ | ⟨between, rfl, -⟩
    · exact .inr ⟨rfl, htable, hr⟩
    · exact .inl ⟨before, r, between, rfl, rfl, htable, hr⟩
  · rintro (⟨before, r, behind, rfl, rfl, htable, hr⟩ | ⟨rfl, htable, hraw⟩)
    · exact ⟨before, r, behind ++ [raw], by simp, rfl, htable, hr⟩
    · exact ⟨lines, raw, [], rfl, rfl, htable, hraw⟩

theorem AssignsAt.lt_length (h : AssignsAt lines i table key v) : i < lines.length := by
  obtain ⟨before, raw, behind, rfl, rfl, -, -⟩ := h
  simp

/-- An assignment in the last line takes the place of all earlier ones; any other line leaves it
at the last of these. -/
theorem lastAssigned_concat_iff :
    LastAssigned (lines ++ [raw]) table key v ↔
      InTable lines table ∧ Line.Assigns raw key v ∨
        (∀ w, ¬(InTable lines table ∧ Line.Assigns raw key w)) ∧
          LastAssigned lines table key v := by
  constructor
  · rintro ⟨i, hi, hlast⟩
    rcases assignsAt_concat_iff.1 hi with hi | ⟨-, hraw⟩
    · refine .inr ⟨fun w hw => ?_, i, hi, fun j w hj => hlast j w ?_⟩
      · have := hlast lines.length w (assignsAt_concat_iff.2 (.inr ⟨rfl, hw⟩))
        have := hi.lt_length
        omega
      · exact assignsAt_concat_iff.2 (.inl hj)
    · exact .inl hraw
  · rintro (hraw | ⟨hnone, i, hi, hlast⟩)
    · refine ⟨lines.length, assignsAt_concat_iff.2 (.inr ⟨rfl, hraw⟩), fun j w hj => ?_⟩
      rcases assignsAt_concat_iff.1 hj with hj | ⟨rfl, -⟩
      · exact Nat.le_of_lt hj.lt_length
      · exact Nat.le_refl _
    · refine ⟨i, assignsAt_concat_iff.2 (.inl hi), fun j w hj => ?_⟩
      rcases assignsAt_concat_iff.1 hj with hj | ⟨-, hw⟩
      · exact hlast j w hj
      · exact absurd hw (hnone w)

/-- The reader looks a key up in the same way: what the last line assigns hides all else. -/
theorem get?_readLines_concat_iff :
    ((empty.readLines [] ((lines ++ [raw]).map Line.ofBytes)).get? table key = some v) ↔
      InTable lines table ∧ Line.Assigns raw key v ∨
        (∀ w, ¬(InTable lines table ∧ Line.Assigns raw key w)) ∧
          (empty.readLines [] (lines.map Line.ofBytes)).get? table key = some v := by
  rw [List.map_append, List.map_singleton, readLines_append]
  simp only [← tableAfter_eq_iff_inTable, ← Line.ofBytes_eq_assignment_iff]
  cases Line.ofBytes raw with
  | nothing => simp [readLines]
  | table name => simp [readLines]
  | assignment k w =>
    simp only [readLines, get?_assign, Line.assignment.injEq]
    by_cases h : tableAfter [] (lines.map Line.ofBytes) = table ∧ k = key
    · simp [h]
    · rw [if_neg h]
      have hnone : ∀ u, ¬(tableAfter [] (lines.map Line.ofBytes) = table ∧ k = key ∧ w = u) :=
        fun u hu => h ⟨hu.1, hu.2.1⟩
      simp [hnone]

end

/-! ## All lines -/

/-- A key has the value that the last assignment to it gives. -/
theorem get?_parse_eq_some_iff {text table key v : Bytes} :
    (parse text).get? table key = some v ↔ LastAssigned (Bytes.lines text) table key v := by
  show (empty.readLines [] ((Bytes.lines text).map Line.ofBytes)).get? table key = some v ↔ _
  induction Bytes.lines text using List.reverseRecOn generalizing v with
  | nil => simp [readLines, LastAssigned, AssignsAt]
  | append_singleton lines raw ih =>
    rw [get?_readLines_concat_iff, lastAssigned_concat_iff, ih]

/-- A key that is assigned at all has a last assignment. -/
theorem exists_lastAssigned_iff {lines : List Bytes} {table key : Bytes} :
    (∃ v, LastAssigned lines table key v) ↔ ∃ i v, AssignsAt lines i table key v := by
  constructor
  · rintro ⟨v, i, hi, -⟩
    exact ⟨i, v, hi⟩
  · rintro ⟨i, v, hi⟩
    induction lines using List.reverseRecOn generalizing i v with
    | nil => exact absurd hi.lt_length (Nat.not_lt_zero i)
    | append_singleton lines raw ih =>
      by_cases hraw : ∃ w, InTable lines table ∧ Line.Assigns raw key w
      · obtain ⟨w, hw⟩ := hraw
        exact ⟨w, lastAssigned_concat_iff.2 (.inl hw)⟩
      · have hnone := not_exists.1 hraw
        rcases assignsAt_concat_iff.1 hi with hi | ⟨-, hv⟩
        · obtain ⟨w, hw⟩ := ih i v hi
          exact ⟨w, lastAssigned_concat_iff.2 (.inr ⟨hnone, hw⟩)⟩
        · exact absurd hv (hnone v)

/-! ## Main statement -/

/-- **Lookups return the last assignment.**  A text is read in the place of any document.  A key of
a table then has a value exactly if some line assigns one to it there.  Its value is the one that
the last such line writes, whatever lines stand before, between and behind; otherwise it is the
default.  No table is there twice, and no key twice in a table, so that the document holds no other
value for the key, and nothing that was there before. -/
theorem lookup_parse (held : Document) (text table key : Bytes) :
    let d := held.reread text
    (d.has table key = true ↔ ∃ i v, AssignsAt (Bytes.lines text) i table key v) ∧
    (d.has table key = true →
      ∃ i v, AssignsAt (Bytes.lines text) i table key v ∧
        (∀ j w, AssignsAt (Bytes.lines text) j table key w → j ≤ i) ∧
        (∀ default, d.string table key default = v) ∧ ∀ w, d.Holds table key w ↔ w = v) ∧
    (d.has table key = false →
      (∀ default, d.string table key default = default) ∧ ∀ w, ¬d.Holds table key w) ∧
    d.Distinct := by
  intro d
  have hdistinct : d.Distinct := held.distinct_reread text
  have hget {v : Bytes} :
      d.get? table key = some v ↔ LastAssigned (Bytes.lines text) table key v := by
    rw [show d = parse text from held.reread_eq_parse text]
    exact get?_parse_eq_some_iff
  have hhas : d.has table key = true ↔ ∃ v, LastAssigned (Bytes.lines text) table key v := by
    simp only [has, Option.isSome_iff_exists, hget]
  refine ⟨hhas.trans exists_lastAssigned_iff, fun h => ?_, fun h => ?_, hdistinct⟩
  · obtain ⟨v, i, hi, hlast⟩ := hhas.1 h
    have hv : d.get? table key = some v := hget.2 ⟨i, hi, hlast⟩
    refine ⟨i, v, hi, hlast, fun default => ?_, fun w => ?_⟩
    · rw [string, hv, Option.getD_some]
    · rw [hdistinct.holds_iff, hv, Option.some.injEq, eq_comm]
  · have hnone : d.get? table key = none := by simpa [has] using h
    refine ⟨fun default => ?_, fun w => ?_⟩
    · rw [string, hnone, Option.getD_none]
    · rw [hdistinct.holds_iff, hnone]
      exact Option.some_ne_none w ∘ Eq.symm

/-- A table that is opened again goes on where it was left. -/
example :
    let d := parse (ascii "[a]\nk = 1\n[b]\nk = 2\n[ a ]\n k=\t3 # 4")
    d.string (ascii "a") (ascii "k") [] = ascii "3" := by
  decide +kernel

end SweepRegex.Document
