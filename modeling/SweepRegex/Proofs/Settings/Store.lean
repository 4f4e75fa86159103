import SweepRegex.Settings.Document

/-!
# What a document holds

The lines of a document go into registers, which are changed in place while tables are left and
opened again.  Two things come of it.  Every line leaves the names of the tables and the keys in each
table distinct (`Distinct.readLines`), so that a document holds nothing but what is found in it.  And
what is found is what was assigned last: the order of the assignments is forgotten otherwise, and
looking a key up amounts to going through them from the end.

    (d.readLines table lines).get? t k =
      (Assignment.last? (assignments table lines) t k).or (d.get? t k)        (get?_readLines)
-/

namespace SweepRegex

/-- Of assignments in their order, the value of the last one to a key. -/
def Assignment.last? (as : List Assignment) (table key : Bytes) : Option Bytes :=
  (as.reverse.find? fun a => a.table == table && a.key == key).map Assignment.value

namespace Document

/-- What lines assign, in their order, when the first of them stand in this table. -/
def assignments (table : Bytes) : List Line → List Assignment
  | [] => []
  | .nothing :: rest => assignments table rest
  | .table name :: rest => assignments name rest
  | .assignment key value :: rest => ⟨table, key, value⟩ :: assignments table rest

/-- No table is there twice, and no key is twice in a table. -/
structure Distinct (d : Document) : Prop where
  tables : d.tables.Distinct
  keys : ∀ t ∈ d.tables.entries, t.2.Distinct

/-- Somewhere in the document there is a table of this name, and somewhere in it the key with this
value. -/
def Holds (d : Document) (table key value : Bytes) : Prop :=
  ∃ keys, (table, keys) ∈ d.tables.entries ∧ (key, value) ∈ keys.entries

/-! ## Names and keys stay distinct -/

theorem distinct_empty : empty.Distinct :=
  ⟨Register.distinct_empty, fun _ ht => absurd ht List.not_mem_nil⟩

section
variable {d : Document} (h : d.Distinct)
include h

theorem Distinct.inTable (name : Bytes) {f : Register Bytes → Register Bytes}
    (hf : ∀ keys, keys.Distinct → (f keys).Distinct) : (d.inTable name f).Distinct where
  tables := h.tables.change name .empty f
  keys := Register.forall_mem_change h.keys Register.distinct_empty hf

theorem Distinct.ensure (name : Bytes) : (d.ensure name).Distinct :=
  h.inTable name fun _ hkeys => hkeys

theorem Distinct.assign (a : Assignment) : (d.assign a).Distinct :=
  h.inTable a.table fun _ hkeys => hkeys.change a.key a.value _

/-- Whatever lines are read, no name and no key comes up twice. -/
theorem Distinct.readLines (table : Bytes) (lines : List Line) :
    (d.readLines table lines).Distinct := by
  induction lines generalizing table d with
  | nil => exact h
  | cons l lines ih =>
    cases l with
    | nothing => exact ih h table
    | table name => exact ih (h.ensure name) name
    | assignment key value => exact ih (h.assign ⟨table, key, value⟩) table

/-- There is nothing in the document behind what is found. -/
theorem Distinct.holds_iff {table key value : Bytes} :
    d.Holds table key value ↔ d.get? table key = some value := by
  simp only [get?, Option.bind_eq_some_iff, h.tables.find?_eq_some_iff]
  constructor
  · rintro ⟨keys, htable, hkey⟩
    exact ⟨keys, htable, (h.keys _ htable).find?_eq_some_iff.2 hkey⟩
  · rintro ⟨keys, htable, hkey⟩
    exact ⟨keys, htable, (h.keys _ htable).find?_eq_some_iff.1 hkey⟩

end

/-- What was there before has no say in it. -/
theorem distinct_reread (d : Document) (text : Bytes) : (d.reread text).Distinct :=
  distinct_empty.readLines [] _

end Document

/-! ## The last assignment is found -/

namespace Assignment

theorem last?_append (as bs : List Assignment) (table key : Bytes) :
    last? (as ++ bs) table key = (last? bs table key).or (last? as table key) := by
  simp [last?, List.find?_append, Option.map_or]

theorem last?_cons (a : Assignment) (as : List Assignment) (table key : Bytes) :
    last? (a :: as) table key =
      (last? as table key).or (if a.table = table ∧ a.key = key then some a.value else none) := by
  rw [← List.singleton_append, last?_append]
  by_cases h : a.table = table ∧ a.key = key
  · simp [last?, h]
  · have hfind : (a.table == table && a.key == key) = false := by simpa using h
    simp [last?, h, hfind]

theorem last?_eq_none_iff {as : List Assignment} {table key : Bytes} :
    last? as table key = none ↔ ∀ v, ⟨table, key, v⟩ ∉ as := by
  simp only [last?, Option.map_eq_none_iff, List.find?_eq_none, List.mem_reverse, Bool.and_eq_true,
    beq_iff_eq]
  constructor
  · exact fun h v hv => h _ hv ⟨rfl, rfl⟩
  · rintro h ⟨t, k, v⟩ ha ⟨rfl, rfl⟩
    exact h v ha

/-- The assignment behind which the key is not assigned any more. -/
theorem last?_eq_some {before behind : List Assignment} {table key v : Bytes}
    (h : ∀ w, ⟨table, key, w⟩ ∉ behind) :
    last? (before ++ ⟨table, key, v⟩ :: behind) table key = some v := by
  rw [last?_append, last?_cons, last?_eq_none_iff.2 h]
  simp

end Assignment

namespace Document

open Assignment

/-- A lookup finds what the lines have assigned last, or what was there before. -/
theorem get?_readLines (table : Bytes) (d : Document) (lines : List Line) (t k : Bytes) :
    (d.readLines table lines).get? t k =
      (last? (assignments table lines) t k).or (d.get? t k) := by
  induction lines generalizing table d with
  | nil => rfl
  | cons l lines ih =>
    cases l with
    | nothing => exact ih table d
    | table name => rw [readLines, ih, get?_ensure, assignments]
    | assignment key value =>
      rw [readLines, ih, get?_assign, assignments, last?_cons, Option.or_assoc]
      split
      · rfl
      · rfl

theorem get?_parse (text table key : Bytes) :
    (parse text).get? table key =
      last? (assignments [] ((Bytes.lines text).map Line.ofBytes)) table key := by
  rw [parse, reread, get?_readLines]
  exact Option.or_none

end Document

end SweepRegex
