import SweepRegex.Bytes.Lines
import SweepRegex.Proofs.Settings.Lines
import SweepRegex.Proofs.Settings.Store

/-!
# Written documents are read back

A settings document can be written table by table: the name in square brackets, and below it each
key with its value in quotation marks.  What a table or a key may be called is what the grammar of
lines leaves free, and it is part of the types (`Table`, `Entry`).  A value may hold anything but a
line feed: it stands between the first and the last quotation mark behind the equals sign, so nothing
in it is taken for the end of the value, for a comment or for a bracket.

    (parse (render tables)).get? table key =
      Assignment.last? (written tables) table key                            (get?_parse_render)
-/

namespace SweepRegex

/-- A text that fits in a line and has no blanks at its ends. -/
structure Bytes.Tight (s : Bytes) : Prop where
  one_line : newline ∉ s
  first : ∀ b, s.head? = some b → isBlank b = false
  last : ∀ b, s.getLast? = some b → isBlank b = false

/-- A key and the value it is to have. -/
structure Entry where
  key : Bytes
  value : Bytes
  tight : Bytes.Tight key
  no_equals : Line.equalsSign ∉ key
  no_comment : key.head? ≠ some Line.numberSign
  one_line : Bytes.newline ∉ value

/-- A table with some entries, in the order in which they are written. -/
structure Table where
  name : Bytes
  entries : List Entry
  tight : Bytes.Tight name

/-- The line in which a key is given its value. -/
def Entry.line (e : Entry) : Bytes :=
  e.key ++ ascii " = " ++ Bytes.quote :: e.value ++ [Bytes.quote]

/-- The lines of a table. -/
def Table.lines (t : Table) : List Bytes :=
  (Line.brackets.1 :: t.name ++ [Line.brackets.2]) :: t.entries.map Entry.line

/-- What an entry assigns in a table of this name. -/
def Entry.assignment (table : Bytes) (e : Entry) : Assignment := ⟨table, e.key, e.value⟩

namespace Document

/-- Writes tables, one below the other. -/
def render (tables : List Table) : Bytes := Bytes.unlines (tables.flatMap Table.lines)

/-- What tables assign, in the order in which it is written. -/
def written (tables : List Table) : List Assignment :=
  tables.flatMap fun t => t.entries.map (Entry.assignment t.name)

end Document

/-! ## Texts without blanks at their ends -/

namespace Bytes

/-- Whether a text fits in a line without blanks at its ends can be computed. -/
instance (s : Bytes) : Decidable (Tight s) :=
  decidable_of_iff
    (newline ∉ s ∧ s.head?.any isBlank = false ∧ s.getLast?.any isBlank = false)
    ⟨fun ⟨hline, hfirst, hlast⟩ =>
      ⟨hline, (Option.any_eq_false _ _).1 hfirst, (Option.any_eq_false _ _).1 hlast⟩,
    fun h => ⟨h.one_line, (Option.any_eq_false _ _).2 h.first, (Option.any_eq_false _ _).2 h.last⟩⟩

theorem Tight.trim_eq {s : Bytes} (h : Tight s) : trim s = s := trim_eq_self h.first h.last

end Bytes

/-! ## Lines that are written -/

namespace Line

/-- Text in quotation marks has no blanks around it. -/
theorem trim_quoted (v : Bytes) :
    Bytes.trim (Bytes.space :: Bytes.quote :: v ++ [Bytes.quote]) =
      Bytes.quote :: v ++ [Bytes.quote] := by
  rw [List.cons_append, Bytes.trim_cons_of_blank rfl, Bytes.trim_enclosed rfl rfl]

/-- A name in square brackets names a table. -/
theorem heads_of_tight {name : Bytes} (h : Bytes.Tight name) :
    Heads (brackets.1 :: name ++ [brackets.2]) name :=
  ⟨name, Bytes.trim_enclosed rfl rfl name, h.trim_eq.symm⟩

end Line

namespace Entry

/-- The line without the blanks around it.  Only if the key is empty does it start at the equals
sign. -/
theorem exists_trim_line (e : Entry) : ∃ before,
    Bytes.trim e.line =
      before ++ Line.equalsSign :: Bytes.space :: Bytes.quote :: e.value ++ [Bytes.quote] ∧
    Bytes.trim before = e.key ∧ Line.equalsSign ∉ before ∧ before.head? = e.key.head? := by
  have hline : e.line = e.key ++ [Bytes.space] ++
      (Line.equalsSign :: Bytes.space :: Bytes.quote :: e.value ++ [Bytes.quote]) := by
    simp [line, ascii, Line.equalsSign, Bytes.space]
  cases hkey : e.key with
  | nil =>
    refine ⟨[], ?_, rfl, List.not_mem_nil, rfl⟩
    rw [hline, hkey, List.nil_append, List.singleton_append, Bytes.trim_cons_of_blank rfl,
      Bytes.trim_enclosed rfl rfl, List.nil_append]
  | cons b key =>
    have hfirst : Bytes.isBlank b = false := e.tight.first b (by rw [hkey]; rfl)
    have hspace : Line.equalsSign ≠ Bytes.space := by decide
    refine ⟨e.key ++ [Bytes.space], ?_, ?_, ?_, ?_⟩
    · rw [hline, hkey, ← List.append_assoc]
      exact Bytes.trim_enclosed hfirst rfl _
    · rw [Bytes.trim_concat_of_blank rfl, e.tight.trim_eq, hkey]
    · simp [e.no_equals, hspace]
    · rw [hkey]
      rfl

/-- The line assigns the value to the key. -/
theorem assigns (e : Entry) : Line.Assigns e.line e.key e.value := by
  obtain ⟨before, htrim, hkey, hequals, hhead⟩ := e.exists_trim_line
  refine ⟨?_, ?_, before, Bytes.space :: Bytes.quote :: e.value ++ [Bytes.quote], ?_, hequals,
    hkey.symm, ?_⟩
  · -- a line that ends in a quotation mark names no table
    rintro name ⟨inner, hinner, -⟩
    rw [htrim] at hinner
    have hlast := (List.append_inj' hinner rfl).2
    exact absurd (List.singleton_inj.1 hlast) (by decide)
  · rw [htrim, List.append_assoc, List.head?_append, hhead]
    have hcomment := e.no_comment
    cases hc : e.key.head? with
    | none => exact (by decide : some Line.equalsSign ≠ some Line.numberSign)
    | some b =>
      rw [hc] at hcomment
      exact hcomment
  · rw [htrim, List.append_assoc]
    rfl
  · rw [Line.trim_quoted]
    exact .quoted e.value

theorem ofBytes_line (e : Entry) : Line.ofBytes e.line = .assignment e.key e.value :=
  Line.ofBytes_eq_assignment_iff.2 e.assigns

theorem newline_not_mem_line (e : Entry) : Bytes.newline ∉ e.line := by
  have hmiddle : Bytes.newline ∉ ascii " = " := by decide
  have hquote : Bytes.newline ≠ Bytes.quote := by decide
  simp [line, e.tight.one_line, e.one_line, hmiddle, hquote]

end Entry

namespace Table

theorem map_ofBytes_lines (t : Table) :
    t.lines.map Line.ofBytes =
      .table t.name :: t.entries.map fun e => .assignment e.key e.value := by
  rw [lines, List.map_cons, (Line.heads_of_tight t.tight).ofBytes_eq, List.map_map]
  congr 1
  exact List.map_congr_left fun e _ => e.ofBytes_line

theorem newline_not_mem_of_mem_lines {t : Table} {l : Bytes} (h : l ∈ t.lines) :
    Bytes.newline ∉ l := by
  rcases List.mem_cons.1 h with rfl | h
  · have hfirst : Bytes.newline ≠ Line.brackets.1 := by decide
    have hlast : Bytes.newline ≠ Line.brackets.2 := by decide
    simp [t.tight.one_line, hfirst, hlast]
  · obtain ⟨e, -, rfl⟩ := List.mem_map.1 h
    exact e.newline_not_mem_line

end Table

/-! ## Documents that are written -/

namespace Document

theorem assignments_append (table : Bytes) (l₁ l₂ : List Line) :
    assignments table (l₁ ++ l₂) =
      assignments table l₁ ++ assignments (tableAfter table l₁) l₂ := by
  induction l₁ generalizing table with
  | nil => rfl
  | cons l l₁ ih =>
    cases l with
    | nothing => exact ih table
    | table name => exact ih name
    | assignment key value => exact congrArg (_ :: ·) (ih table)

theorem assignments_entries (table : Bytes) (es : List Entry) :
    assignments table (es.map fun e => .assignment e.key e.value) =
      es.map (Entry.assignment table) := by
  induction es with
  | nil => rfl
  | cons e es ih => exact congrArg (_ :: ·) ih

/-- Each table is opened by its first line, whatever table was open before. -/
theorem assignments_tables (table : Bytes) (tables : List Table) :
    assignments table ((tables.flatMap Table.lines).map Line.ofBytes) = written tables := by
  induction tables generalizing table with
  | nil => rfl
  | cons t tables ih =>
    rw [List.flatMap_cons, List.map_append, assignments_append, ih, t.map_ofBytes_lines,
      assignments, assignments_entries]
    rfl

/-- The lines of a text that was written, with or without a line feed at its end. -/
theorem lines_of_render {tables : List Table} {text : Bytes}
    (h : text = render tables ∨ text ++ [Bytes.newline] = render tables) :
    Bytes.lines text = tables.flatMap Table.lines ++ [[]] ∨
      Bytes.lines text = tables.flatMap Table.lines := by
  have hlines : ∀ l ∈ tables.flatMap Table.lines, Bytes.newline ∉ l := by
    intro l hl
    obtain ⟨t, -, hl⟩ := List.mem_flatMap.1 hl
    exact Table.newline_not_mem_of_mem_lines hl
  rcases h with rfl | h
  · exact .inl (Bytes.lines_unlines hlines)
  · exact .inr (Bytes.lines_of_append_newline hlines h)

/-- What is found is what was written last. -/
theorem get?_parse_render {tables : List Table} {text : Bytes}
    (h : text = render tables ∨ text ++ [Bytes.newline] = render tables) (table key : Bytes) :
    (parse text).get? table key = Assignment.last? (written tables) table key := by
  rw [get?_parse]
  rcases lines_of_render h with hl | hl
  · -- behind the last line feed is an empty line, which says nothing
    rw [hl, List.map_append, assignments_append, assignments_tables]
    exact congrArg (Assignment.last? · table key) (List.append_nil _)
  · rw [hl, assignments_tables]

/-! ## Main statement -/

/-- **Written documents are read back.**  Tables are written with their entries below them, the
same table and the same key any number of times, and the text is read.  A key of a table then has a
value exactly if it was written there, and its value is the one that was written last: byte for
byte, whatever it holds. -/
theorem lookup_parse_render (tables : List Table) {text : Bytes}
    (h : text = render tables ∨ text ++ [Bytes.newline] = render tables) (table key : Bytes) :
    ((parse text).has table key = true ↔ ∃ w, ⟨table, key, w⟩ ∈ written tables) ∧
    ∀ before value behind, written tables = before ++ ⟨table, key, value⟩ :: behind →
      (∀ w, ⟨table, key, w⟩ ∉ behind) →
      ∀ default, (parse text).string table key default = value := by
  refine ⟨?_, fun before value behind hsplit hlast default => ?_⟩
  · rw [has, get?_parse_render h, Option.isSome_iff_ne_none, Ne, Assignment.last?_eq_none_iff,
      Classical.not_forall_not]
  · rw [string, get?_parse_render h, hsplit, Assignment.last?_eq_some hlast, Option.getD_some]

/-- The table `t` is opened twice, and the key `[k` is written in it twice.  What stands in its
last value is no bracket, no comment and no end of the value. -/
theorem lookup_parse_render_opened_twice :
    let text := ascii "[t]\n[k = \"1\"\n[]\n = \"\"\n[t]\n[k = \" \"] #=\x00\""
    (parse text).has (ascii "t") (ascii "[k") = true ∧
      (∀ default, (parse text).string (ascii "t") (ascii "[k") default = ascii " \"] #=\x00") ∧
      (parse text).has (ascii "t") [] = false := by
  intro text
  let first : Entry :=
    ⟨ascii "[k", ascii "1", by decide, by decide, by decide, by decide⟩
  let second : Entry :=
    ⟨ascii "[k", ascii " \"] #=\x00", by decide, by decide, by decide, by decide⟩
  let nameless : Table := ⟨[], [⟨[], [], by decide, by decide, by decide, by decide⟩], by decide⟩
  let tables : List Table :=
    [⟨ascii "t", [first], by decide⟩, nameless, ⟨ascii "t", [second], by decide⟩]
  have htext : text ++ [Bytes.newline] = render tables := by decide +kernel
  have hwritten : written tables =
      [first.assignment (ascii "t"), ⟨[], [], []⟩] ++ second.assignment (ascii "t") :: [] := rfl
  have hk := lookup_parse_render tables (.inr htext) (ascii "t") (ascii "[k")
  have hempty := lookup_parse_render tables (.inr htext) (ascii "t") []
  refine ⟨hk.1.2 ⟨second.value, ?_⟩, hk.2 _ _ _ hwritten fun _ => List.not_mem_nil, ?_⟩
  · rw [hwritten]
    exact List.mem_append_right _ (List.mem_singleton.2 rfl)
  · rw [Bool.eq_false_iff, Ne, hempty.1, hwritten]
    rintro ⟨w, hw⟩
    simp [Entry.assignment, first, second, ascii] at hw

end Document

end SweepRegex
