import SweepRegex.Bytes.Conversion
import SweepRegex.Files
import SweepRegex.Settings.Register

/-!
# Settings documents

A document is a text of lines.  A line in square brackets names a table, a line with an equals
sign assigns a value to a key of the table named last, and all other lines say nothing.  Blanks
around any part are ignored.  A value in quotation marks is taken as it stands between them; any
other value ends before a number sign that follows a space.  Nothing in a document is an error.

What a document says is kept as a register of tables, each of which is a register of values.  A
table that is named again is gone on with, and a key that is assigned again is changed where it
stands.

Main statement: `get?_assign` — an assignment decides the value of its own key and of no other.
-/

namespace SweepRegex

/-- What a line of a document says. -/
inductive Line where
  | nothing
  | table (name : Bytes)
  | assignment (key value : Bytes)
deriving DecidableEq

namespace Line

/-- The number sign, which starts a comment. -/
def numberSign : UInt8 := 35

/-- The equals sign, which stands between a key and its value. -/
def equalsSign : UInt8 := 61

/-- The brackets around the name of a table. -/
def brackets : UInt8 × UInt8 := (91, 93)

/-- The text in front of the first number sign that follows a space; all of it if there is none. -/
def beforeComment : Bytes → Bytes
  | [] => []
  | b :: rest => if b = Bytes.space ∧ rest.head? = some numberSign then [] else b :: beforeComment rest

/-- Does the text begin with `first` and end with `last`, in two different places? -/
def isEnclosed (first last : UInt8) (s : Bytes) : Bool :=
  2 ≤ s.length && s.head? == some first && s.getLast? == some last

/-- Without its first and last byte. -/
def inside (s : Bytes) : Bytes := s.tail.dropLast

/-- The value written in a text without blanks around it. -/
def value (s : Bytes) : Bytes :=
  if isEnclosed Bytes.quote Bytes.quote s then inside s else Bytes.trim (beforeComment s)

/-- Reads a line. -/
def ofBytes (raw : Bytes) : Line :=
  let s := Bytes.trim raw
  if s.head? = some numberSign then .nothing
  else if isEnclosed brackets.1 brackets.2 s then .table (Bytes.trim (inside s))
  else
    match Bytes.cutAt? equalsSign s with
    | none => .nothing
    | some (key, rest) => .assignment (Bytes.trim key) (value (Bytes.trim rest))

end Line

/-- A value given to a key of a table. -/
structure Assignment where
  table : Bytes
  key : Bytes
  value : Bytes
deriving DecidableEq

/-- The tables of a document with their names; each of them holds values under keys. -/
structure Document where
  tables : Register (Register Bytes)
deriving DecidableEq

namespace Document

/-! ## Algorithm -/

/-- A document without tables. -/
def empty : Document := ⟨.empty⟩

/-- Forgets all that a document says. -/
def clear (d : Document) : Document := { d with tables := .empty }

/-- Goes on with the table of this name, or with a new one. -/
def inTable (d : Document) (name : Bytes) (f : Register Bytes → Register Bytes) : Document :=
  { d with tables := d.tables.change name .empty f }

/-- Sees to it that the table is there. -/
def ensure (d : Document) (name : Bytes) : Document := d.inTable name id

/-- One more assignment. -/
def assign (d : Document) (a : Assignment) : Document :=
  d.inTable a.table fun keys => keys.set a.key a.value

/-- Reads lines inside a table. -/
def readLines (table : Bytes) (d : Document) : List Line → Document
  | [] => d
  | .nothing :: rest => d.readLines table rest
  | .table name :: rest => (d.ensure name).readLines name rest
  | .assignment key value :: rest => (d.assign ⟨table, key, value⟩).readLines table rest

/-- The table named last. -/
def tableAfter (table : Bytes) : List Line → Bytes
  | [] => table
  | .table name :: rest => tableAfter name rest
  | _ :: rest => tableAfter table rest

/-- Reads a text in the place of what a document says.  Keys in front of the first table belong to
the table without a name. -/
def reread (d : Document) (text : Bytes) : Document :=
  d.clear.readLines [] ((Bytes.lines text).map Line.ofBytes)

/-- Reads a text. -/
def parse (text : Bytes) : Document := empty.reread text

/-- Reads what a path leads to.  A directory is taken for a document without lines. -/
def ofNode? : Node → Option Document
  | .refused _ => none
  | .directory => some empty
  | .file content => some (parse content)

/-- Reads the document a path leads to. -/
def load? (fs : FileSystem) (path : Bytes) : Option Document := ofNode? (fs.node path)

/-- The value of a key, as text. -/
def get? (d : Document) (table key : Bytes) : Option Bytes :=
  (d.tables.find? table).bind fun keys => keys.find? key

/-- Has the key a value? -/
def has (d : Document) (table key : Bytes) : Bool := (d.get? table key).isSome

/-- The two truth values, in the four spellings of each. -/
def flag? (s : Bytes) : Option Bool :=
  if s = ascii "true" ∨ s = ascii "True" ∨ s = ascii "TRUE" ∨ s = ascii "1" then some true
  else if s = ascii "false" ∨ s = ascii "False" ∨ s = ascii "FALSE" ∨ s = ascii "0" then some false
  else none

/-- The value of a key as text, or the default. -/
def string (d : Document) (table key default : Bytes) : Bytes := (d.get? table key).getD default

/-- Reads the value of a key into a cell, and tells whether the value was a number and nothing else.
If it was not, the cell may have been written all the same. -/
def readNumber {α : Type} (d : Document) (t : NumberType α) (table key : Bytes) (cell : α) :
    Bool × α :=
  let text := (d.get? table key).getD []
  if text = [] then (false, cell)
  else
    let c := t.convert cell text
    (!c.failed && c.rest = [], c.cell)

/-- The value of a key as a number, or the default. -/
def number {α : Type} (d : Document) (t : NumberType α) (table key : Bytes) (default : α) : α :=
  let (accepted, cell) := d.readNumber t table key default
  if accepted then cell else default

/-- The value of a key as a number without a sign, or the default. -/
def word (d : Document) (table key : Bytes) (default : Nat) : Nat :=
  d.number .word table key default

/-- The value of a key as a number with a sign, or the default. -/
def int (d : Document) (table key : Bytes) (default : Int) : Int :=
  d.number .int table key default

/-- The value of a key as a truth value, or the default. -/
def flag (d : Document) (table key : Bytes) (default : Bool) : Bool :=
  ((d.get? table key).bind flag?).getD default

/-! ## Lemmas -/

@[simp] theorem get?_empty (table key : Bytes) : empty.get? table key = none := rfl

/-- What is done inside a table is seen there and nowhere else. -/
theorem get?_inTable (d : Document) (name : Bytes) (f : Register Bytes → Register Bytes)
    (table key : Bytes) :
    (d.inTable name f).get? table key =
      if name = table then (f ((d.tables.find? name).getD .empty)).find? key
      else d.get? table key := by
  simp only [get?, inTable, Register.find?_change]
  split <;> rfl

/-- A table that nothing is assigned in is as good as none. -/
theorem find?_getD_empty (d : Document) (table key : Bytes) :
    ((d.tables.find? table).getD .empty).find? key = d.get? table key := by
  rw [get?]
  cases d.tables.find? table <;> rfl

@[simp] theorem get?_ensure (d : Document) (name table key : Bytes) :
    (d.ensure name).get? table key = d.get? table key := by
  rw [ensure, get?_inTable]
  split
  · next h => rw [id, h, find?_getD_empty]
  · rfl

/-- An assignment decides the value of its own key and of no other. -/
theorem get?_assign (d : Document) (a : Assignment) (table key : Bytes) :
    (d.assign a).get? table key =
      if a.table = table ∧ a.key = key then some a.value else d.get? table key := by
  rw [assign, get?_inTable, Register.set, Register.find?_change]
  by_cases htable : a.table = table
  · simp [htable, find?_getD_empty]
  · simp [htable]

/-- Lines can be read in two parts, the second inside the table that the first part named last. -/
theorem readLines_append (table : Bytes) (d : Document) (l₁ l₂ : List Line) :
    d.readLines table (l₁ ++ l₂) = (d.readLines table l₁).readLines (tableAfter table l₁) l₂ := by
  induction l₁ generalizing table d with
  | nil => rfl
  | cons l l₁ ih =>
    cases l with
    | nothing => exact ih table d
    | table name => exact ih name _
    | assignment key value => exact ih table _

/-- Nothing is left of what a document said before. -/
theorem reread_eq_parse (d : Document) (text : Bytes) : d.reread text = parse text := rfl

end Document

end SweepRegex
