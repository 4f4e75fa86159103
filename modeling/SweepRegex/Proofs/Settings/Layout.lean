import Mathlib.Logic.Relation
import SweepRegex.Bytes.Lines
import SweepRegex.Proofs.Settings.Lines

/-!
# The layout of a document does not matter

A document may be laid out anew (`Relaid`): blanks can be put around its lines, lines that are blank
or comments can be put between them, and the last line may end with a line feed or without.  None of
this is told by the lines that say something (`statements`), and a document is nothing but these.

    Relaid text text' → statements (lines text) = statements (lines text')    (statements_of_relaid)
-/

namespace SweepRegex.Document

/-! ## Layouts -/

/-- The blanks that fit in a line: space, tab, carriage return, vertical tab and form feed. -/
def layoutBytes : Bytes := [32, 9, 13, 11, 12]

/-- A line that is blank, or has a number sign in front of all that is not. -/
inductive Idle : Bytes → Prop where
  | blank {l : Bytes} : (∀ b ∈ l, b ∈ layoutBytes) → Idle l
  | comment {w rest : Bytes} : (∀ b ∈ w, b ∈ layoutBytes) → Idle (w ++ Line.numberSign :: rest)

/-- One change of the layout.  A line behind the last one can be had by `ended` and `between`. -/
inductive Relaid : Bytes → Bytes → Prop where
  | before {front l back w : Bytes} : Bytes.StartsLine front → Bytes.newline ∉ l →
      Bytes.EndsLine back → (∀ b ∈ w, b ∈ layoutBytes) →
      Relaid (front ++ l ++ back) (front ++ (w ++ l) ++ back)
  | behind {front l back w : Bytes} : Bytes.StartsLine front → Bytes.newline ∉ l →
      Bytes.EndsLine back → (∀ b ∈ w, b ∈ layoutBytes) →
      Relaid (front ++ l ++ back) (front ++ (l ++ w) ++ back)
  | between {front l back : Bytes} : Bytes.StartsLine front → Bytes.newline ∉ l → Idle l →
      Relaid (front ++ back) (front ++ (l ++ Bytes.newline :: back))
  | ended (text : Bytes) : Relaid text (text ++ [Bytes.newline])

/-- Two documents that nobody who looks up their keys can tell apart. -/
structure SameAnswers (d d' : Document) : Prop where
  has : ∀ table key, d.has table key = d'.has table key
  string : ∀ table key default, d.string table key default = d'.string table key default
  int : ∀ table key default, d.int table key default = d'.int table key default
  word : ∀ table key default, d.word table key default = d'.word table key default
  flag : ∀ table key default, d.flag table key default = d'.flag table key default

/-- What is said by those lines that say something. -/
def statements (lines : List Bytes) : List Line :=
  (lines.map Line.ofBytes).filter (· ≠ .nothing)

/-! ## What a document says -/

theorem SameAnswers.of_eq {d d' : Document} (h : d = d') : SameAnswers d d' := by
  subst h
  exact ⟨fun _ _ => rfl, fun _ _ _ => rfl, fun _ _ _ => rfl, fun _ _ _ => rfl, fun _ _ _ => rfl⟩

theorem SameAnswers.symm {d d' : Document} (h : SameAnswers d d') : SameAnswers d' d :=
  ⟨fun _ _ => (h.has _ _).symm, fun _ _ _ => (h.string _ _ _).symm,
    fun _ _ _ => (h.int _ _ _).symm, fun _ _ _ => (h.word _ _ _).symm,
    fun _ _ _ => (h.flag _ _ _).symm⟩

theorem statements_append (ls ls' : List Bytes) :
    statements (ls ++ ls') = statements ls ++ statements ls' := by
  simp [statements]

theorem statements_of_nothing {l : Bytes} (h : Line.ofBytes l = .nothing) :
    statements [l] = [] := by
  simp [statements, h]

/-- Lines that say nothing can be left out. -/
theorem readLines_filter (table : Bytes) (d : Document) (lines : List Line) :
    d.readLines table (lines.filter (· ≠ .nothing)) = d.readLines table lines := by
  induction lines generalizing table d with
  | nil => rfl
  | cons l lines ih =>
    cases l with
    | nothing => exact ih table d
    | table name => exact ih name _
    | assignment key value => exact ih table _

theorem parse_eq_of_statements {text text' : Bytes}
    (h : statements (Bytes.lines text) = statements (Bytes.lines text')) :
    parse text = parse text' := by
  have hread := congrArg (empty.readLines []) h
  rwa [statements, statements, readLines_filter, readLines_filter] at hread

/-! ## Changes of the layout -/

theorem isBlank_of_mem_layoutBytes {w : Bytes} (h : ∀ b ∈ w, b ∈ layoutBytes) :
    ∀ b ∈ w, Bytes.isBlank b = true := by
  have hall : layoutBytes.all Bytes.isBlank = true := by decide
  exact fun b hb => List.all_eq_true.1 hall b (h b hb)

theorem newline_not_mem_of_layoutBytes {w : Bytes} (h : ∀ b ∈ w, b ∈ layoutBytes) :
    Bytes.newline ∉ w :=
  fun hb => absurd (h _ hb) (by decide)

/-- A line is looked at without the blanks around it. -/
theorem ofBytes_congr {l l' : Bytes} (h : Bytes.trim l = Bytes.trim l') :
    Line.ofBytes l = Line.ofBytes l' := by
  simp only [Line.ofBytes, h]

theorem Idle.ofBytes_eq {l : Bytes} (h : Idle l) : Line.ofBytes l = .nothing := by
  cases h with
  | blank hblank =>
    have htrim := Bytes.trim_append_blanks (isBlank_of_mem_layoutBytes hblank) []
    exact ofBytes_congr htrim
  | comment hblank =>
    have hfirst : Bytes.isBlank Line.numberSign = false := rfl
    rw [ofBytes_congr (Bytes.trim_blanks_append (isBlank_of_mem_layoutBytes hblank) _),
      Line.ofBytes, Bytes.trim_cons_of_not_blank hfirst]
    rfl

/-- A line can be put in the place of another one that says the same. -/
theorem statements_around {front back l l' : Bytes} (hfront : Bytes.StartsLine front)
    (hback : Bytes.EndsLine back) (hl : Bytes.newline ∉ l) (hl' : Bytes.newline ∉ l')
    (h : Line.ofBytes l = Line.ofBytes l') :
    statements (Bytes.lines (front ++ l ++ back)) =
      statements (Bytes.lines (front ++ l' ++ back)) := by
  obtain ⟨ls, ls', hlines⟩ := Bytes.exists_lines_around hfront hback
  rw [hlines l hl, hlines l' hl']
  simp [statements, h]

/-- No change of the layout is told by the lines that say something. -/
theorem statements_of_relaid {text text' : Bytes} (h : Relaid text text') :
    statements (Bytes.lines text) = statements (Bytes.lines text') := by
  cases h with
  | before hfront hl hback hw =>
    apply statements_around hfront hback hl
    · exact List.not_mem_append (newline_not_mem_of_layoutBytes hw) hl
    · exact (ofBytes_congr (Bytes.trim_blanks_append (isBlank_of_mem_layoutBytes hw) _)).symm
  | behind hfront hl hback hw =>
    apply statements_around hfront hback hl
    · exact List.not_mem_append hl (newline_not_mem_of_layoutBytes hw)
    · exact (ofBytes_congr (Bytes.trim_append_blanks (isBlank_of_mem_layoutBytes hw) _)).symm
  | between hfront hl hidle =>
    obtain ⟨ls, hlines⟩ := Bytes.exists_lines_append hfront
    rw [hlines, hlines, Bytes.lines_append_newline, Bytes.lines_eq_singleton hl, statements_append,
      statements_append, statements_append, statements_of_nothing hidle.ofBytes_eq, List.nil_append]
  | ended =>
    have hnil : statements (Bytes.lines []) = [] := rfl
    rw [Bytes.lines_append_newline, statements_append, hnil, List.append_nil]

/-! ## All line feeds with a carriage return -/

/-- Every line feed with a carriage return in front. -/
def crlf (text : Bytes) : Bytes :=
  text.flatMap fun b => if b = Bytes.newline then [13, Bytes.newline] else [b]

/-- Carriage returns can be put behind one line after the other.  The text in front of `text` is the
part that is done, with the line that `text` goes on with. -/
theorem eqvGen_relaid_append_crlf (text : Bytes) {front l : Bytes}
    (hfront : Bytes.StartsLine front) (hl : Bytes.newline ∉ l) :
    Relation.EqvGen Relaid (front ++ l ++ text) (front ++ l ++ crlf text) := by
  induction text generalizing front l with
  | nil => exact .refl _
  | cons b text ih =>
    by_cases hb : b = Bytes.newline
    · subst hb
      have hstep : Relaid (front ++ l ++ Bytes.newline :: text)
          (front ++ (l ++ [13]) ++ Bytes.newline :: text) :=
        .behind hfront hl (.inr ⟨text, rfl⟩) (by decide +kernel)
      have hrest := @ih (front ++ (l ++ [13]) ++ [Bytes.newline]) [] (.inr ⟨_, rfl⟩)
        List.not_mem_nil
      simp only [List.append_nil, List.append_assoc, List.singleton_append] at hstep hrest
      have hcrlf : crlf (Bytes.newline :: text) = 13 :: Bytes.newline :: crlf text := rfl
      rw [hcrlf, List.append_assoc, List.append_assoc]
      exact .trans _ _ _ (.rel _ _ hstep) hrest
    · have hlb : Bytes.newline ∉ l ++ [b] :=
        List.not_mem_append hl (by simpa using Ne.symm hb)
      have hcrlf : crlf (b :: text) = b :: crlf text := by simp [crlf, hb]
      have hrest := ih hfront hlb
      simp only [List.append_assoc, List.singleton_append] at hrest
      rwa [hcrlf, List.append_assoc, List.append_assoc]

theorem eqvGen_relaid_crlf (text : Bytes) : Relation.EqvGen Relaid text (crlf text) :=
  eqvGen_relaid_append_crlf text (.inl rfl) List.not_mem_nil

/-! ## Main statement -/

theorem parse_eq_of_relaid {text text' : Bytes} (h : Relation.EqvGen Relaid text text') :
    parse text = parse text' := by
  apply parse_eq_of_statements
  induction h with
  | rel text text' hstep => exact statements_of_relaid hstep
  | refl text => rfl
  | symm text text' _ ih => exact ih.symm
  | trans text between text' _ _ ih ih' => exact ih.trans ih'

/-- **The layout of a document does not matter.**  After any number of changes of the layout, made
or unmade, every key has the same answers as before; and it still has them when a carriage return
is put in front of every line feed. -/
theorem sameAnswers_of_relaid {text text' : Bytes} (h : Relation.EqvGen Relaid text text') :
    SameAnswers (parse text) (parse text') ∧ SameAnswers (parse text) (parse (crlf text')) :=
  ⟨.of_eq (parse_eq_of_relaid h),
    .of_eq (parse_eq_of_relaid (.trans _ _ _ h (eqvGen_relaid_crlf text')))⟩

/-- A blank in front of a name, a comment of its own, a blank behind a value, and a line feed. -/
theorem sameAnswers_of_relaid_four_changes :
    let text := ascii "[t]\nk = \"1\""
    let text' := ascii "\t[t]\n #\nk = \"1\" \n"
    Relation.EqvGen Relaid text text' ∧ SameAnswers (parse text) (parse text') ∧
      (parse (crlf text')).string (ascii "t") (ascii "k") [] =
        (parse text).string (ascii "t") (ascii "k") [] := by
  intro text text'
  have hbefore : Relaid text (ascii "\t[t]\nk = \"1\"") :=
    @Relaid.before [] (ascii "[t]") (ascii "\nk = \"1\"") (ascii "\t") (.inl rfl) (by decide)
      (.inr ⟨ascii "k = \"1\"", rfl⟩) (by decide +kernel)
  have hbetween : Relaid (ascii "\t[t]\nk = \"1\"") (ascii "\t[t]\n #\nk = \"1\"") :=
    @Relaid.between (ascii "\t[t]\n") (ascii " #") (ascii "k = \"1\"")
      (.inr ⟨ascii "\t[t]", rfl⟩) (by decide) (@Idle.comment (ascii " ") [] (by decide +kernel))
  have hbehind : Relaid (ascii "\t[t]\n #\nk = \"1\"") (ascii "\t[t]\n #\nk = \"1\" ") :=
    @Relaid.behind (ascii "\t[t]\n #\n") (ascii "k = \"1\"") [] (ascii " ")
      (.inr ⟨ascii "\t[t]\n #", rfl⟩) (by decide) (.inl rfl) (by decide +kernel)
  have hall : Relation.EqvGen Relaid text text' :=
    .trans _ _ _ (.rel _ _ hbefore) (.trans _ _ _ (.rel _ _ hbetween)
      (.trans _ _ _ (.rel _ _ hbehind) (.rel _ _ (.ended _))))
  obtain ⟨hsame, hcrlf⟩ := sameAnswers_of_relaid hall
  exact ⟨hall, hsame, (hcrlf.string _ _ _).symm⟩

end SweepRegex.Document
