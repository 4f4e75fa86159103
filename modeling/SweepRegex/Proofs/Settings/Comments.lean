import Mathlib.Data.List.Basic
import Mathlib.Data.List.Induction
import SweepRegex.Proofs.Settings.Layout

/-!
# Comments behind a line

A comment can be put behind a line: a space, a number sign and any text.  Whether that does harm is
a question about all documents the line may stand in, but it comes down to what the line says
(`exchangeable_iff`).  Only behind a bare value that is not empty is a comment left out, and even
there its last byte can be taken for the second of two brackets or quotation marks (`Shielded`).
Behind the name of a table or a value in quotation marks a comment always does harm.

    Exchangeable raw (commented raw comment) ↔ ∃ key text, Shielded raw comment key text
                                                               (exchangeable_commented_iff)
-/

namespace SweepRegex

namespace Line

/-! ## Comments -/

/-- The line with a comment behind it. -/
def commented (raw comment : Bytes) : Bytes := raw ++ ascii " #" ++ comment

/-- The line writes this text for the value of this key, with comments and quotation marks. -/
structure Gives (raw key text : Bytes) : Prop where
  not_heads : ∀ name, ¬Heads raw name
  not_comment : (Bytes.trim raw).head? ≠ some numberSign
  parts : ∃ before behind, Bytes.trim raw = before ++ equalsSign :: behind ∧
    equalsSign ∉ before ∧ key = Bytes.trim before ∧ text = Bytes.trim behind

/-- The lines that a comment can be put behind: a table's name, a key with a value in quotation
marks, and a key with a bare value that has no comment yet. -/
inductive Commentable (raw : Bytes) : Prop where
  | named {name : Bytes} : Heads raw name → Commentable raw
  | quoted {key text : Bytes} : Gives raw key text → Quoted text → Commentable raw
  | bare {key text : Bytes} : Gives raw key text → ¬Quoted text → ¬ascii " #" <:+: text →
      Commentable raw

/-- The line has a bare value that is left when the comment is put behind it.  The value is not
empty, and the comment does not end with the second of two brackets around the line or of two
quotation marks around the value. -/
structure Shielded (raw comment key text : Bytes) : Prop where
  gives : Gives raw key text
  not_quoted : ¬Quoted text
  no_comment : ¬ascii " #" <:+: text
  ne_nil : text ≠ []
  bracket : (Bytes.trim raw).head? = some brackets.1 →
    (Bytes.trimEnd comment).getLast? ≠ some brackets.2
  quote : text.head? = some Bytes.quote → (Bytes.trimEnd comment).getLast? ≠ some Bytes.quote

/-! ## Lines with a comment -/

section
variable {raw comment key text : Bytes}

theorem Gives.ofBytes_eq (h : Gives raw key text) : ofBytes raw = .assignment key (value text) := by
  obtain ⟨before, behind, hs, hbefore, hkey, rfl⟩ := h.parts
  exact ofBytes_eq_assignment_iff.2
    ⟨h.not_heads, h.not_comment, before, behind, hs, hbefore, hkey, value_eq_iff.1 rfl⟩

theorem commented_eq (s comment : Bytes) :
    commented s comment = (s ++ [Bytes.space]) ++ numberSign :: comment := by
  simp [commented, ascii, numberSign, Bytes.space]

/-- The comment stands behind the number sign, whatever is trimmed. -/
theorem trimEnd_commented (s comment : Bytes) :
    Bytes.trimEnd (commented s comment) = commented s (Bytes.trimEnd comment) := by
  have hsign : Bytes.trimEnd (numberSign :: comment) = numberSign :: Bytes.trimEnd comment :=
    Bytes.trimEnd_cons_of_not_blank (by decide) comment
  rw [commented_eq, commented_eq, Bytes.trimEnd_append (by simp [hsign]), hsign]

/-- Behind blanks there is nothing but the comment. -/
theorem trim_commented_of_nil (h : Bytes.trim raw = []) (comment : Bytes) :
    Bytes.trim (commented raw comment) = numberSign :: Bytes.trimEnd comment := by
  have hblank : ∀ b ∈ raw ++ [Bytes.space], Bytes.isBlank b = true :=
    List.forall_mem_append.2 ⟨Bytes.isBlank_of_trim_eq_nil h, List.forall_mem_singleton.2 rfl⟩
  rw [commented_eq, Bytes.trim_blanks_append hblank, Bytes.trim_cons_of_not_blank (by decide)]

/-- Blanks at the end of a line are kept in front of the comment. -/
theorem exists_trim_commented (h : Bytes.trim raw ≠ []) (comment : Bytes) :
    ∃ w, (∀ b ∈ w, Bytes.isBlank b = true) ∧
      Bytes.trim (commented raw comment) =
        commented (Bytes.trim raw ++ w) (Bytes.trimEnd comment) := by
  obtain ⟨w, w', hw, hw', hraw⟩ := Bytes.exists_eq_trim raw
  refine ⟨w', hw', ?_⟩
  have hstart : Bytes.trimStart (commented (Bytes.trim raw ++ w') comment) =
      commented (Bytes.trim raw ++ w') comment := by
    apply Bytes.trimStart_eq_self
    intro b hb
    apply @Bytes.head?_trim raw
    simpa [commented, List.head?_append, List.head?_eq_none_iff, h] using hb
  calc Bytes.trim (commented raw comment)
      = Bytes.trim (w ++ commented (Bytes.trim raw ++ w') comment) := by
        conv => lhs; rw [hraw]
        simp [commented]
    _ = Bytes.trimEnd (commented (Bytes.trim raw ++ w') comment) := by
        rw [Bytes.trim_blanks_append hw, Bytes.trim, hstart]
    _ = commented (Bytes.trim raw ++ w') (Bytes.trimEnd comment) := trimEnd_commented _ _

/-- A text with a comment is enclosed by the first byte of the text and the last of the comment. -/
theorem commented_eq_enclosed_iff {first last : UInt8} {s inner : Bytes} (hs : s ≠ [])
    (hlast : last ≠ numberSign) :
    commented s comment = first :: inner ++ [last] ↔
      ∃ t c, s = first :: t ∧ comment = c ++ [last] ∧ inner = commented t c := by
  constructor
  · intro h
    obtain ⟨b, t, rfl⟩ := List.exists_cons_of_ne_nil hs
    obtain ⟨rfl, htail⟩ : b = first ∧ commented t comment = inner ++ [last] := by
      simpa [commented] using h
    rcases List.eq_nil_or_concat' comment with rfl | ⟨c, b', rfl⟩
    · rw [commented_eq] at htail
      exact absurd (List.append_singleton_inj.1 htail).2.symm hlast
    · rw [commented, ← List.append_assoc] at htail
      obtain ⟨rfl, rfl⟩ := List.append_singleton_inj.1 htail
      exact ⟨t, c, rfl, rfl, rfl⟩
  · rintro ⟨t, c, rfl, rfl, rfl⟩
    simp [commented]

theorem exists_enclosed_commented_iff {first last : UInt8} {s : Bytes} (hs : s ≠ [])
    (hlast : last ≠ numberSign) :
    (∃ inner, commented s comment = first :: inner ++ [last]) ↔
      s.head? = some first ∧ comment.getLast? = some last := by
  simp only [commented_eq_enclosed_iff hs hlast]
  rw [List.getLast?_eq_some_iff, List.head?_eq_some_iff]
  constructor
  · rintro ⟨-, t, c, rfl, rfl, -⟩
    exact ⟨⟨t, rfl⟩, c, rfl⟩
  · rintro ⟨⟨t, rfl⟩, c, rfl⟩
    exact ⟨_, t, c, rfl, rfl, rfl⟩

theorem quoted_commented_iff {s : Bytes} (hs : s ≠ []) : Quoted (commented s comment) ↔
    s.head? = some Bytes.quote ∧ comment.getLast? = some Bytes.quote :=
  exists_enclosed_commented_iff hs (by decide)

theorem exists_heads_commented_iff (h : Bytes.trim raw ≠ []) :
    (∃ name, Heads (commented raw comment) name) ↔
      (Bytes.trim raw).head? = some brackets.1 ∧
        (Bytes.trimEnd comment).getLast? = some brackets.2 := by
  obtain ⟨w, -, htrim⟩ := exists_trim_commented h comment
  have hhead : (Bytes.trim raw ++ w).head? = (Bytes.trim raw).head? :=
    List.head?_append_of_ne_nil _ h
  rw [← isEnclosed_brackets_iff, isEnclosed_iff, htrim,
    exists_enclosed_commented_iff (List.append_ne_nil_of_left_ne_nil h w) (by decide), hhead]

/-! ## Values with a comment -/

/-- A text whose last byte does not occur in the second part occurs in the first. -/
theorem infix_of_infix_append {l s w : Bytes} {b : UInt8} (h : l ++ [b] <:+: s ++ w)
    (hb : b ∉ w) : l ++ [b] <:+: s := by
  induction w using List.reverseRecOn with
  | nil => rwa [List.append_nil] at h
  | append_singleton w c ih =>
    rw [List.mem_append, not_or, List.mem_singleton] at hb
    rw [← List.append_assoc, List.infix_concat_iff] at h
    rcases h with ⟨front, h⟩ | h
    · rw [← List.append_assoc] at h
      exact absurd (List.append_singleton_inj.1 h).2 hb.2
    · exact ih h hb.1

theorem not_comment_append {s w : Bytes} (h : ¬ascii " #" <:+: s)
    (hw : ∀ b ∈ w, Bytes.isBlank b = true) : ¬ascii " #" <:+: s ++ w := by
  have hsign : numberSign ∉ w := fun hb => absurd (hw _ hb) (by decide)
  exact fun hc => h (@infix_of_infix_append [Bytes.space] s w numberSign hc hsign)

theorem length_value_le (s : Bytes) : (value s).length ≤ s.length := by
  generalize hv : value s = v
  cases value_eq_iff.1 hv with
  | quoted v =>
    simp only [List.cons_append, List.length_cons, List.length_append]
    omega
  | @commented v c _ _ =>
    have := Bytes.length_trim_le v
    simp only [List.length_append]
    omega
  | bare => exact Bytes.length_trim_le _

theorem Quoted.length_value_lt {s : Bytes} (h : Quoted s) : (value s).length < s.length := by
  obtain ⟨v, rfl⟩ := h
  rw [value_eq_iff.2 (.quoted v), List.cons_append, List.length_cons, List.length_append]
  omega

/-- In quotation marks the comment is a part of the value. -/
theorem lt_length_value_commented {s : Bytes} (hs : s ≠ []) (h : Quoted (commented s comment)) :
    s.length < (value (commented s comment)).length := by
  obtain ⟨inner, hinner⟩ := h
  obtain ⟨t, c, rfl, rfl, rfl⟩ := (commented_eq_enclosed_iff hs (by decide)).1 hinner
  rw [hinner, value_eq_iff.2 (.quoted _)]
  simp [commented, ascii]

/-- Behind a bare text the comment is left out, unless the two together stand in quotation marks. -/
theorem value_commented_of_bare {s : Bytes} (h : ¬ascii " #" <:+: s)
    (hq : ¬Quoted (commented s comment)) : value (commented s comment) = Bytes.trim s :=
  value_eq_iff.2 (.commented hq h)

/-- Behind quotation marks the comment is left out, but the quotation marks become a part of the
value. -/
theorem value_commented_ne_of_quoted {w : Bytes} (hquoted : Quoted text)
    (hw : ∀ b ∈ w, Bytes.isBlank b = true) (hq : ¬Quoted (commented (text ++ w) comment)) :
    value (commented (text ++ w) comment) ≠ value text := by
  intro hv
  by_cases hc : ascii " #" <:+: text
  · -- the comment starts in the quotation marks, with room for a quotation mark behind it
    obtain ⟨p, rest, hp, hfirst⟩ := exists_first_comment hc
    obtain ⟨v, rfl⟩ := hquoted
    have hrest : rest ≠ [] := by
      rintro rfl
      have hend := hp.trans (commented_eq p [])
      exact absurd (List.append_singleton_inj.1 hend).2 (by decide)
    have hsplit : commented (Bytes.quote :: v ++ [Bytes.quote] ++ w) comment =
        commented p (rest ++ w ++ ascii " #" ++ comment) := by
      rw [hp]
      simp [commented]
    rw [hsplit] at hv hq
    rw [value_commented_of_bare hfirst hq, value_eq_iff.2 (.quoted v)] at hv
    have hlen := congrArg List.length hp
    have htrim := Bytes.length_trim_le p
    have hpos := List.length_pos_iff.2 hrest
    simp [ascii, hv] at hlen htrim
    omega
  · -- the comment is left out, and the value is as long as the text
    have hshort := hquoted.length_value_lt
    obtain ⟨v, rfl⟩ := hquoted
    rw [value_commented_of_bare (not_comment_append hc hw) hq, Bytes.trim_append_blanks hw,
      Bytes.trim_enclosed (by decide) (by decide)] at hv
    exact absurd (congrArg List.length hv) (Nat.ne_of_gt hshort)

/-- The value is the same with the comment exactly if it is bare and does not get a second quotation
mark. -/
theorem value_commented_eq_iff {w : Bytes} (htrim : Bytes.trim text = text) (hne : text ≠ [])
    (hbare : Quoted text ∨ ¬ascii " #" <:+: text) (hw : ∀ b ∈ w, Bytes.isBlank b = true) :
    value (commented (text ++ w) comment) = value text ↔
      ¬Quoted text ∧ (text.head? = some Bytes.quote → comment.getLast? ≠ some Bytes.quote) := by
  have hne' : text ++ w ≠ [] := List.append_ne_nil_of_left_ne_nil hne w
  have hhead : (text ++ w).head? = text.head? := List.head?_append_of_ne_nil _ hne
  have hquoted : Quoted (commented (text ++ w) comment) ↔
      text.head? = some Bytes.quote ∧ comment.getLast? = some Bytes.quote := by
    rw [quoted_commented_iff hne', hhead]
  rw [← not_and, ← hquoted]
  by_cases hq : Quoted (commented (text ++ w) comment)
  · have hlong := lt_length_value_commented hne' hq
    have hshort := length_value_le text
    rw [List.length_append] at hlong
    refine iff_of_false (fun hv => ?_) (fun h => h.2 hq)
    rw [hv] at hlong
    omega
  · rcases hbare with hquote | hbare
    · exact iff_of_false (value_commented_ne_of_quoted hquote hw hq) (fun h => h.1 hquote)
    · have hcommented : value (commented (text ++ w) comment) = text := by
        rw [value_commented_of_bare (not_comment_append hbare hw) hq, Bytes.trim_append_blanks hw,
          htrim]
      rw [hcommented]
      constructor
      · intro hv
        exact ⟨fun h => absurd (congrArg List.length hv) (Nat.ne_of_gt h.length_value_lt), hq⟩
      · rintro ⟨hnot, -⟩
        rw [value_eq_iff.2 (.bare hnot hbare), htrim]

/-! ## Lines that say the same with a comment -/

theorem Gives.unique {key' text' : Bytes} (h : Gives raw key text) (h' : Gives raw key' text') :
    key = key' ∧ text = text' := by
  obtain ⟨before, behind, hs, hbefore, rfl, rfl⟩ := h.parts
  obtain ⟨before', behind', hs', hbefore', rfl, rfl⟩ := h'.parts
  have hcut := Bytes.cutAt?_eq_some_iff.2 ⟨hs, hbefore⟩
  rw [Bytes.cutAt?_eq_some_iff.2 ⟨hs', hbefore'⟩] at hcut
  cases hcut
  exact ⟨rfl, rfl⟩

theorem Gives.trim_ne_nil (h : Gives raw key text) : Bytes.trim raw ≠ [] := by
  obtain ⟨before, behind, hs, -⟩ := h.parts
  simp [hs]

theorem Gives.trim_eq (h : Gives raw key text) : Bytes.trim text = text := by
  obtain ⟨_, behind, _, _, _, rfl⟩ := h.parts
  exact Bytes.trim_trim behind

/-- A comment does not change the key, if it does not close a bracket. -/
theorem Gives.exists_commented (h : Gives raw key text)
    (hopen : (Bytes.trim raw).head? = some brackets.1 →
      (Bytes.trimEnd comment).getLast? ≠ some brackets.2) :
    ∃ behind, Bytes.trim behind = text ∧ Gives (commented raw comment) key
      (Bytes.trim (commented behind (Bytes.trimEnd comment))) := by
  obtain ⟨before, behind, hs, hbefore, hkey, rfl⟩ := h.parts
  obtain ⟨w, hw, htrim⟩ := exists_trim_commented h.trim_ne_nil comment
  refine ⟨behind ++ w, Bytes.trim_append_blanks hw behind, ?_, ?_, before, _, ?_, hbefore, hkey,
    rfl⟩
  · intro name hname
    obtain ⟨hfirst, hlast⟩ := (exists_heads_commented_iff h.trim_ne_nil).1 ⟨name, hname⟩
    exact hopen hfirst hlast
  · have hhead : (Bytes.trim (commented raw comment)).head? = (Bytes.trim raw).head? := by
      rw [htrim, commented, List.append_assoc, List.append_assoc,
        List.head?_append_of_ne_nil _ h.trim_ne_nil]
    rw [hhead]
    exact h.not_comment
  · rw [htrim, hs]
    simp [commented]

/-- A comment behind an empty value is the value. -/
theorem value_numberSign_ne_nil (c : Bytes) : value (numberSign :: c) ≠ [] := by
  have hq : ¬isEnclosed Bytes.quote Bytes.quote (numberSign :: c) = true := by
    rw [isEnclosed_iff]
    rintro ⟨inner, h⟩
    exact absurd (List.cons.inj h).1 (by decide)
  have hfirst : ¬(numberSign = Bytes.space ∧ c.head? = some numberSign) :=
    fun h => absurd h.1 (by decide)
  rw [value, if_neg hq, beforeComment, if_neg hfirst, Bytes.trim_cons_of_not_blank (by decide)]
  exact List.cons_ne_nil _ _

theorem Gives.ofBytes_commented_eq_iff (h : Gives raw key text)
    (hbare : Quoted text ∨ ¬ascii " #" <:+: text) :
    ofBytes (commented raw comment) = ofBytes raw ↔ Shielded raw comment key text := by
  rw [h.ofBytes_eq]
  by_cases hopen : (Bytes.trim raw).head? = some brackets.1 →
      (Bytes.trimEnd comment).getLast? ≠ some brackets.2
  · obtain ⟨behind, hbehind, hgives⟩ := h.exists_commented hopen
    rw [hgives.ofBytes_eq, Line.assignment.injEq, and_iff_right rfl]
    by_cases hne : text = []
    · -- the value is empty without the comment, and not with it
      subst hne
      rw [trim_commented_of_nil hbehind]
      exact iff_of_false (value_numberSign_ne_nil _) (fun h => h.ne_nil rfl)
    · obtain ⟨w, hw, htrim⟩ := exists_trim_commented (hbehind ▸ hne) (Bytes.trimEnd comment)
      rw [htrim, hbehind, Bytes.trimEnd_trimEnd, value_commented_eq_iff h.trim_eq hne hbare hw]
      constructor
      · rintro ⟨hquoted, hquote⟩
        exact ⟨h, hquoted, hbare.resolve_left hquoted, hne, hopen, hquote⟩
      · intro hshield
        exact ⟨hshield.not_quoted, hshield.quote⟩
  · -- the brackets are closed, and the line names a table
    refine iff_of_false ?_ (fun hshield => hopen hshield.bracket)
    rw [Classical.not_imp, not_not] at hopen
    obtain ⟨name, hname⟩ := (exists_heads_commented_iff h.trim_ne_nil).2 hopen
    rw [hname.ofBytes_eq]
    exact Line.noConfusion

/-- With a comment behind it, a table's name is another one or none: it has one more number sign. -/
theorem Heads.ofBytes_commented_ne {name : Bytes} (h : Heads raw name) (comment : Bytes) :
    ofBytes (commented raw comment) ≠ ofBytes raw := by
  rw [h.ofBytes_eq, Ne, ofBytes_eq_table_iff]
  rintro ⟨inner', hs', hname'⟩
  obtain ⟨inner, hs, hname⟩ := h
  have hne : Bytes.trim raw ≠ [] := by simp [hs]
  obtain ⟨w, -, htrim⟩ := exists_trim_commented hne comment
  obtain ⟨t, c, ht, -, hinner'⟩ := (commented_eq_enclosed_iff
    (List.append_ne_nil_of_left_ne_nil hne w) (by decide)).1 (htrim.symm.trans hs')
  obtain rfl : inner ++ [brackets.2] ++ w = t := by simpa [hs] using ht
  have hcount := congrArg (List.count numberSign) (hname.symm.trans hname')
  rw [Bytes.count_trim (by decide), Bytes.count_trim (by decide), hinner', commented_eq] at hcount
  simp only [List.count_append, List.count_cons_self] at hcount
  omega

/-- Where a comment can be put, it is left out exactly if the line is shielded from it. -/
theorem Commentable.ofBytes_commented_eq_iff (h : Commentable raw) (comment : Bytes) :
    ofBytes (commented raw comment) = ofBytes raw ↔ ∃ key text, Shielded raw comment key text := by
  have hgiven {key text : Bytes} (hgives : Gives raw key text)
      (hbare : Quoted text ∨ ¬ascii " #" <:+: text) :
      ofBytes (commented raw comment) = ofBytes raw ↔
        ∃ key text, Shielded raw comment key text := by
    rw [hgives.ofBytes_commented_eq_iff hbare]
    constructor
    · exact fun hshield => ⟨key, text, hshield⟩
    · rintro ⟨key', text', hshield⟩
      obtain ⟨rfl, rfl⟩ := hgives.unique hshield.gives
      exact hshield
  cases h with
  | named hname =>
    refine iff_of_false (hname.ofBytes_commented_ne comment) ?_
    rintro ⟨key, text, h⟩
    exact h.gives.not_heads _ hname
  | quoted hgives hquoted => exact hgiven hgives (.inl hquoted)
  | bare hgives _ hbare => exact hgiven hgives (.inr hbare)

end

end Line

namespace Document

/-! ## Lines that can be exchanged -/

section
variable {l l' : Bytes}

/-- The one line in the place of the other one is never noticed, in no document. -/
def Exchangeable (l l' : Bytes) : Prop :=
  ∀ front back, Bytes.StartsLine front → Bytes.EndsLine back →
    SameAnswers (parse (front ++ l ++ back)) (parse (front ++ l' ++ back))

theorem Exchangeable.symm (h : Exchangeable l l') : Exchangeable l' l :=
  fun front back hfront hback => (h front back hfront hback).symm

theorem parse_line (hl : Bytes.newline ∉ l) :
    parse ([] ++ l ++ []) = empty.readLines [] [Line.ofBytes l] := by
  rw [List.nil_append, List.append_nil, parse, reread, Bytes.lines_eq_singleton hl]
  rfl

/-- An assignment is seen where there is nothing else. -/
theorem Exchangeable.assignment {key v : Bytes} (h : Exchangeable l l') (hl : Bytes.newline ∉ l)
    (hl' : Bytes.newline ∉ l') (hread : Line.ofBytes l = .assignment key v) :
    Line.ofBytes l' = .assignment key v := by
  have hsame := h [] [] (.inl rfl) (.inl rfl)
  rw [parse_line hl, parse_line hl', hread] at hsame
  have hhas := hsame.has [] key
  have hstring := hsame.string [] key []
  cases hl' : Line.ofBytes l' with
  | nothing => simp [hl', readLines, has, get?_assign] at hhas
  | table name => simp [hl', readLines, has, get?_assign] at hhas
  | assignment k w =>
    by_cases hk : k = key
    · subst hk
      have hv : v = w := by simpa [hl', readLines, string, get?_assign] using hstring
      rw [hv]
    · simp [hl', readLines, has, get?_assign, hk] at hhas

/-- Below the header of another table and above a key. -/
theorem parse_between {header : Bytes} (hheader : Bytes.newline ∉ header)
    (hl : Bytes.newline ∉ l) :
    parse (header ++ [Bytes.newline] ++ l ++ Bytes.newline :: ascii "=") =
      empty.readLines [] [Line.ofBytes header, Line.ofBytes l, .assignment [] []] := by
  have hkey : Bytes.lines (ascii "=") = [ascii "="] := Bytes.lines_eq_singleton (by decide)
  have hread : Line.ofBytes (ascii "=") = .assignment [] [] := by decide
  rw [parse, reread, List.append_assoc, List.append_assoc, List.singleton_append,
    Bytes.lines_append_newline, Bytes.lines_append_newline, Bytes.lines_eq_singleton hheader,
    Bytes.lines_eq_singleton hl, hkey, ← hread]
  rfl

theorem exists_header_ne (name : Bytes) : ∃ header other,
    Bytes.newline ∉ header ∧ Line.ofBytes header = .table other ∧ other ≠ name := by
  by_cases hname : name = []
  · exact ⟨ascii "[a]", ascii "a", by decide, by decide, by simp [hname, ascii]⟩
  · exact ⟨ascii "[]", [], by decide, by decide, Ne.symm hname⟩

/-- The name of a table is seen by a key below it, if the table in front has another name. -/
theorem Exchangeable.table {name : Bytes} (h : Exchangeable l l') (hl : Bytes.newline ∉ l)
    (hl' : Bytes.newline ∉ l') (hread : Line.ofBytes l = .table name) :
    Line.ofBytes l' = .table name := by
  obtain ⟨header, other, hheader, hother, hne⟩ := exists_header_ne name
  have hsame := h (header ++ [Bytes.newline]) (Bytes.newline :: ascii "=") (.inr ⟨_, rfl⟩)
    (.inr ⟨_, rfl⟩)
  rw [parse_between hheader hl, parse_between hheader hl', hread, hother] at hsame
  have hhas := hsame.has name []
  cases hl' : Line.ofBytes l' with
  | nothing => simp [hl', readLines, has, get?_assign, hne] at hhas
  | assignment k w => simp [hl', readLines, has, get?_assign, hne] at hhas
  | table name' =>
    have hname : name' = name := by simpa [hl', readLines, has, get?_assign] using hhas
    rw [hname]

/-- Lines can be exchanged exactly if they say the same. -/
theorem exchangeable_iff (hl : Bytes.newline ∉ l) (hl' : Bytes.newline ∉ l') :
    Exchangeable l l' ↔ Line.ofBytes l = Line.ofBytes l' := by
  constructor
  · intro h
    cases hread : Line.ofBytes l with
    | nothing =>
      cases hread' : Line.ofBytes l' with
      | nothing => rfl
      | table name =>
        rw [h.symm.table hl' hl hread'] at hread
        cases hread
      | assignment key v =>
        rw [h.symm.assignment hl' hl hread'] at hread
        cases hread
    | table name => exact (h.table hl hl' hread).symm
    | assignment key v => exact (h.assignment hl hl' hread).symm
  · intro h front back hfront hback
    exact .of_eq (parse_eq_of_statements (statements_around hfront hback hl hl' h))

end

/-! ## Main statement -/

/-- **A comment is left out behind a bare value only.**  Behind a line that a comment can be put
behind, it is noticed in no document exactly if the line is shielded from it. -/
theorem exchangeable_commented_iff {raw comment : Bytes} (h : Line.Commentable raw)
    (hraw : Bytes.newline ∉ raw) (hcomment : Bytes.newline ∉ comment) :
    Exchangeable raw (Line.commented raw comment) ↔
      ∃ key text, Line.Shielded raw comment key text := by
  have hcommented : Bytes.newline ∉ Line.commented raw comment :=
    List.not_mem_append (List.not_mem_append hraw (by decide)) hcomment
  rw [exchangeable_iff hraw hcommented, eq_comm, h.ofBytes_commented_eq_iff]

/-- A quotation mark that is not closed: one comment is left out, and another one closes it. -/
theorem exchangeable_commented_iff_open_quotation_mark :
    let raw := ascii "[k = \"v"
    Line.Commentable raw ∧ Exchangeable raw (Line.commented raw (ascii " ok")) ∧
      ¬Exchangeable raw (Line.commented raw (ascii " \"")) := by
  intro raw
  have hgives : Line.Gives raw (ascii "[k") (ascii "\"v") := by
    refine ⟨?_, by decide, ascii "[k ", ascii " \"v", by decide, by decide, by decide, by decide⟩
    intro name hname
    exact absurd (Line.isEnclosed_brackets_iff.2 ⟨name, hname⟩) (by decide)
  have hquoted : ¬Line.Quoted (ascii "\"v") := by
    rw [← Line.isEnclosed_quote_iff]
    decide
  have h : Line.Commentable raw := .bare hgives hquoted (by decide)
  refine ⟨h, ?_, ?_⟩
  · rw [exchangeable_commented_iff h (by decide) (by decide)]
    exact ⟨_, _, hgives, hquoted, by decide, by decide, by decide, by decide⟩
  · rw [exchangeable_commented_iff h (by decide) (by decide)]
    rintro ⟨key, text, hshield⟩
    obtain ⟨rfl, rfl⟩ := hgives.unique hshield.gives
    exact hshield.quote (by decide) (by decide)

/-- The name of a table is not found with a comment behind it, and a key below it is lost. -/
theorem not_exchangeable_commented : ¬∀ raw comment, Line.Commentable raw →
    Bytes.newline ∉ raw → Bytes.newline ∉ comment →
    Exchangeable raw (Line.commented raw comment) := by
  intro h
  have hheads : Line.Heads (ascii "[engine]") (ascii "engine") :=
    ⟨ascii "engine", by decide, by decide⟩
  have hsame := h _ (ascii " limits") (.named hheads) (by decide) (by decide) []
    (ascii "\nmax_steps = 5") (.inl rfl) (.inr ⟨_, rfl⟩)
  have hhas := hsame.has (ascii "engine") (ascii "max_steps")
  exact absurd hhas (by decide +kernel)

end Document

end SweepRegex
