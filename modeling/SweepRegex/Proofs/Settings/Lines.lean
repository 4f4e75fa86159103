import SweepRegex.Settings.Document

/-!
# What a line of a settings document says

The grammar of lines, without a reader.  It looks at a line without the blanks around it.  A line
in square brackets names a table (`Heads`).  Any other line that does not start with a number sign
and has an equals sign assigns a value to a key (`Assigns`), and what is written for the value is
taken as it stands between quotation marks, or else up to a comment (`Writes`).

    Line.ofBytes raw = .table name ↔ Heads raw name                    (ofBytes_eq_table_iff)
    Line.ofBytes raw = .assignment key v ↔ Assigns raw key v           (ofBytes_eq_assignment_iff)
-/

namespace SweepRegex.Line

/-! ## Grammar -/

/-- The line names this table: it stands in square brackets, with or without blanks around it. -/
def Heads (raw name : Bytes) : Prop :=
  ∃ inner, Bytes.trim raw = brackets.1 :: inner ++ [brackets.2] ∧ name = Bytes.trim inner

/-- The text stands in quotation marks, one at either end. -/
def Quoted (s : Bytes) : Prop := ∃ v, s = Bytes.quote :: v ++ [Bytes.quote]

/-- The value that is written by a text without blanks around it. -/
inductive Writes : Bytes → Bytes → Prop where
  /-- All between the quotation marks is the value, whatever it is. -/
  | quoted (v : Bytes) : Writes (Bytes.quote :: v ++ [Bytes.quote]) v
  /-- The value ends in front of the first number sign that follows a space. -/
  | commented {v comment : Bytes} : ¬Quoted (v ++ ascii " #" ++ comment) → ¬ascii " #" <:+: v →
      Writes (v ++ ascii " #" ++ comment) (Bytes.trim v)
  /-- There is no comment. -/
  | bare {s : Bytes} : ¬Quoted s → ¬ascii " #" <:+: s → Writes s (Bytes.trim s)

/-- The line assigns this value to this key: it names no table and is no comment, the key stands in
front of its first equals sign and the value behind. -/
structure Assigns (raw key value : Bytes) : Prop where
  not_heads : ∀ name, ¬Heads raw name
  not_comment : (Bytes.trim raw).head? ≠ some numberSign
  parts : ∃ before behind, Bytes.trim raw = before ++ equalsSign :: behind ∧
    equalsSign ∉ before ∧ key = Bytes.trim before ∧ Writes (Bytes.trim behind) value

/-! ## Texts with a first and a last byte -/

theorem isEnclosed_iff {first last : UInt8} {s : Bytes} :
    isEnclosed first last s = true ↔ ∃ inner, s = first :: inner ++ [last] := by
  constructor
  · intro h
    simp only [isEnclosed, Bool.and_eq_true, decide_eq_true_eq, beq_iff_eq] at h
    obtain ⟨⟨hlen, hfirst⟩, hlast⟩ := h
    cases s with
    | nil => cases hfirst
    | cons b t =>
      cases hfirst
      have ht : t ≠ [] := by
        rintro rfl
        simp at hlen
      have hlast' : t.getLast ht = last := by
        rw [List.getLast?_eq_some_getLast (by simp), List.getLast_cons ht] at hlast
        exact Option.some.inj hlast
      exact ⟨t.dropLast, by rw [← hlast', List.cons_append, List.dropLast_concat_getLast ht]⟩
  · rintro ⟨inner, rfl⟩
    have hlast : (first :: inner ++ [last]).getLast? = some last := List.getLast?_concat
    simp only [isEnclosed, hlast]
    simp

@[simp] theorem inside_cons_append (first last : UInt8) (inner : Bytes) :
    inside (first :: inner ++ [last]) = inner := by
  simp [inside]

theorem isEnclosed_quote_iff {s : Bytes} :
    isEnclosed Bytes.quote Bytes.quote s = true ↔ Quoted s := isEnclosed_iff

/-! ## Comments -/

/-- Where a comment starts at the front of a text. -/
theorem comment_prefix_iff {b : UInt8} {s : Bytes} :
    ascii " #" <+: b :: s ↔ b = Bytes.space ∧ s.head? = some numberSign := by
  have h : ascii " #" = [Bytes.space, numberSign] := rfl
  cases s with
  | nil => simp [h, List.cons_prefix_cons]
  | cons c s => simp [h, List.cons_prefix_cons, eq_comm]

theorem beforeComment_eq_self {s : Bytes} (h : ¬ascii " #" <:+: s) : beforeComment s = s := by
  induction s with
  | nil => rfl
  | cons b s ih =>
    rw [List.infix_cons_iff, comment_prefix_iff, not_or] at h
    rw [beforeComment, if_neg h.1, ih h.2]

theorem beforeComment_append {v : Bytes} (h : ¬ascii " #" <:+: v) (comment : Bytes) :
    beforeComment (v ++ ascii " #" ++ comment) = v := by
  induction v with
  | nil => rfl
  | cons b v ih =>
    rw [List.infix_cons_iff, comment_prefix_iff, not_or] at h
    -- the byte behind `b` is that of `v`, or the space in front of the comment
    have hhead : ¬(b = Bytes.space ∧ (v ++ ascii " #" ++ comment).head? = some numberSign) := by
      rintro ⟨hb, hv⟩
      cases v with
      | nil => exact absurd (Option.some.inj hv) (by decide : Bytes.space ≠ numberSign)
      | cons c v => exact h.1 ⟨hb, hv⟩
    rw [List.cons_append, List.cons_append, beforeComment, if_neg hhead, ih h.2]

/-- A text with comments has a first one. -/
theorem exists_first_comment {s : Bytes} (h : ascii " #" <:+: s) :
    ∃ v comment, s = v ++ ascii " #" ++ comment ∧ ¬ascii " #" <:+: v := by
  induction s with
  | nil => simp [ascii] at h
  | cons b s ih =>
    by_cases hp : ascii " #" <+: b :: s
    · obtain ⟨comment, hc⟩ := hp
      exact ⟨[], comment, hc.symm, by simp [ascii]⟩
    · obtain ⟨v, comment, rfl, hv⟩ := ih ((List.infix_cons_iff.1 h).resolve_left hp)
      refine ⟨b :: v, comment, rfl, ?_⟩
      rw [List.infix_cons_iff, not_or]
      refine ⟨fun hbv => hp ?_, hv⟩
      rw [List.append_assoc, ← List.cons_append]
      exact hbv.trans (List.prefix_append _ _)

/-! ## The reader of lines -/

/-- The reader of values finds what the grammar says. -/
theorem value_eq_iff {s v : Bytes} : value s = v ↔ Writes s v := by
  constructor
  · rintro rfl
    rw [value]
    split
    · next hq =>
      obtain ⟨v, rfl⟩ := isEnclosed_iff.1 hq
      rw [inside_cons_append]
      exact .quoted v
    · next hq =>
      rw [isEnclosed_quote_iff] at hq
      by_cases hc : ascii " #" <:+: s
      · obtain ⟨v, comment, rfl, hv⟩ := exists_first_comment hc
        rw [beforeComment_append hv]
        exact .commented hq hv
      · rw [beforeComment_eq_self hc]
        exact .bare hq hc
  · intro h
    cases h with
    | quoted v => rw [value, if_pos (isEnclosed_iff.2 ⟨v, rfl⟩), inside_cons_append]
    | commented hq hv =>
      rw [value, if_neg (mt isEnclosed_quote_iff.1 hq), beforeComment_append hv]
    | bare hq hc =>
      rw [value, if_neg (mt isEnclosed_quote_iff.1 hq), beforeComment_eq_self hc]

theorem Heads.not_comment {raw name : Bytes} (h : Heads raw name) :
    (Bytes.trim raw).head? ≠ some numberSign := by
  obtain ⟨inner, hs, -⟩ := h
  rw [hs]
  exact (by decide : some brackets.1 ≠ some numberSign)

theorem isEnclosed_brackets_iff {raw : Bytes} :
    isEnclosed brackets.1 brackets.2 (Bytes.trim raw) = true ↔ ∃ name, Heads raw name := by
  rw [isEnclosed_iff]
  constructor
  · rintro ⟨inner, h⟩
    exact ⟨_, inner, h, rfl⟩
  · rintro ⟨_, inner, h, -⟩
    exact ⟨inner, h⟩

/-- A line that names a table is read as naming it. -/
theorem Heads.ofBytes_eq {raw name : Bytes} (h : Heads raw name) : ofBytes raw = .table name := by
  have henclosed := isEnclosed_brackets_iff.2 ⟨name, h⟩
  have hcomment := h.not_comment
  obtain ⟨inner, hs, rfl⟩ := h
  simp only [ofBytes, if_neg hcomment, if_pos henclosed]
  rw [hs, inside_cons_append]

theorem ofBytes_eq_table_iff {raw name : Bytes} : ofBytes raw = .table name ↔ Heads raw name := by
  refine ⟨fun h => ?_, Heads.ofBytes_eq⟩
  simp only [ofBytes] at h
  split at h
  · cases h
  · split at h
    · next henclosed =>
      obtain ⟨inner, hs⟩ := isEnclosed_iff.1 henclosed
      rw [hs, inside_cons_append] at h
      cases h
      exact ⟨inner, hs, rfl⟩
    · split at h <;> cases h

theorem ofBytes_eq_assignment_iff {raw key v : Bytes} :
    ofBytes raw = .assignment key v ↔ Assigns raw key v := by
  constructor
  · intro h
    have hheads : ∀ name, ¬Heads raw name := by
      intro name hname
      rw [hname.ofBytes_eq] at h
      cases h
    simp only [ofBytes] at h
    split at h
    · cases h
    · next hcomment =>
      split at h
      · cases h
      · split at h
        · cases h
        · next before behind hcut =>
          obtain ⟨hs, hbefore⟩ := Bytes.cutAt?_eq_some_iff.1 hcut
          cases h
          exact ⟨hheads, hcomment, before, behind, hs, hbefore, rfl, value_eq_iff.1 rfl⟩
  · intro h
    obtain ⟨before, behind, hs, hbefore, rfl, hv⟩ := h.parts
    have henclosed : ¬isEnclosed brackets.1 brackets.2 (Bytes.trim raw) = true := by
      rw [isEnclosed_brackets_iff]
      rintro ⟨name, hname⟩
      exact h.not_heads name hname
    have hcut : Bytes.cutAt? equalsSign (Bytes.trim raw) = some (before, behind) :=
      Bytes.cutAt?_eq_some_iff.2 ⟨hs, hbefore⟩
    simp only [ofBytes, if_neg h.not_comment, if_neg henclosed, hcut, value_eq_iff.2 hv]

end SweepRegex.Line
