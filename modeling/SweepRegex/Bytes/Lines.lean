import SweepRegex.Bytes

/-!
# Lines

A text is written line by line, with a line feed behind each line.  Splitting at line feeds gives
the lines back, if none of them holds one, and an empty line behind the last line feed.

    lines (unlines ls) = ls ++ [[]]                                          (lines_unlines)

A line can also be looked at in its text: what stands in front is empty or ends in a line feed
(`StartsLine`), and what stands behind is empty or begins with one (`EndsLine`).
-/

namespace SweepRegex.Bytes

/-- The text of some lines, each with a line feed behind it. -/
def unlines (ls : List Bytes) : Bytes := (ls.map (· ++ [newline])).flatten

/-- A line starts behind this text. -/
def StartsLine (front : Bytes) : Prop := front = [] ∨ ∃ s, front = s ++ [newline]

/-- A line ends in front of this text. -/
def EndsLine (back : Bytes) : Prop := back = [] ∨ ∃ s, back = newline :: s

/-! ## Lemmas -/

theorem unlines_cons (l : Bytes) (ls : List Bytes) :
    unlines (l :: ls) = l ++ newline :: unlines ls := by
  simp [unlines]

theorem mem_unlines {ls : List Bytes} {b : UInt8} (h : b ∈ unlines ls) :
    (∃ l ∈ ls, b ∈ l) ∨ b = newline := by
  rw [unlines, ← List.flatMap_def] at h
  obtain ⟨l, hl, hb⟩ := List.mem_flatMap.1 h
  rcases List.mem_append.1 hb with hb | hb
  · exact .inl ⟨l, hl, hb⟩
  · exact .inr (List.mem_singleton.1 hb)

/-- A line feed is between two lines. -/
theorem lines_append_newline (s rest : Bytes) :
    lines (s ++ newline :: rest) = lines s ++ lines rest := by
  simp only [lines, List.splitOn_eq_splitOnP]
  exact List.splitOnP_append_cons s rest (beq_self_eq_true newline)

theorem lines_eq_singleton {l : Bytes} (h : newline ∉ l) : lines l = [l] := by
  rw [lines, List.splitOn_eq_splitOnP]
  apply List.splitOnP_eq_singleton
  intro b hb
  rw [beq_eq_false_iff_ne]
  rintro rfl
  exact h hb

/-- The lines in front of a line do not depend on it, nor on what stands behind. -/
theorem exists_lines_append {front : Bytes} (h : StartsLine front) :
    ∃ before, ∀ s, lines (front ++ s) = before ++ lines s := by
  rcases h with rfl | ⟨t, rfl⟩
  · exact ⟨[], fun s => rfl⟩
  · refine ⟨lines t, fun s => ?_⟩
    rw [List.append_assoc, List.singleton_append, lines_append_newline]

/-- The lines around a line do not depend on it. -/
theorem exists_lines_around {front back : Bytes} (hfront : StartsLine front)
    (hback : EndsLine back) :
    ∃ before behind, ∀ l, newline ∉ l → lines (front ++ l ++ back) = before ++ l :: behind := by
  obtain ⟨before, hbefore⟩ := exists_lines_append hfront
  rcases hback with rfl | ⟨t, rfl⟩
  · refine ⟨before, [], fun l hl => ?_⟩
    rw [List.append_nil, hbefore, lines_eq_singleton hl]
  · refine ⟨before, lines t, fun l hl => ?_⟩
    rw [List.append_assoc, hbefore, lines_append_newline, lines_eq_singleton hl]
    rfl

/-- Lines are read back as they were written. -/
theorem lines_unlines {ls : List Bytes} (h : ∀ l ∈ ls, newline ∉ l) :
    lines (unlines ls) = ls ++ [[]] := by
  induction ls with
  | nil => rfl
  | cons l ls ih =>
    obtain ⟨hl, hls⟩ := List.forall_mem_cons.1 h
    rw [unlines_cons, lines_append_newline, lines_eq_singleton hl, ih hls]
    rfl

/-- The last line may do without its line feed. -/
theorem lines_of_append_newline {s : Bytes} {ls : List Bytes} (h : ∀ l ∈ ls, newline ∉ l)
    (hs : s ++ [newline] = unlines ls) : lines s = ls := by
  have hlines := lines_unlines h
  rw [← hs, lines_append_newline] at hlines
  exact List.append_cancel_right hlines

end SweepRegex.Bytes
