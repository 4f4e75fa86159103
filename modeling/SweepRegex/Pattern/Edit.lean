import SweepRegex.Pattern.Emitter

/-!
# Editing the code in place

The code of a pattern is kept in one buffer, and it is changed in three ways: an instruction is
appended, a place is overwritten, or the instruction at a place is moved into the next one, with
its targets one place up.  An instruction is put in front of others by the three together.  The
buffer gets one more place at its end, the instructions are moved one by one, the last one first,
and the place that is left is overwritten (`Edit.insertion`).

Nothing is taken on trust here: where a place is outside the buffer, there is no result.

Main statement: `performAll?_edits` says that the edits of a symbol carry out what the emitter does
with it.
-/

namespace SweepRegex

/-- One change of the code buffer. -/
inductive Edit where
  /-- Append an instruction. -/
  | push (i : Instr)
  /-- Overwrite a place. -/
  | write (place : Nat) (i : Instr)
  /-- Move the instruction at a place into the next one. -/
  | moveUp (place : Nat)
deriving DecidableEq

namespace Edit

/-! ## Algorithm -/

/-- The buffer after a change, unless the change is outside. -/
def perform? (code : Array Instr) : Edit → Option (Array Instr)
  | .push i => some (code.push i)
  | .write place i => if h : place < code.size then some (code.set place i) else none
  | .moveUp place =>
    if h : place + 1 < code.size then some (code.set (place + 1) (code[place].relocate 1)) else none

/-- The buffer after some changes, one after the other. -/
def performAll? (code : Array Instr) (edits : List Edit) : Option (Array Instr) :=
  edits.foldlM perform? code

/-- Moves everything from `mark` on, up to the place before `hole`, which is free to begin with. -/
def moves (mark : Nat) : Nat → List Edit
  | 0 => []
  | hole + 1 => if mark < hole + 1 then .moveUp hole :: moves mark hole else []

/-- Puts an instruction in front of everything from `mark` on, in a buffer of the given size. -/
def insertion (mark size : Nat) (i : Instr) : List Edit :=
  .push .accept :: moves mark size ++ [.write mark i]

end Edit

/-- The changes of the code that are made for a symbol, if the emitter takes it. -/
def Emitter.edits (e : Emitter) : Symbol → List Edit
  | .literal b => [.push (.byte b)]
  | .any => [.push .any]
  | .groupOpen | .groupClose => []
  | .plus => [.push (.split e.level.mark (e.code.size + 1))]
  | .star =>
    Edit.insertion e.level.mark e.code.size (.split (e.level.mark + 1) (e.code.size + 2)) ++
      [.push (.jump e.level.mark)]
  | .bar => Edit.insertion e.level.mark e.code.size (.split (e.level.mark + 1) (e.code.size + 1))

/-! ## Lemmas -/

namespace Edit

theorem performAll?_cons (code : Array Instr) (edit : Edit) (edits : List Edit) :
    performAll? code (edit :: edits) = (edit.perform? code).bind (performAll? · edits) := rfl

theorem performAll?_append (code : Array Instr) (edits more : List Edit) :
    performAll? code (edits ++ more) = (performAll? code edits).bind (performAll? · more) :=
  List.foldlM_append

/-- The buffer never gets shorter. -/
theorem size_le_of_perform? {code code' : Array Instr} {edit : Edit}
    (h : edit.perform? code = some code') : code.size ≤ code'.size := by
  cases edit with
  | push i =>
    cases h
    simp
  | write place i =>
    rw [perform?] at h
    split at h
    · cases h
      simp
    · cases h
  | moveUp place =>
    rw [perform?] at h
    split at h
    · cases h
      simp
    · cases h

theorem size_le_of_performAll? {code code' : Array Instr} {edits : List Edit}
    (h : performAll? code edits = some code') : code.size ≤ code'.size := by
  induction edits generalizing code with
  | nil =>
    cases h
    exact Nat.le_refl _
  | cons edit edits ih =>
    rw [performAll?_cons] at h
    obtain ⟨code₁, h₁, h⟩ := Option.bind_eq_some_iff.1 h
    exact Nat.le_trans (size_le_of_perform? h₁) (ih h)

/-- A place between two parts of the buffer is overwritten. -/
theorem perform?_write {code : Array Instr} {settled moved : List Instr} {x : Instr}
    (h : code.toList = settled ++ x :: moved) (i : Instr) :
    ∃ code', perform? code (.write settled.length i) = some code' ∧
      code'.toList = settled ++ i :: moved := by
  have hlt : settled.length < code.size := by
    rw [← Array.length_toList, h]
    simp
  refine ⟨code.set settled.length i, by rw [perform?, dif_pos hlt], ?_⟩
  rw [Array.toList_set, h, List.set_append_right _ _ (Nat.le_refl _), Nat.sub_self, List.set_cons_zero]

/-- The instruction in front of a place takes it. -/
theorem perform?_moveUp {code : Array Instr} {settled moved : List Instr} {i x : Instr}
    (h : code.toList = settled ++ i :: x :: moved) :
    ∃ code', perform? code (.moveUp settled.length) = some code' ∧
      code'.toList = settled ++ i :: i.relocate 1 :: moved := by
  have hlt : settled.length + 1 < code.size := by
    rw [← Array.length_toList, h]
    simp
  have hi : code[settled.length] = i := by
    rw [← Array.getElem_toList]
    simp [h]
  refine ⟨code.set (settled.length + 1) (i.relocate 1), by rw [perform?, dif_pos hlt, hi], ?_⟩
  have hplace : settled.length + 1 - settled.length = 1 := Nat.add_sub_cancel_left ..
  rw [Array.toList_set, h, List.set_append_right _ _ (Nat.le_add_right _ 1), hplace]
  rfl

/-- The moves leave what stands in front of the mark alone and relocate everything behind it.  What
is left at the mark does not matter. -/
theorem performAll?_moves {mark hole : Nat} {code : Array Instr} {settled moved : List Instr}
    {x : Instr} (h : code.toList = settled ++ x :: moved) (hhole : settled.length = hole)
    (hmark : mark ≤ hole) :
    ∃ code' y, performAll? code (moves mark hole) = some code' ∧
      code'.toList =
        settled.take mark ++ y :: ((settled.drop mark).map (Instr.relocate 1) ++ moved) := by
  -- with every move the hole comes down by one place, until it is at the mark
  induction hole generalizing code settled moved x with
  | zero =>
    obtain rfl : mark = 0 := Nat.le_zero.1 hmark
    obtain rfl : settled = [] := List.length_eq_zero_iff.1 hhole
    exact ⟨code, x, rfl, h⟩
  | succ hole ih =>
    rw [moves]
    by_cases hlt : mark < hole + 1
    · obtain rfl | ⟨settled, i, rfl⟩ := List.eq_nil_or_concat settled
      · cases hhole
      rw [List.concat_eq_append] at h hhole ⊢
      have hlen : settled.length = hole := by simpa using hhole
      have hle : mark ≤ hole := Nat.le_of_lt_succ hlt
      obtain ⟨code₁, h₁, hcode₁⟩ := perform?_moveUp (by simpa using h)
      obtain ⟨code', y, hmoves, hcode'⟩ := ih hcode₁ hlen hle
      refine ⟨code', y, ?_, ?_⟩
      · rw [if_pos hlt, performAll?_cons, ← hlen, h₁, hlen]
        exact hmoves
      · rw [← hlen] at hle
        rw [hcode', List.take_append_of_le_length hle, List.drop_append_of_le_length hle]
        simp
    · refine ⟨code, x, by rw [if_neg hlt]; rfl, ?_⟩
      rw [List.take_of_length_le (by omega), List.drop_of_length_le (by omega)]
      exact h

/-- Moving and overwriting amount to an insertion. -/
theorem performAll?_insertion {code : Array Instr} {mark : Nat} (h : mark ≤ code.size) (i : Instr) :
    performAll? code (insertion mark code.size i) = some (Emitter.insertAt code mark i) := by
  have hpush : (code.push .accept).toList = code.toList ++ .accept :: [] := by simp
  obtain ⟨code₁, y, hmoves, hcode₁⟩ := performAll?_moves hpush (Array.length_toList ..) h
  obtain ⟨code₂, hwrite, hcode₂⟩ := perform?_write hcode₁ i
  have hlen : (code.toList.take mark).length = mark := by
    rw [List.length_take, Array.length_toList]
    exact Nat.min_eq_left h
  rw [hlen] at hwrite
  have hall : performAll? code (insertion mark code.size i) = some code₂ := by
    rw [insertion, List.cons_append, performAll?_cons]
    show performAll? (code.push .accept) (moves mark code.size ++ [.write mark i]) = some code₂
    rw [performAll?_append, hmoves, Option.bind_some, performAll?_cons, hwrite]
    rfl
  rw [hall, Option.some.injEq]
  apply Array.toList_inj.1
  rw [hcode₂, Emitter.toList_insertAt, List.append_nil]

/-- A loop is moved with its branches. -/
example :
    performAll? #[.byte 97, .byte 98, .split 1 3] (insertion 1 3 (.split 2 5)) =
      some #[.byte 97, .split 2 5, .byte 98, .split 2 4] := by
  decide

end Edit

/-- The edits of a symbol carry out what the emitter does with it. -/
theorem Emitter.performAll?_edits {e e' : Emitter} {x : Symbol} (h : e.feed x = .ok e')
    (hmark : e.level.mark ≤ e.code.size) :
    Edit.performAll? e.code (e.edits x) = some e'.code := by
  cases x with
  | literal b => cases h; rfl
  | any => cases h; rfl
  | groupOpen =>
    simp only [feed, openGroup] at h
    split at h
    · cases h; rfl
    · cases h
  | groupClose =>
    simp only [feed, closeGroup] at h
    split at h
    · cases h
    · cases h; rfl
  | plus =>
    simp only [feed, plus] at h
    split at h
    · cases h; rfl
    · cases h
  | star =>
    simp only [feed, star] at h
    split at h
    · cases h
      rw [edits, Edit.performAll?_append, Edit.performAll?_insertion hmark]
      rfl
    · cases h
  | bar =>
    simp only [feed, bar] at h
    split at h
    · cases h
      exact Edit.performAll?_insertion hmark _
    · cases h

end SweepRegex
