import SweepRegex.Proofs.Pattern.Sizes

/-!
# Blocks of the code

The marks of the open levels cut the code into blocks, each of which reaches to the end of the code.
No branch leads across a mark (`Cuts`).  From in front of it a branch leads to the mark at most, which
is into the block as a whole, and from inside the block it leads to the mark at least.  This is so
between any two symbols of a pattern (`Orderly`).

So a block is moved by relocating what is in it and nothing else.  A branch then leads to the
instruction to which it led before, or to the new one in front of the block if it led into the block
from outside (`shiftTarget`), and that is as far away as before.

    Reaches pattern offset e → ∀ m ∈ e.marks, Cuts e.code m e.code.size      (blocks_of_reaches)
-/

namespace SweepRegex

/-! ## Cuts -/

/-- No branch of the code leads across the mark, and none behind it leads past the last place. -/
structure Cuts (code : Array Instr) (mark last : Nat) : Prop where
  before : ∀ pc i, code[pc]? = some i → pc < mark → ∀ t ∈ i.targets, t ≤ mark
  behind : ∀ pc i, code[pc]? = some i → mark ≤ pc → ∀ t ∈ i.targets, mark ≤ t ∧ t ≤ last

namespace Cuts

variable {code : Array Instr} {mark last : Nat}

theorem lt_of_getElem? {pc : Nat} {i : Instr} (h : code[pc]? = some i) : pc < code.size :=
  (Array.getElem?_eq_some_iff.1 h).1

/-- The end of the code is a mark as good as any. -/
theorem atEnd (h : Cuts code mark code.size) (hmark : mark ≤ code.size) (last : Nat) :
    Cuts code code.size last where
  before pc i hi _ t ht := by
    by_cases hpc : pc < mark
    · exact Nat.le_trans (h.before pc i hi hpc t ht) hmark
    · exact (h.behind pc i hi (Nat.le_of_not_lt hpc) t ht).2
  behind pc i hi hpc := absurd (lt_of_getElem? hi) (Nat.not_lt.2 hpc)

/-- An instruction behind the code. -/
theorem push {i : Instr} {last' : Nat} (h : Cuts code mark last) (hmark : mark ≤ code.size)
    (hlast : last ≤ last') (hi : ∀ t ∈ i.targets, mark ≤ t ∧ t ≤ last') :
    Cuts (code.push i) mark last' where
  before pc j hj hpc := by
    rw [Array.getElem?_push, if_neg (by omega)] at hj
    exact h.before pc j hj hpc
  behind pc j hj hpc t ht := by
    rw [Array.getElem?_push] at hj
    split at hj
    · cases hj
      exact hi t ht
    · obtain ⟨h₁, h₂⟩ := h.behind pc j hj hpc t ht
      exact ⟨h₁, Nat.le_trans h₂ hlast⟩

end Cuts

namespace Emitter

/-! ## Moving a block -/

/-- The place of what was at a place, with one instruction put in front of the mark. -/
def shiftPlace (mark pc : Nat) : Nat := if pc < mark then pc else pc + 1

/-- Where a branch at `pc` is to lead then that led to `t`: to what was there, or to the new
instruction if it led to the mark from in front of it. -/
def shiftTarget (mark pc t : Nat) : Nat := if t = mark ∧ pc < mark then mark else shiftPlace mark t

section
variable {code : Array Instr} {mark pc : Nat} {i : Instr}

theorem getElem?_insertAt_of_lt (h : pc < mark) (hpc : pc < code.size) :
    (insertAt code mark i)[pc]? = code[pc]? := by
  have hlen : pc < (code.toList.take mark).length := by
    rw [List.length_take, Array.length_toList]
    omega
  rw [← Array.getElem?_toList, toList_insertAt, List.getElem?_append_left hlen,
    List.getElem?_take_of_lt h, Array.getElem?_toList]

section
variable (h : mark ≤ code.size)
include h

theorem length_take_mark : (code.toList.take mark).length = mark := by
  rw [List.length_take, Array.length_toList]
  exact Nat.min_eq_left h

theorem getElem?_insertAt_self : (insertAt code mark i)[mark]? = some i := by
  rw [← Array.getElem?_toList, toList_insertAt]
  simp [h]

theorem getElem?_insertAt_succ (hpc : mark ≤ pc) :
    (insertAt code mark i)[pc + 1]? = code[pc]?.map (Instr.relocate 1) := by
  have hlen := length_take_mark h
  have hle : (code.toList.take mark).length ≤ pc + 1 := by omega
  have hsub : pc + 1 - mark = pc - mark + 1 := by omega
  rw [← Array.getElem?_toList, toList_insertAt, List.getElem?_append_right hle, hlen, hsub,
    List.getElem?_cons_succ, List.getElem?_map, List.getElem?_drop, Nat.add_sub_cancel' hpc,
    Array.getElem?_toList]

/-- An instruction that was there before stands at its new place, and it is relocated if that is
another one. -/
theorem getElem?_insertAt_shiftPlace {j : Instr} (hj : code[pc]? = some j) :
    (insertAt code mark i)[shiftPlace mark pc]? =
      some (if pc < mark then j else j.relocate 1) := by
  unfold shiftPlace
  by_cases hpc : pc < mark
  · rw [if_pos hpc, if_pos hpc, getElem?_insertAt_of_lt hpc (Cuts.lt_of_getElem? hj), hj]
  · rw [if_neg hpc, if_neg hpc, getElem?_insertAt_succ h (Nat.le_of_not_lt hpc), hj]
    rfl

/-- Every instruction is the new one or was there before. -/
theorem eq_or_exists_of_getElem?_insertAt {j : Instr} (hj : (insertAt code mark i)[pc]? = some j) :
    (pc = mark ∧ j = i) ∨ ∃ pc₀ j₀, code[pc₀]? = some j₀ ∧ pc = shiftPlace mark pc₀ ∧
      j = if pc₀ < mark then j₀ else j₀.relocate 1 := by
  rcases Nat.lt_trichotomy pc mark with hpc | rfl | hpc
  · rw [getElem?_insertAt_of_lt hpc (Nat.lt_of_lt_of_le hpc h)] at hj
    exact .inr ⟨pc, j, hj, by rw [shiftPlace, if_pos hpc], by rw [if_pos hpc]⟩
  · rw [getElem?_insertAt_self h] at hj
    exact .inl ⟨rfl, (Option.some.inj hj).symm⟩
  · obtain ⟨pc₀, rfl⟩ : ∃ pc₀, pc = pc₀ + 1 := ⟨pc - 1, by omega⟩
    have hle : ¬pc₀ < mark := by omega
    rw [getElem?_insertAt_succ h (Nat.le_of_not_lt hle)] at hj
    obtain ⟨j₀, hj₀, rfl⟩ := Option.map_eq_some_iff.1 hj
    exact .inr ⟨pc₀, j₀, hj₀, by rw [shiftPlace, if_neg hle], by rw [if_neg hle]⟩

end

end

end Emitter

open Emitter

/-- A mark that cuts the code cuts it still when a block inside its own is moved. -/
theorem Cuts.insertAt {code : Array Instr} {m mark last : Nat} {i : Instr}
    (h : Cuts code m code.size) (hblock : Cuts code mark code.size) (hm : m ≤ mark)
    (hmark : mark ≤ code.size) (hlast : code.size < last)
    (hi : ∀ t ∈ i.targets, m ≤ t ∧ t ≤ last) : Cuts (insertAt code mark i) m last where
  before pc j hj hpc t ht := by
    rcases eq_or_exists_of_getElem?_insertAt hmark hj with ⟨rfl, -⟩ | ⟨pc₀, j₀, hj₀, rfl, rfl⟩
    · omega
    · -- what stands in front of the mark has not been moved
      have hpc₀ : pc₀ < mark := by
        unfold shiftPlace at hpc
        split at hpc <;> omega
      rw [shiftPlace, if_pos hpc₀] at hpc
      rw [if_pos hpc₀] at ht
      exact h.before pc₀ j₀ hj₀ hpc t ht
  behind pc j hj hpc t ht := by
    rcases eq_or_exists_of_getElem?_insertAt hmark hj with ⟨rfl, rfl⟩ | ⟨pc₀, j₀, hj₀, rfl, rfl⟩
    · exact hi t ht
    · by_cases hpc₀ : pc₀ < mark
      · rw [shiftPlace, if_pos hpc₀] at hpc
        rw [if_pos hpc₀] at ht
        obtain ⟨h₁, h₂⟩ := h.behind pc₀ j₀ hj₀ hpc t ht
        exact ⟨h₁, by omega⟩
      · rw [if_neg hpc₀, Instr.targets_relocate] at ht
        obtain ⟨t₀, ht₀, rfl⟩ := List.mem_map.1 ht
        have := hblock.behind pc₀ j₀ hj₀ (Nat.le_of_not_lt hpc₀) t₀ ht₀
        omega

namespace Emitter

/-! ## The marks of the open levels -/

/-- The marks of the open levels, those of the outer ones first. -/
def marks (e : Emitter) : List Nat := ((e.level :: e.outer).map Level.mark).reverse

/-- The marks of the levels are in order, and they all cut the code. -/
structure Orderly (e : Emitter) : Prop where
  depth_le : e.depth ≤ maxDepth
  sorted : (e.level :: e.outer).Pairwise fun inner outer => outer.mark ≤ inner.mark
  le_size : ∀ l ∈ e.level :: e.outer, l.mark ≤ e.code.size
  cuts : ∀ l ∈ e.level :: e.outer, Cuts e.code l.mark e.code.size

theorem orderly_start : start.Orderly where
  depth_le := Nat.zero_le maxDepth
  sorted := List.pairwise_singleton _ _
  le_size l hl := by
    obtain rfl := List.mem_singleton.1 hl
    exact Nat.le_refl 0
  cuts l hl := by
    constructor <;> intro pc i hi <;> cases hi

section
variable {e : Emitter} (h : e.Orderly)
include h

theorem Orderly.mark_le {l : Level} (hl : l ∈ e.level :: e.outer) : l.mark ≤ e.level.mark := by
  rcases List.mem_cons.1 hl with rfl | hl
  · exact Nat.le_refl _
  · exact (List.pairwise_cons.1 h.sorted).1 l hl

theorem Orderly.level_le_size : e.level.mark ≤ e.code.size :=
  h.le_size e.level List.mem_cons_self

theorem Orderly.level_cuts : Cuts e.code e.level.mark e.code.size :=
  h.cuts e.level List.mem_cons_self

/-- A new item starts where the code ends, which is behind all marks. -/
theorem Orderly.atom {i : Instr} (hi : i.targets = []) : (e.atom i).Orderly where
  depth_le := h.depth_le
  sorted := List.pairwise_cons.2
    ⟨fun l hl => h.le_size l (List.mem_cons_of_mem _ hl), (List.pairwise_cons.1 h.sorted).2⟩
  le_size l hl := by
    have hsize : (e.atom i).code.size = e.code.size + 1 := Array.size_push i
    rcases List.mem_cons.1 hl with rfl | hl
    · exact hsize ▸ Nat.le_succ _
    · exact hsize ▸ Nat.le_succ_of_le (h.le_size l (List.mem_cons_of_mem _ hl))
  cuts l hl := by
    have hsize : (e.atom i).code.size = e.code.size + 1 := Array.size_push i
    have hnone (m last : Nat) : ∀ t ∈ i.targets, m ≤ t ∧ t ≤ last := by simp [hi]
    rw [hsize]
    rcases List.mem_cons.1 hl with rfl | hl
    · exact (h.level_cuts.atEnd h.level_le_size _).push (Nat.le_refl _) (Nat.le_succ _) (hnone _ _)
    · have hmem := List.mem_cons_of_mem e.level hl
      exact (h.cuts l hmem).push (h.le_size l hmem) (Nat.le_succ _) (hnone _ _)

/-- The group to come starts where the code ends, and is to be the item of the level around it. -/
theorem Orderly.openGroup (hdepth : e.depth < maxDepth) :
    ({ e with
      level := ⟨e.code.size, false⟩
      outer := ⟨e.code.size, false⟩ :: e.outer } : Emitter).Orderly := by
  have hend (last : Nat) : Cuts e.code e.code.size last := h.level_cuts.atEnd h.level_le_size last
  have hsize : ∀ l ∈ e.outer, l.mark ≤ e.code.size :=
    fun l hl => h.le_size l (List.mem_cons_of_mem _ hl)
  refine ⟨hdepth, ?_, ?_, ?_⟩
  · refine List.pairwise_cons.2 ⟨List.forall_mem_cons.2 ⟨Nat.le_refl _, hsize⟩, ?_⟩
    exact List.pairwise_cons.2 ⟨hsize, (List.pairwise_cons.1 h.sorted).2⟩
  · exact List.forall_mem_cons.2 ⟨Nat.le_refl _, List.forall_mem_cons.2 ⟨Nat.le_refl _, hsize⟩⟩
  · exact List.forall_mem_cons.2 ⟨hend _, List.forall_mem_cons.2
      ⟨hend _, fun l hl => h.cuts l (List.mem_cons_of_mem _ hl)⟩⟩

/-- The level around a group keeps its mark. -/
theorem Orderly.closeGroup {level : Level} {outer : List Level} (houter : e.outer = level :: outer)
    (hasAtom : Bool) :
    ({ e with level := ⟨level.mark, hasAtom⟩, outer } : Emitter).Orderly := by
  obtain ⟨depth_le, sorted, le_size, cuts⟩ := h
  rw [depth, houter] at depth_le
  rw [houter] at sorted le_size cuts
  refine ⟨Nat.le_of_succ_le depth_le, ?_, ?_, ?_⟩
  · exact List.pairwise_cons.2 (List.pairwise_cons.1 sorted.of_cons)
  · exact List.forall_mem_cons.2 (List.forall_mem_cons.1 (List.forall_mem_cons.1 le_size).2)
  · exact List.forall_mem_cons.2 (List.forall_mem_cons.1 (List.forall_mem_cons.1 cuts).2)

/-- An operator leaves the marks alone. -/
theorem Orderly.operator {e' : Emitter} (hlevel : e'.level.mark = e.level.mark)
    (houter : e'.outer = e.outer) (hsize : e.code.size ≤ e'.code.size)
    (hcuts : ∀ m ≤ e.level.mark, Cuts e.code m e.code.size → Cuts e'.code m e'.code.size) :
    e'.Orderly := by
  have hmem {l : Level} (hl : l ∈ e.outer) : l ∈ e.level :: e.outer := List.mem_cons_of_mem _ hl
  refine ⟨?_, ?_, ?_, ?_⟩
  · rw [depth, houter]
    exact h.depth_le
  · rw [houter]
    refine List.pairwise_cons.2 ⟨fun l hl => ?_, (List.pairwise_cons.1 h.sorted).2⟩
    exact hlevel ▸ h.mark_le (hmem hl)
  · rw [houter]
    refine List.forall_mem_cons.2 ⟨?_, fun l hl => Nat.le_trans (h.le_size l (hmem hl)) hsize⟩
    exact hlevel ▸ Nat.le_trans h.level_le_size hsize
  · rw [houter]
    refine List.forall_mem_cons.2 ⟨?_, fun l hl => ?_⟩
    · exact hlevel ▸ hcuts _ (Nat.le_refl _) h.level_cuts
    · exact hcuts _ (h.mark_le (hmem hl)) (h.cuts l (hmem hl))

end

/-- Each symbol that is taken leaves the marks in order. -/
theorem Orderly.feed {e e' : Emitter} {x : Symbol} (h : e.Orderly) (hx : e.feed x = .ok e') :
    e'.Orderly := by
  have hsize : e'.code.size = e.code.size + x.size := size_feed hx
  have hgrows : e.code.size ≤ e'.code.size := hsize ▸ Nat.le_add_right _ _
  have hlevel := h.level_le_size
  cases x with
  | literal b =>
    cases hx
    exact h.atom rfl
  | any =>
    cases hx
    exact h.atom rfl
  | groupOpen =>
    obtain ⟨hdepth, rfl⟩ := feed_groupOpen_eq_ok_iff.1 hx
    exact h.openGroup hdepth
  | groupClose =>
    obtain ⟨level, outer, houter, rfl⟩ := feed_groupClose_eq_ok_iff.1 hx
    exact h.closeGroup houter _
  | plus =>
    obtain ⟨-, rfl⟩ := feed_plus_eq_ok_iff.1 hx
    refine h.operator rfl rfl hgrows fun m hm hcut => ?_
    rw [hsize]
    refine hcut.push (Nat.le_trans hm hlevel) (Nat.le_succ _) fun t ht => ?_
    have htargets : t = e.level.mark ∨ t = e.code.size + 1 := by simpa [Instr.targets] using ht
    show m ≤ t ∧ t ≤ e.code.size + 1
    omega
  | star =>
    obtain ⟨-, rfl⟩ := feed_star_eq_ok_iff.1 hx
    refine h.operator rfl rfl hgrows fun m hm hcut => ?_
    rw [hsize]
    -- the split leads past the jump that is still to come
    have hinsert : Cuts (insertAt e.code e.level.mark
        (.split (e.level.mark + 1) (e.code.size + 2))) m (e.code.size + 2) := by
      refine hcut.insertAt h.level_cuts hm hlevel (by omega) fun t ht => ?_
      have htargets : t = e.level.mark + 1 ∨ t = e.code.size + 2 := by
        simpa [Instr.targets] using ht
      omega
    refine hinsert.push ?_ (Nat.le_refl _) fun t ht => ?_
    · rw [size_insertAt]
      omega
    · have htarget : t = e.level.mark := by simpa [Instr.targets] using ht
      show m ≤ t ∧ t ≤ e.code.size + 2
      omega
  | bar =>
    obtain ⟨-, rfl⟩ := feed_bar_eq_ok_iff.1 hx
    refine h.operator rfl rfl hgrows fun m hm hcut => ?_
    rw [hsize]
    refine hcut.insertAt h.level_cuts hm hlevel (Nat.lt_succ_self _) fun t ht => ?_
    have htargets : t = e.level.mark + 1 ∨ t = e.code.size + 1 := by
      simpa [Instr.targets] using ht
    show m ≤ t ∧ t ≤ e.code.size + 1
    omega

/-! ## What a move leaves as it was -/

theorem mem_marks_iff {e : Emitter} {m : Nat} :
    m ∈ e.marks ↔ ∃ l ∈ e.level :: e.outer, l.mark = m := by
  rw [marks, List.mem_reverse, List.mem_map]

theorem Orderly.sorted_marks {e : Emitter} (h : e.Orderly) :
    (e.marks ++ [e.code.size]).Pairwise (· ≤ ·) := by
  rw [marks, List.pairwise_append, List.pairwise_reverse, List.pairwise_map]
  refine ⟨h.sorted, List.pairwise_singleton _ _, fun m hm n hn => ?_⟩
  obtain ⟨l, hl, rfl⟩ := mem_marks_iff.1 hm
  rw [List.mem_singleton.1 hn]
  exact h.le_size l hl

theorem shiftPlace_lt_iff {m mark pc : Nat} (hm : m ≤ mark) : shiftPlace mark pc < m ↔ pc < m := by
  unfold shiftPlace
  split <;> omega

theorem shiftTarget_of_before {mark pc t : Nat} (hpc : pc < mark) (ht : t ≤ mark) :
    shiftTarget mark pc t = t := by
  unfold shiftTarget shiftPlace
  rcases Nat.lt_or_eq_of_le ht with hlt | rfl
  · rw [if_neg fun hmark => Nat.ne_of_lt hlt hmark.1, if_pos hlt]
  · rw [if_pos ⟨rfl, hpc⟩]

theorem shiftTarget_of_behind {mark pc t : Nat} (hpc : mark ≤ pc) (ht : mark ≤ t) :
    shiftTarget mark pc t = t + 1 := by
  unfold shiftTarget shiftPlace
  rw [if_neg fun hmark => Nat.not_lt.2 hpc hmark.2, if_neg (Nat.not_lt.2 ht)]

section
variable {code : Array Instr} {mark last pc : Nat} {j : Instr} (h : Cuts code mark last)
  (hj : code[pc]? = some j)
include h hj

/-- A block is moved right if what is in it is relocated, and nothing else. -/
theorem targets_shift :
    (if pc < mark then j else j.relocate 1).targets = j.targets.map (shiftTarget mark pc) := by
  by_cases hpc : pc < mark
  · have hsame : j.targets.map (shiftTarget mark pc) = j.targets.map id :=
      List.map_congr_left fun t ht => shiftTarget_of_before hpc (h.before pc j hj hpc t ht)
    rw [if_pos hpc, hsame, List.map_id]
  · have hle : mark ≤ pc := Nat.le_of_not_lt hpc
    have hup : j.targets.map (shiftTarget mark pc) = j.targets.map (· + 1) :=
      List.map_congr_left fun t ht => shiftTarget_of_behind hle (h.behind pc j hj hle t ht).1
    rw [if_neg hpc, Instr.targets_relocate, hup]

/-- A branch leads as far as before. -/
theorem shiftTarget_sub_shiftPlace {t : Nat} (ht : t ∈ j.targets) :
    (shiftTarget mark pc t : Int) - shiftPlace mark pc = t - pc := by
  by_cases hpc : pc < mark
  · rw [shiftTarget_of_before hpc (h.before pc j hj hpc t ht), shiftPlace, if_pos hpc]
  · have hle : mark ≤ pc := Nat.le_of_not_lt hpc
    rw [shiftTarget_of_behind hle (h.behind pc j hj hle t ht).1, shiftPlace, if_neg hpc]
    omega

end

/-- Moving a block in the buffer amounts to an insertion of what is left at its front. -/
theorem exists_performAll?_moves {code : Array Instr} {mark : Nat} (h : mark ≤ code.size) :
    ∃ i, Edit.performAll? code (.push .accept :: Edit.moves mark code.size) =
      some (insertAt code mark i) := by
  have hpush : (code.push .accept).toList = code.toList ++ .accept :: [] := by simp
  obtain ⟨code', i, hmoves, hcode'⟩ := Edit.performAll?_moves hpush (Array.length_toList ..) h
  have hinsert : code' = insertAt code mark i := by
    apply Array.toList_inj.1
    rw [hcode', toList_insertAt, List.append_nil]
  exact ⟨i, by rw [Edit.performAll?_cons, ← hinsert]; exact hmoves⟩

/-- An operator leaves all marks alone. -/
theorem marks_of_operator {e e' : Emitter} {x : Symbol} (hx : x = .plus ∨ x = .star ∨ x = .bar)
    (hfeed : e.feed x = .ok e') : e'.marks = e.marks := by
  rcases hx with rfl | rfl | rfl
  · obtain ⟨-, rfl⟩ := feed_plus_eq_ok_iff.1 hfeed
    rfl
  · obtain ⟨-, rfl⟩ := feed_star_eq_ok_iff.1 hfeed
    rfl
  · obtain ⟨-, rfl⟩ := feed_bar_eq_ok_iff.1 hfeed
    rfl

end Emitter

namespace Pattern

open Emitter

theorem Reaches.orderly {pattern : Bytes} {offset : Nat} {e : Emitter}
    (h : Reaches pattern offset e) : e.Orderly := by
  induction h with
  | start => exact orderly_start
  | symbol _ _ hfeed ih => exact ih.feed hfeed

/-! ## Main statement -/

/-- **Blocks are closed.**  Wherever compilation gets to, there are at most ten open groups, the
marks of the levels are in order with the end of the code behind them, and no branch leads across
any of them.  So when the block of the innermost level is moved, its instructions are relocated and
no others, every branch leads to where it should and as far as before, and what stood in front of
the mark of a level or behind it stands there still, also when the operator has done its work. -/
theorem blocks_of_reaches {pattern : Bytes} {offset : Nat} {e : Emitter}
    (h : Reaches pattern offset e) :
    (e.depth ≤ maxDepth ∧ e.marks.length = e.depth + 1 ∧
      (e.marks ++ [e.code.size]).Pairwise (· ≤ ·) ∧
      ∀ m ∈ e.marks, Cuts e.code m e.code.size) ∧
    (∃ i, Edit.performAll? e.code (.push .accept :: Edit.moves e.level.mark e.code.size) =
      some (insertAt e.code e.level.mark i)) ∧
    (∀ i pc j, e.code[pc]? = some j →
      ∃ j', (insertAt e.code e.level.mark i)[shiftPlace e.level.mark pc]? = some j' ∧
        j' = (if pc < e.level.mark then j else j.relocate 1) ∧
        j'.targets = j.targets.map (shiftTarget e.level.mark pc) ∧
        ∀ t ∈ j.targets,
          (shiftTarget e.level.mark pc t : Int) - shiftPlace e.level.mark pc = t - pc) ∧
    (∀ m ∈ e.marks, ∀ pc, shiftPlace e.level.mark pc < m ↔ pc < m) ∧
    ∀ x e', x = .plus ∨ x = .star ∨ x = .bar → e.feed x = .ok e' →
      e'.marks = e.marks ∧ ∀ m ∈ e.marks, Cuts e'.code m e'.code.size := by
  have hcuts {e : Emitter} (he : e.Orderly) : ∀ m ∈ e.marks, Cuts e.code m e.code.size := by
    intro m hm
    obtain ⟨l, hl, rfl⟩ := mem_marks_iff.1 hm
    exact he.cuts l hl
  have he := h.orderly
  refine ⟨⟨he.depth_le, by simp [marks, depth], he.sorted_marks, hcuts he⟩,
    exists_performAll?_moves he.level_le_size, fun i pc j hj => ⟨_,
      getElem?_insertAt_shiftPlace he.level_le_size hj, rfl, targets_shift he.level_cuts hj,
      fun t ht => shiftTarget_sub_shiftPlace he.level_cuts hj ht⟩,
    fun m hm pc => ?_, fun x e' hx hfeed => ?_⟩
  · obtain ⟨l, hl, rfl⟩ := mem_marks_iff.1 hm
    exact shiftPlace_lt_iff (he.mark_le hl)
  · have hmarks := marks_of_operator hx hfeed
    exact ⟨hmarks, hmarks ▸ hcuts (he.feed hfeed)⟩

/-- In front of the loop of the last item a split leads to that item: the loop is to be relocated
when an instruction is put in front of it, the split is not. -/
theorem blocks_of_reaches_two_loops :
    ∃ e, Reaches (ascii "x|(a*b+") 7 e ∧ e.marks = [2, 5] ∧
      e.code = #[.split 1 2, .byte 120, .split 3 5, .byte 97, .jump 2, .byte 98, .split 5 7] ∧
      (∀ m ∈ e.marks, Cuts e.code m 7) ∧
      ∀ i, (∃ j, (insertAt e.code 5 i)[2]? = some j ∧ j.targets = [3, 5]) ∧
        ∃ j, (insertAt e.code 5 i)[7]? = some j ∧ j.targets = [6, 8] := by
  let e : Emitter :=
    ⟨#[.split 1 2, .byte 120, .split 3 5, .byte 97, .jump 2, .byte 98, .split 5 7], ⟨5, true⟩,
      [⟨2, false⟩]⟩
  have hfeed : start.feedAll 0 (ascii "x|(a*b+") = .ok e := by cbv
  have h : Reaches (ascii "x|(a*b+") 7 e :=
    reaches_iff_feeds.2 ⟨by decide, feedAll_eq_ok_iff.1 hfeed⟩
  obtain ⟨⟨-, -, -, hcuts⟩, -, hshift, -⟩ := blocks_of_reaches h
  refine ⟨e, h, rfl, rfl, hcuts, fun i => ⟨?_, ?_⟩⟩
  · obtain ⟨j, hj, -, htargets, -⟩ := hshift i 2 (.split 3 5) rfl
    exact ⟨j, hj, htargets⟩
  · obtain ⟨j, hj, -, htargets, -⟩ := hshift i 6 (.split 5 7) rfl
    exact ⟨j, hj, htargets⟩

end Pattern

end SweepRegex
