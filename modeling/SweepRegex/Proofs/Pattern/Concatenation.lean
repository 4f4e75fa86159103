import SweepRegex.Proofs.Pattern.Faults
import Mathlib.Data.List.Infix
import Mathlib.Data.Nat.Find
import Mathlib.Order.Bounds.Basic

/-!
# One pattern behind another

What the compiler remembers of a pattern does not matter to a pattern behind it that compiles on its
own.  The second one is read as it would be by itself, with its code behind that of the first, its
branches relocated, and its levels inside those the first has left open (`Continues`).  Even the
level at the seam does not matter: an operator would need an item of its own pattern.

Only the number of open groups adds up.  With too many of them the second pattern is refused at the
first bracket that is one too many (`Surpasses`).

    compile (s ++ t) = .ok ⟨p.code.pop ++ q.code.map (Instr.relocate (p.size - 1))⟩
                                                                             (compile_append)
-/

namespace SweepRegex

namespace Pattern

/-! ## Depth of a text -/

/-- The greatest number of groups that are open at once. -/
def deepest (s : List Symbol) : Nat := (s.inits.map openGroups).foldr max 0

/-- The symbol at the offset opens a group, and with this one more than `n` are open. -/
def Surpasses (s : List Symbol) (n offset : Nat) : Prop :=
  s[offset]? = some .groupOpen ∧ n < openGroups (s.take (offset + 1))

theorem foldr_max_le_iff {l : List Nat} {n : Nat} : l.foldr max 0 ≤ n ↔ ∀ k ∈ l, k ≤ n := by
  induction l with
  | nil => simp
  | cons k l ih => rw [List.foldr_cons, List.forall_mem_cons, ← ih, Nat.max_le]

theorem deepest_le_iff {s : List Symbol} {n : Nat} :
    deepest s ≤ n ↔ ∀ r, r <+: s → openGroups r ≤ n := by
  unfold deepest
  rw [foldr_max_le_iff, List.forall_mem_map]
  simp only [List.mem_inits]

theorem Surpasses.of_prefix {r s : List Symbol} {n offset : Nat} (h : Surpasses r n offset)
    (hr : r <+: s) : Surpasses s n offset := by
  obtain ⟨t, rfl⟩ := hr
  obtain ⟨hopen, hlt⟩ := h
  have hoffset : offset < r.length := (List.getElem?_eq_some_iff.1 hopen).1
  constructor
  · rwa [List.getElem?_append_left hoffset]
  · rwa [List.take_append_of_le_length hoffset]

/-- Groups are opened one at a time, so a bracket is the first to have more than `n` open. -/
theorem exists_surpasses {s : List Symbol} {n : Nat} (h : n < openGroups s) :
    ∃ offset < s.length, Surpasses s n offset := by
  induction s using List.reverseRecOn with
  | nil => exact absurd h (Nat.not_lt_zero n)
  | append_singleton s x ih =>
    rw [List.length_append]
    by_cases hs : n < openGroups s
    · obtain ⟨offset, hoffset, hsurpasses⟩ := ih hs
      exact ⟨offset, Nat.lt_add_right _ hoffset, hsurpasses.of_prefix (List.prefix_append s [x])⟩
    · -- the last symbol makes the difference, so it is an opening bracket
      have hx : x = .groupOpen := by
        rw [openGroups_concat] at h
        cases x <;> simp only [Symbol.nest] at h <;> first | rfl | omega
      subst hx
      refine ⟨s.length, Nat.lt_succ_self _, by simp, ?_⟩
      rwa [List.take_of_length_le (by simp)]

theorem exists_least_surpasses {s : List Symbol} {n : Nat} (h : n < deepest s) :
    ∃ offset, IsLeast {o | Surpasses s n o} offset := by
  have hlt : ∃ r, r <+: s ∧ n < openGroups r := by
    by_contra hno
    simp only [not_exists, not_and, Nat.not_lt] at hno
    exact absurd h (Nat.not_lt.2 (deepest_le_iff.2 hno))
  obtain ⟨r, hr, hn⟩ := hlt
  obtain ⟨offset, -, hoffset⟩ := exists_surpasses hn
  classical
  have hexists : ∃ o, Surpasses s n o := ⟨offset, hoffset.of_prefix hr⟩
  exact ⟨Nat.find hexists, Nat.find_spec hexists, fun o ho => Nat.find_min' hexists ho⟩

section
variable {s : List Symbol} {n offset : Nat} (h : IsLeast {o | Surpasses s n o} offset)
include h

/-- In front of the first bracket that has more than `n` groups open there never are more. -/
theorem openGroups_le_of_least {r : List Symbol} (hr : r <+: s.take offset) :
    openGroups r ≤ n := by
  by_contra hn
  obtain ⟨o, ho, hsurpasses⟩ := exists_surpasses (Nat.lt_of_not_le hn)
  have hle : offset ≤ o := h.2 (hsurpasses.of_prefix (hr.trans (List.take_prefix offset s)))
  have hlen : r.length ≤ offset := hr.length_le.trans (List.length_take_le offset s)
  omega

theorem openGroups_take_of_least : openGroups (s.take offset) = n := by
  obtain ⟨hopen, hn⟩ := h.1
  rw [List.take_add_one, hopen] at hn
  have hsucc : n < openGroups (s.take offset) + 1 := by
    simpa [Symbol.nest] using hn
  have hle := openGroups_le_of_least h (List.prefix_refl _)
  omega

end

end Pattern

/-- The level with its item somewhere else. -/
def Level.shift (d : Nat) (l : Level) : Level := { l with mark := l.mark + d }

namespace Emitter

open Pattern

/-! ## Code behind other code -/

/-- The second emitter does behind the code of `base`, and inside its open groups, what the first
one does at the start.  Where no operator may follow, the levels at the seam may differ. -/
structure Continues (base e e' : Emitter) : Prop where
  code : e'.code = base.code ++ e.code.map (Instr.relocate base.code.size)
  level : e.level.hasAtom = true → e'.level = e.level.shift base.code.size
  outer : e'.outer = e.outer.map (Level.shift base.code.size) ++ base.outer

theorem continues_start (base : Emitter) : Continues base .start base where
  code := by simp [start]
  level := fun h => by cases h
  outer := rfl

section
variable {base e e' : Emitter} (h : Continues base e e')
include h

theorem Continues.size : e'.code.size = e.code.size + base.code.size := by
  rw [h.code, Array.size_append, Array.size_map, Nat.add_comm]

theorem Continues.depth : e'.depth = base.depth + e.depth := by
  rw [Emitter.depth, h.outer, List.length_append, List.length_map, Nat.add_comm]
  rfl

/-- An instruction emitted by both. -/
theorem Continues.push (i : Instr) :
    e'.code.push (i.relocate base.code.size) =
      base.code ++ (e.code.push i).map (Instr.relocate base.code.size) := by
  rw [h.code, Array.map_push, Array.append_push]

/-- An instruction put in front of an item by both. -/
theorem Continues.insertAt (mark : Nat) (i : Instr) :
    insertAt e'.code (mark + base.code.size) (i.relocate base.code.size) =
      base.code ++ (insertAt e.code mark i).map (Instr.relocate base.code.size) := by
  have hmark : mark + base.code.size = base.code.toList.length + mark := by
    rw [Array.length_toList, Nat.add_comm]
  have hswap : Instr.relocate 1 ∘ Instr.relocate base.code.size =
      Instr.relocate base.code.size ∘ Instr.relocate 1 := by
    funext i
    show (i.relocate _).relocate 1 = (i.relocate 1).relocate _
    rw [Instr.relocate_relocate, Instr.relocate_relocate, Nat.add_comm]
  apply Array.toList_inj.1
  rw [toList_insertAt, h.code, Array.toList_append, Array.toList_append, Array.toList_map,
    Array.toList_map, toList_insertAt, hmark, List.take_length_add_append,
    List.drop_length_add_append, List.append_assoc, List.map_append, List.map_cons,
    ← List.map_take, ← List.map_drop, List.map_map, List.map_map, hswap]

/-- Where an operator may follow, it applies to the same item. -/
theorem Continues.item (ha : e.level.hasAtom = true) :
    e'.level.hasAtom = true ∧ e'.level.mark = e.level.mark + base.code.size := by
  rw [h.level ha]
  exact ⟨ha, rfl⟩

/-- A split put in front of the item, which leads past its end. -/
theorem Continues.insertSplit (ha : e.level.hasAtom = true) (n : Nat) :
    Emitter.insertAt e'.code e'.level.mark (.split (e'.level.mark + 1) (e'.code.size + n)) =
      base.code ++ (Emitter.insertAt e.code e.level.mark
        (.split (e.level.mark + 1) (e.code.size + n))).map (Instr.relocate base.code.size) := by
  have hsplit : Instr.split (e'.level.mark + 1) (e'.code.size + n) =
      (Instr.split (e.level.mark + 1) (e.code.size + n)).relocate base.code.size := by
    rw [(h.item ha).2, h.size, Nat.add_right_comm, Nat.add_right_comm _ _ n]
    rfl
  rw [hsplit, (h.item ha).2, h.insertAt]

/-- Both emitters take a symbol, unless the open groups of `base` make one bracket too many. -/
theorem Continues.feed {e₁ : Emitter} {x : Symbol} (hx : e.feed x = .ok e₁)
    (hd : x = .groupOpen → e'.depth < maxDepth) :
    ∃ e₁', e'.feed x = .ok e₁' ∧ Continues base e₁ e₁' := by
  have hsize := h.size
  cases x with
  | literal b =>
    cases hx
    refine ⟨_, rfl, h.push (.byte b), fun _ => ?_, h.outer⟩
    simp [atom, Level.shift, hsize]
  | any =>
    cases hx
    refine ⟨_, rfl, h.push .any, fun _ => ?_, h.outer⟩
    simp [atom, Level.shift, hsize]
  | groupOpen =>
    obtain ⟨-, rfl⟩ := feed_groupOpen_eq_ok_iff.1 hx
    refine ⟨_, feed_groupOpen_eq_ok_iff.2 ⟨hd rfl, rfl⟩, h.code, fun ha => ?_, ?_⟩
    · cases ha
    · simp [h.outer, Level.shift, hsize]
  | groupClose =>
    obtain ⟨level, outer, houter, rfl⟩ := feed_groupClose_eq_ok_iff.1 hx
    have houter' : e'.outer =
        level.shift base.code.size :: (outer.map (Level.shift base.code.size) ++ base.outer) := by
      rw [h.outer, houter]
      rfl
    refine ⟨_, feed_groupClose_eq_ok_iff.2 ⟨_, _, houter', rfl⟩, h.code, fun _ => ?_, rfl⟩
    simp [Level.shift, hsize]
  | plus =>
    obtain ⟨ha, rfl⟩ := feed_plus_eq_ok_iff.1 hx
    obtain ⟨ha', hmark⟩ := h.item ha
    refine ⟨_, feed_plus_eq_ok_iff.2 ⟨ha', rfl⟩, ?_, h.level, h.outer⟩
    have hsplit : Instr.split e'.level.mark (e'.code.size + 1) =
        (Instr.split e.level.mark (e.code.size + 1)).relocate base.code.size := by
      rw [hmark, hsize, Nat.add_right_comm]
      rfl
    show e'.code.push _ = _
    rw [hsplit, h.push]
  | star =>
    obtain ⟨ha, rfl⟩ := feed_star_eq_ok_iff.1 hx
    obtain ⟨ha', hmark⟩ := h.item ha
    refine ⟨_, feed_star_eq_ok_iff.2 ⟨ha', rfl⟩, ?_, h.level, h.outer⟩
    have hjump : Instr.jump e'.level.mark =
        (Instr.jump e.level.mark).relocate base.code.size := by rw [hmark]; rfl
    show (Emitter.insertAt e'.code _ _).push _ = _
    rw [h.insertSplit ha, hjump, Array.map_push, Array.append_push]
  | bar =>
    obtain ⟨ha, rfl⟩ := feed_bar_eq_ok_iff.1 hx
    obtain ⟨ha', -⟩ := h.item ha
    refine ⟨_, feed_bar_eq_ok_iff.2 ⟨ha', rfl⟩, h.insertSplit ha 1, fun hno => ?_, h.outer⟩
    cases hno

end

/-- A text that is read at the start is read behind `base`, as long as there are not too many
groups open. -/
theorem exists_continues {base e : Emitter} {s : List Symbol} (h : Feeds start s e)
    (hd : ∀ r, r <+: s → base.depth + openGroups r ≤ maxDepth) :
    ∃ e', Feeds base s e' ∧ Continues base e e' := by
  induction s using List.reverseRecOn generalizing e with
  | nil =>
    cases h
    exact ⟨base, .nil base, continues_start base⟩
  | append_singleton s x ih =>
    obtain ⟨e₁, h₁, hx⟩ := feeds_snoc_iff.1 h
    obtain ⟨e₁', h₁', hcontinues⟩ := ih h₁ fun r hr => hd r (hr.trans (List.prefix_append s [x]))
    have hopen : x = .groupOpen → e₁'.depth < maxDepth := by
      rintro rfl
      have hle := hd _ (List.prefix_refl _)
      rw [openGroups_concat, ← (depth_of_feeds h₁).1] at hle
      rw [hcontinues.depth]
      exact hle
    obtain ⟨e', hx', hcontinues'⟩ := hcontinues.feed hx hopen
    exact ⟨e', feeds_snoc_iff.2 ⟨e₁', h₁', hx'⟩, hcontinues'⟩

end Emitter

namespace Pattern

theorem openGroups_le_of_compile {s : Bytes} {p : Program} (h : compile s = .ok p) :
    openGroups (s.map Symbol.ofByte) ≤ 10 := by
  obtain ⟨e, he, -⟩ := compile_eq_ok_iff.1 h
  obtain ⟨hdepth, hmax⟩ := Emitter.depth_of_feeds he
  rw [← hdepth]
  exact hmax

section
variable {s t : Bytes} {p q : Program} (hs : compile s = .ok p) (ht : compile t = .ok q)
include hs ht

/-- Where the open groups of both are not too many, the second pattern is read as by itself. -/
theorem exists_continues_of_compile
    (hd : openGroups (s.map Symbol.ofByte) + deepest (t.map Symbol.ofByte) ≤ 10) :
    ∃ base e e', base.finish = p ∧ e.finish = q ∧ Emitter.Continues base e e' ∧
      Emitter.Feeds .start (s.map Symbol.ofByte) base ∧
      Emitter.Feeds .start (t.map Symbol.ofByte) e ∧
      Emitter.Feeds .start ((s ++ t).map Symbol.ofByte) e' := by
  obtain ⟨base, hbase, hp⟩ := compile_eq_ok_iff.1 hs
  obtain ⟨e, he, hq⟩ := compile_eq_ok_iff.1 ht
  have hdepth : ∀ r, r <+: t.map Symbol.ofByte →
      base.depth + openGroups r ≤ Emitter.maxDepth := by
    intro r hr
    have hle := deepest_le_iff.1 (Nat.le_refl _) r hr
    rw [(Emitter.depth_of_feeds hbase).1]
    show _ ≤ 10
    omega
  obtain ⟨e', he', hcontinues⟩ := Emitter.exists_continues he hdepth
  refine ⟨base, e, e', hp, hq, hcontinues, hbase, he, ?_⟩
  rw [List.map_append]
  exact Emitter.feeds_append_iff.2 ⟨base, hbase, he'⟩

/-- The code of the second pattern follows that of the first. -/
theorem compile_append_of_le
    (hd : openGroups (s.map Symbol.ofByte) + deepest (t.map Symbol.ofByte) ≤ 10) :
    compile (s ++ t) = .ok ⟨p.code.pop ++ q.code.map (Instr.relocate (p.size - 1))⟩ := by
  obtain ⟨base, e, e', rfl, rfl, hcontinues, -, -, he'⟩ := exists_continues_of_compile hs ht hd
  refine compile_eq_ok_iff.2 ⟨e', he', ?_⟩
  have hsize : base.finish.size - 1 = base.code.size := by
    rw [Emitter.size_finish, Nat.add_sub_cancel]
  rw [hsize]
  show Program.mk (e'.code.push .accept) = ⟨(base.code.push .accept).pop ++ _⟩
  rw [Array.pop_push]
  exact congrArg Program.mk (hcontinues.push .accept)

/-- The groups that both leave open are open behind the second. -/
theorem openGroups_append_of_le
    (hd : openGroups (s.map Symbol.ofByte) + deepest (t.map Symbol.ofByte) ≤ 10) :
    openGroups ((s ++ t).map Symbol.ofByte) =
      openGroups (s.map Symbol.ofByte) + openGroups (t.map Symbol.ofByte) := by
  obtain ⟨base, e, e', -, -, hcontinues, hbase, he, he'⟩ := exists_continues_of_compile hs ht hd
  rw [← (Emitter.depth_of_feeds he').1, ← (Emitter.depth_of_feeds hbase).1,
    ← (Emitter.depth_of_feeds he).1, hcontinues.depth]

/-- The second pattern is refused at the first bracket that is one too many. -/
theorem compile_append_of_least {n offset : Nat}
    (hn : openGroups (s.map Symbol.ofByte) + n = 10)
    (h : IsLeast {o | Surpasses (t.map Symbol.ofByte) n o} offset) :
    compile (s ++ t) = .error ⟨.groupOverflow, s.length + offset⟩ := by
  obtain ⟨base, hbase, rfl⟩ := compile_eq_ok_iff.1 hs
  obtain ⟨e, he, rfl⟩ := compile_eq_ok_iff.1 ht
  have hbasedepth := (Emitter.depth_of_feeds hbase).1
  -- the bracket at the offset, and what is read in front of it
  have hopen := h.1.1
  rw [List.getElem?_map] at hopen
  obtain ⟨b, hb, hbracket⟩ := Option.map_eq_some_iff.1 hopen
  obtain ⟨hlt, hget⟩ := List.getElem?_eq_some_iff.1 hb
  have hsplit : t = t.take offset ++ b :: t.drop (offset + 1) := by
    rw [← hget, List.getElem_cons_drop, List.take_append_drop]
  rw [hsplit, List.map_append] at he
  obtain ⟨e₁, h₁, -⟩ := Emitter.feeds_append_iff.1 he
  have hdepth : ∀ r, r <+: (t.take offset).map Symbol.ofByte →
      base.depth + openGroups r ≤ Emitter.maxDepth := by
    intro r hr
    rw [List.map_take] at hr
    have hle := openGroups_le_of_least h hr
    show _ ≤ 10
    omega
  obtain ⟨e', he', hcontinues⟩ := Emitter.exists_continues h₁ hdepth
  have hfull : ¬e'.depth < Emitter.maxDepth := by
    have hn' := openGroups_take_of_least h
    rw [← List.map_take] at hn'
    rw [hcontinues.depth, hbasedepth, (Emitter.depth_of_feeds h₁).1, hn', hn]
    exact Nat.lt_irrefl 10
  refine compile_eq_error_iff.2 ⟨s ++ t.take offset, b, t.drop (offset + 1), e', ?_, ?_, ?_, ?_⟩
  · rw [List.append_assoc, ← hsplit]
  · show s.length + offset = _
    rw [List.length_append, List.length_take_of_le (Nat.le_of_lt hlt)]
  · rw [List.map_append]
    exact Emitter.feeds_append_iff.2 ⟨base, hbase, he'⟩
  · rw [hbracket]
    exact Emitter.feed_groupOpen_eq_error_iff.2 ⟨hfull, rfl⟩

end

/-! ## Main statement -/

/-- **Concatenation.**  Of two patterns that compile, one behind the other, the program is that of
the first without its final instruction, and behind it that of the second with its branches
relocated, if no more groups than allowed are open at once: those the first one leaves open, and
those of the second.  Otherwise the second one is refused at its first bracket that is one too
many. -/
theorem compile_append {s t : Bytes} {p q : Program} (hs : compile s = .ok p)
    (ht : compile t = .ok q) :
    let d := openGroups (s.map Symbol.ofByte)
    let m := deepest (t.map Symbol.ofByte)
    (d + m ≤ 10 →
      compile (s ++ t) = .ok ⟨p.code.pop ++ q.code.map (Instr.relocate (p.size - 1))⟩) ∧
    (10 < d + m → ∃ offset, IsLeast {o | Surpasses (t.map Symbol.ofByte) (10 - d) o} offset ∧
      compile (s ++ t) = .error ⟨.groupOverflow, s.length + offset⟩) := by
  intro d m
  refine ⟨compile_append_of_le hs ht, fun hover => ?_⟩
  have hd : d ≤ 10 := openGroups_le_of_compile hs
  have hm : 10 - d < m := by omega
  obtain ⟨offset, hoffset⟩ := exists_least_surpasses hm
  exact ⟨offset, hoffset, compile_append_of_least hs ht (Nat.add_sub_cancel' hd) hoffset⟩

/-- A bar and an open group at the seam, and a second pattern with one group too many. -/
theorem compile_append_seam :
    compile (ascii "(a|") = .ok ⟨#[.split 1 2, .byte 97, .accept]⟩ ∧
      compile (ascii "b(c*") = .ok ⟨#[.byte 98, .split 2 4, .byte 99, .jump 1, .accept]⟩ ∧
      compile (ascii "(a|" ++ ascii "b(c*") =
        .ok ⟨#[.split 1 2, .byte 97, .byte 98, .split 4 6, .byte 99, .jump 3, .accept]⟩ ∧
      compile (ascii "(((((((((a") = .ok ⟨#[.byte 97, .accept]⟩ ∧
      compile (ascii "(b)((c") = .ok ⟨#[.byte 98, .byte 99, .accept]⟩ ∧
      ∃ offset, IsLeast {o | Surpasses ((ascii "(b)((c").map Symbol.ofByte) 1 o} offset ∧
        compile (ascii "(((((((((a" ++ ascii "(b)((c") = .error ⟨.groupOverflow, 10 + offset⟩ := by
  have hs : compile (ascii "(a|") = .ok ⟨#[.split 1 2, .byte 97, .accept]⟩ := by cbv
  have ht : compile (ascii "b(c*") =
      .ok ⟨#[.byte 98, .split 2 4, .byte 99, .jump 1, .accept]⟩ := by cbv
  have hs' : compile (ascii "(((((((((a") = .ok ⟨#[.byte 97, .accept]⟩ := by cbv
  have ht' : compile (ascii "(b)((c") = .ok ⟨#[.byte 98, .byte 99, .accept]⟩ := by cbv
  refine ⟨hs, ht, ?_, hs', ht', ?_⟩
  · have hcode := (compile_append hs ht).1 (by decide)
    simpa [Instr.relocate, Program.size] using hcode
  · exact (compile_append hs' ht').2 (by decide)

end Pattern

end SweepRegex
