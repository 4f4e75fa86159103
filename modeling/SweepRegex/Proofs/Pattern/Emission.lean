import SweepRegex.Proofs.Pattern.Feeding
import SweepRegex.Proofs.Pattern.Grammar

/-!
# Emitted code

The one pass of the compiler, with its code moved and relocated behind its back, emits what a
walk over the expression of the pattern emits.  The proof follows the grammar: while a closed text
is fed, the code of its level is appended to what was there, the mark is at the last item of the
level, and no level around is touched (`Emits`).

    compile pattern = .ok p → Denotes pattern e → p.code.toList = e.code 0 ++ [.accept]
                                                              (compile_eq_code)

That an accepted pattern denotes an expression at all is part of it (`Follows`).
-/

namespace SweepRegex

open Pattern

namespace Emitter

/-! ## Code of a closed text -/

/-- Between `e` and `e'` the code of a level was appended. -/
structure Emits (e : Emitter) (n : Nesting) (e' : Emitter) : Prop where
  code : e'.code.toList = e.code.toList ++ n.expr.code e.code.size
  mark : n ≠ .blank → e'.level.mark = e.code.size + n.before.size
  outer : e'.outer = e.outer

/-- The last item of a level has the code `x`, behind the code of the other items. -/
structure EndsIn (e : Emitter) (settled : List Instr) (x : Expr) : Prop where
  code : e.code.toList = settled ++ x.code e.level.mark
  mark : e.level.mark = settled.length

theorem Emits.blank (e : Emitter) : Emits e .blank e where
  code := by simp [Nesting.blank, Nesting.expr, Expr.code]
  mark := fun h => absurd rfl h
  outer := rfl

theorem Emits.size {e e' : Emitter} {n : Nesting} (h : Emits e n e') :
    e'.code.size = e.code.size + n.expr.size := by
  rw [← Array.length_toList, h.code]
  simp

/-- The level with one more item, whose code starts where the code ended. -/
theorem Emits.item {e e₁ e' : Emitter} {n : Nesting} {x : Expr} (h : Emits e n e₁)
    (hcode : e'.code.toList = e₁.code.toList ++ x.code e₁.code.size)
    (hmark : e'.level.mark = e₁.code.size) (houter : e'.outer = e.outer) :
    Emits e (n.item x) e' where
  code := by
    rw [hcode, h.code, h.size]
    simp [Nesting.item, Nesting.expr, Expr.code]
  mark := fun _ => by rw [hmark, h.size]; rfl
  outer := houter

/-- What an operator leaves in place, and what it applies to. -/
theorem Emits.endsIn {e e' : Emitter} {n : Nesting} {x : Expr} (h : Emits e (n.item x) e') :
    EndsIn e' (e.code.toList ++ n.expr.code e.code.size) x where
  code := by
    rw [h.code, h.mark (item_ne_blank n x)]
    simp [Nesting.item, Nesting.expr, Expr.code]
  mark := by
    rw [h.mark (item_ne_blank n x)]
    simp [Nesting.item]

/-- An operator that replaces the code of the last item replaces the item. -/
theorem Emits.replace {e e₁ e' : Emitter} {n : Nesting} {x y : Expr} (h : Emits e (n.item x) e₁)
    (hy : EndsIn e' (e.code.toList ++ n.expr.code e.code.size) y ∧ e'.outer = e₁.outer) :
    Emits e (n.item y) e' where
  code := by
    rw [hy.1.code, hy.1.mark]
    simp [Nesting.item, Nesting.expr, Expr.code, Expr.size]
  mark := fun _ => by
    rw [hy.1.mark]
    simp [Nesting.item]
  outer := hy.2.trans h.outer

/-! ## Code of the operators -/

section
variable {e e' : Emitter} {settled : List Instr} {x : Expr} (h : EndsIn e settled x)
include h

theorem EndsIn.size : e.code.size = e.level.mark + x.size := by
  rw [← Array.length_toList, h.code, h.mark]
  simp

/-- An instruction put in front of the last item moves that item and nothing else. -/
theorem EndsIn.insertAt (i : Instr) :
    (insertAt e.code e.level.mark i).toList = settled ++ i :: x.code (e.level.mark + 1) := by
  have hx : x.code (e.level.mark + 1) = (x.code e.level.mark).map (Instr.relocate 1) :=
    Expr.code_add e.level.mark 1 x
  rw [toList_insertAt, h.code, hx, h.mark]
  simp

theorem EndsIn.plus (hf : e.feed .plus = .ok e') :
    EndsIn e' settled (.plus x) ∧ e'.outer = e.outer := by
  obtain ⟨-, rfl⟩ := feed_plus_eq_ok_iff.1 hf
  refine ⟨⟨?_, h.mark⟩, rfl⟩
  show (e.code.push _).toList = _
  rw [Array.toList_push, h.code, h.size]
  simp [Expr.code]

theorem EndsIn.star (hf : e.feed .star = .ok e') :
    EndsIn e' settled (.star x) ∧ e'.outer = e.outer := by
  obtain ⟨-, rfl⟩ := feed_star_eq_ok_iff.1 hf
  refine ⟨⟨?_, h.mark⟩, rfl⟩
  show ((Emitter.insertAt _ _ _).push _).toList = _
  rw [Array.toList_push, h.insertAt, h.size]
  simp [Expr.code]

theorem EndsIn.bar (hf : e.feed .bar = .ok e') :
    EndsIn e' settled (.opt x) ∧ e'.outer = e.outer := by
  obtain ⟨-, rfl⟩ := feed_bar_eq_ok_iff.1 hf
  refine ⟨⟨?_, h.mark⟩, rfl⟩
  show (Emitter.insertAt _ _ _).toList = _
  rw [h.insertAt, h.size]
  simp [Expr.code]

end

/-- Reading a closed text appends the code of its level. -/
theorem emits_of_feeds {s : List Symbol} {n : Nesting} (h : Reads s n) {e e' : Emitter}
    (hf : Feeds e s e') : Emits e n e' := by
  induction h generalizing e e' with
  | blank =>
    cases hf
    exact .blank _
  | literal b _ ih =>
    obtain ⟨e₁, h₁, hx⟩ := feeds_snoc_iff.1 hf
    cases hx
    exact (ih h₁).item (by simp [atom, Expr.code]) rfl (ih h₁).outer
  | any _ ih =>
    obtain ⟨e₁, h₁, hx⟩ := feeds_snoc_iff.1 hf
    cases hx
    exact (ih h₁).item (by simp [atom, Expr.code]) rfl (ih h₁).outer
  | group _ _ ih ihGroup =>
    rw [List.append_assoc] at hf
    obtain ⟨e₁, h₁, hgroup⟩ := feeds_append_iff.1 hf
    obtain ⟨e₂, level, outer, h₂, houter, rfl⟩ := exists_of_feeds_group hgroup
    have inside := ihGroup h₂
    -- the level on top of the stack is the one that the opening bracket left there
    rw [inside.outer] at houter
    cases houter
    exact (ih h₁).item inside.code rfl (ih h₁).outer
  | plus _ ih =>
    obtain ⟨e₁, h₁, hx⟩ := feeds_snoc_iff.1 hf
    exact (ih h₁).replace ((ih h₁).endsIn.plus hx)
  | star _ ih =>
    obtain ⟨e₁, h₁, hx⟩ := feeds_snoc_iff.1 hf
    exact (ih h₁).replace ((ih h₁).endsIn.star hx)
  | bar _ ih =>
    obtain ⟨e₁, h₁, hx⟩ := feeds_snoc_iff.1 hf
    exact (ih h₁).replace ((ih h₁).endsIn.bar hx)

/-! ## Accepted texts -/

/-- The emitter has read a text that has a meaning: it has as many levels as groups are open, and
where it admits an operator there is an item for it. -/
def Follows (s : List Symbol) (e : Emitter) : Prop :=
  ∃ n outer, Opens s n outer ∧ outer.length = e.depth ∧ (e.level.hasAtom = true → n ≠ .blank)

theorem follows_start : Follows [] .start :=
  ⟨.blank, [], .level .blank, rfl, fun h => by cases h⟩

/-- One more item at the end of the innermost level. -/
theorem Follows.item {s u : List Symbol} {e e' : Emitter} {x : Expr} (h : Follows s e)
    (hu : ∀ r n, Reads r n → Reads (r ++ u) (n.item x)) (hd : e'.depth = e.depth) :
    Follows (s ++ u) e' := by
  obtain ⟨n, outer, ho, hlen, -⟩ := h
  exact ⟨n.item x, outer, ho.extend fun r hr => hu r n hr, hlen.trans hd.symm,
    fun _ => item_ne_blank n x⟩

/-- An operator, where one is admitted. -/
theorem Follows.operator {s u : List Symbol} {e e' : Emitter} {f : Expr → Expr} (h : Follows s e)
    (ha : e.level.hasAtom = true)
    (hu : ∀ r n x, Reads r (Nesting.item n x) → Reads (r ++ u) (n.item (f x)))
    (hd : e'.depth = e.depth) : Follows (s ++ u) e' := by
  obtain ⟨n, outer, ho, hlen, hn⟩ := h
  obtain ⟨m, x, rfl⟩ := ho.eq_item (hn ha)
  exact ⟨m.item (f x), outer, ho.extend fun r hr => hu r m x hr, hlen.trans hd.symm,
    fun _ => item_ne_blank m (f x)⟩

theorem Follows.feed {s : List Symbol} {e e' : Emitter} {x : Symbol} (h : Follows s e)
    (hx : e.feed x = .ok e') : Follows (s ++ [x]) e' := by
  cases x with
  | literal b =>
    cases hx
    exact h.item (fun _ _ hr => hr.literal b) rfl
  | any =>
    cases hx
    exact h.item (fun _ _ hr => hr.any) rfl
  | groupOpen =>
    obtain ⟨-, rfl⟩ := feed_groupOpen_eq_ok_iff.1 hx
    obtain ⟨n, outer, ho, hlen, -⟩ := h
    refine ⟨.blank, n.item .empty :: outer, .group ho .blank, ?_, fun h => by cases h⟩
    simp [hlen, depth]
  | groupClose =>
    obtain ⟨level, rest, hrest, rfl⟩ := feed_groupClose_eq_ok_iff.1 hx
    obtain ⟨n, outer, ho, hlen, -⟩ := h
    cases ho with
    | level _ => simp [depth, hrest] at hlen
    | group ho hr =>
      refine ⟨_, _, (Opens.group ho hr).close, ?_, fun _ => item_ne_blank _ _⟩
      simpa [depth, hrest] using hlen
  | plus =>
    obtain ⟨ha, rfl⟩ := feed_plus_eq_ok_iff.1 hx
    exact h.operator ha (fun _ _ _ hr => hr.plus) rfl
  | star =>
    obtain ⟨ha, rfl⟩ := feed_star_eq_ok_iff.1 hx
    exact h.operator ha (fun _ _ _ hr => hr.star) rfl
  | bar =>
    obtain ⟨ha, rfl⟩ := feed_bar_eq_ok_iff.1 hx
    exact h.operator ha (fun _ _ _ hr => hr.bar) rfl

theorem follows_of_feeds {s : List Symbol} {e : Emitter} (h : Feeds start s e) : Follows s e := by
  have := h.induction_on (r := []) (fun _ _ _ _ hr hx => hr.feed hx) follows_start
  simpa using this

end Emitter

namespace Pattern

/-- An accepted pattern compiles as the closed text does that it is with its open groups closed: the
brackets that close them emit nothing. -/
theorem exists_closed_of_compile {pattern : Bytes} {p : Program} (h : compile pattern = .ok p) :
    ∃ d n e, Reads (pattern.map Symbol.ofByte ++ List.replicate d .groupClose) n ∧
      Emitter.Feeds .start (pattern.map Symbol.ofByte ++ List.replicate d .groupClose) e ∧
        e.finish = p := by
  obtain ⟨e, he, rfl⟩ := compile_eq_ok_iff.1 h
  obtain ⟨n, outer, ho, hlen, -⟩ := Emitter.follows_of_feeds he
  obtain ⟨m, hm⟩ := ho.reads
  obtain ⟨e', hclose, hcode, -⟩ := Emitter.exists_feeds_replicate_groupClose (Nat.le_refl e.depth)
  rw [hlen] at hm
  refine ⟨e.depth, m, e', hm, Emitter.feeds_append_iff.2 ⟨e, he, hclose⟩, ?_⟩
  simp [Emitter.finish, hcode]

/-- An accepted pattern denotes an expression, and its program is the code of it. -/
theorem exists_denotes_of_compile {pattern : Bytes} {p : Program} (h : compile pattern = .ok p) :
    ∃ e, Denotes pattern e ∧ p.code.toList = e.code 0 ++ [.accept] := by
  obtain ⟨d, n, e, hr, hf, rfl⟩ := exists_closed_of_compile h
  have hcode := (Emitter.emits_of_feeds hr hf).code
  refine ⟨n.expr, ⟨d, n, hr, rfl⟩, ?_⟩
  simp [Emitter.finish, hcode, Emitter.start]

/-! ## Main statement -/

/-- **Code from the tree.**  An accepted pattern denotes exactly one expression, and compiles to
its code, instruction by instruction, and a final one. -/
theorem compile_eq_code {pattern : Bytes} {p : Program} (h : compile pattern = .ok p) :
    ∃ e, Denotes pattern e ∧ (∀ e', Denotes pattern e' → e' = e) ∧
      p.code.toList = e.code 0 ++ [.accept] := by
  obtain ⟨e, he, hcode⟩ := exists_denotes_of_compile h
  exact ⟨e, he, fun e' he' => he'.eq_ofPattern.trans he.eq_ofPattern.symm, hcode⟩

/-- A starred group that ends in a bar, and a group left open. -/
theorem compile_eq_code_star_of_bar :
    compile (ascii "(a|)*(.+") =
        .ok ⟨#[.split 1 4, .split 2 3, .byte 97, .jump 0, .any, .split 4 6, .accept]⟩ ∧
      ∃ e, Denotes (ascii "(a|)*(.+") e ∧ (∀ e', Denotes (ascii "(a|)*(.+") e' → e' = e) ∧
        [.split 1 4, .split 2 3, .byte 97, .jump 0, .any, .split 4 6, .accept] =
          e.code 0 ++ [.accept] := by
  have h : compile (ascii "(a|)*(.+") =
      .ok ⟨#[.split 1 4, .split 2 3, .byte 97, .jump 0, .any, .split 4 6, .accept]⟩ := by cbv
  exact ⟨h, compile_eq_code h⟩

end Pattern

end SweepRegex
