import SweepRegex.Pattern.Compile

/-!
# Feeding symbols to the emitter

The compiler's loop as a relation.  `Feeds e s e'` says that the emitter `e` takes all of the
symbols `s` and is `e'` then; no offsets are kept.  For each symbol that can be refused, one lemma
says when it is taken and what the emitter is afterwards.

    e.feedAll offset s = .ok e' ↔ Feeds e (s.map Symbol.ofByte) e'        (feedAll_eq_ok_iff)
-/

namespace SweepRegex

namespace Emitter

/-! ## Algorithm -/

/-- The emitter after a text of symbols, each of which it takes. -/
inductive Feeds : Emitter → List Symbol → Emitter → Prop where
  | nil (e : Emitter) : Feeds e [] e
  | cons {e e₁ e₂ : Emitter} {x : Symbol} {s : List Symbol} :
      e.feed x = .ok e₁ → Feeds e₁ s e₂ → Feeds e (x :: s) e₂

/-! ## One symbol -/

theorem ite_error_eq_ok_iff {ε α : Type} {c : Prop} [Decidable c] {x : ε} {a b : α} :
    (if c then .ok a else .error x : Except ε α) = .ok b ↔ c ∧ b = a := by
  by_cases hc : c
  · simp [hc, eq_comm]
  · simp [hc]

theorem feed_groupOpen_eq_ok_iff {e e' : Emitter} :
    e.feed .groupOpen = .ok e' ↔
      e.depth < maxDepth ∧
        e' = { e with level := ⟨e.code.size, false⟩, outer := ⟨e.code.size, false⟩ :: e.outer } :=
  ite_error_eq_ok_iff

theorem feed_groupClose_eq_ok_iff {e e' : Emitter} :
    e.feed .groupClose = .ok e' ↔
      ∃ level outer, e.outer = level :: outer ∧
        e' = { e with level := ⟨level.mark, decide (level.mark < e.code.size)⟩, outer } := by
  rw [feed, closeGroup]
  cases he : e.outer with
  | nil => simp
  | cons level outer =>
    constructor
    · rintro ⟨⟩
      exact ⟨level, outer, rfl, rfl⟩
    · rintro ⟨_, _, ⟨⟩, rfl⟩
      rfl

theorem feed_plus_eq_ok_iff {e e' : Emitter} :
    e.feed .plus = .ok e' ↔
      e.level.hasAtom = true ∧
        e' = { e with code := e.code.push (.split e.level.mark (e.code.size + 1)) } :=
  ite_error_eq_ok_iff

theorem feed_star_eq_ok_iff {e e' : Emitter} :
    e.feed .star = .ok e' ↔
      e.level.hasAtom = true ∧
        e' = { e with
          code := (insertAt e.code e.level.mark
            (.split (e.level.mark + 1) (e.code.size + 2))).push (.jump e.level.mark) } :=
  ite_error_eq_ok_iff

theorem feed_bar_eq_ok_iff {e e' : Emitter} :
    e.feed .bar = .ok e' ↔
      e.level.hasAtom = true ∧
        e' = { e with
          code := insertAt e.code e.level.mark (.split (e.level.mark + 1) (e.code.size + 1))
          level := ⟨e.level.mark, false⟩ } :=
  ite_error_eq_ok_iff

/-! ## Many symbols -/

theorem feedAll_eq_ok_iff {e e' : Emitter} {offset : Nat} {s : Bytes} :
    e.feedAll offset s = .ok e' ↔ Feeds e (s.map Symbol.ofByte) e' := by
  induction s generalizing e offset with
  | nil =>
    constructor
    · intro h
      cases h
      exact .nil _
    · intro h
      cases h
      rfl
  | cons b s ih =>
    rw [feedAll]
    constructor
    · intro h
      split at h
      · next e₁ h₁ => exact .cons h₁ (ih.1 h)
      · cases h
    · rintro ⟨⟩
      next e₁ h₁ h₂ =>
        rw [h₁]
        exact ih.2 h₂

/-- The text is refused at the first symbol that the emitter does not take. -/
theorem feedAll_eq_error_iff {e : Emitter} {offset : Nat} {s : Bytes} {fault : Fault} :
    e.feedAll offset s = .error fault ↔
      ∃ r b t e', s = r ++ b :: t ∧ fault.offset = offset + r.length ∧
        Feeds e (r.map Symbol.ofByte) e' ∧ e'.feed (Symbol.ofByte b) = .error fault.error := by
  induction s generalizing e offset with
  | nil => simp [feedAll]
  | cons b s ih =>
    rw [feedAll]
    constructor
    · intro h
      split at h
      · next e₁ h₁ =>
        obtain ⟨r, c, t, e', rfl, hoff, hr, hc⟩ := ih.1 h
        refine ⟨b :: r, c, t, e', rfl, ?_, .cons h₁ hr, hc⟩
        rw [hoff, List.length_cons]
        omega
      · next error hb =>
        cases h
        exact ⟨[], b, s, e, rfl, rfl, .nil e, hb⟩
    · rintro ⟨r, c, t, e', hs, hoff, hr, hc⟩
      cases r with
      | nil =>
        cases hs
        cases hr
        rw [hc]
        cases fault
        simpa using hoff.symm
      | cons d r =>
        cases hs
        cases hr with
        | cons h₁ hr =>
          rw [h₁]
          refine ih.2 ⟨r, c, t, e', rfl, ?_, hr, hc⟩
          rw [hoff, List.length_cons]
          omega

theorem feeds_append_iff {e e' : Emitter} {s t : List Symbol} :
    Feeds e (s ++ t) e' ↔ ∃ e₁, Feeds e s e₁ ∧ Feeds e₁ t e' := by
  induction s generalizing e with
  | nil =>
    constructor
    · intro h
      exact ⟨e, .nil e, h⟩
    · rintro ⟨_, ⟨⟩, h⟩
      exact h
  | cons x s ih =>
    constructor
    · rintro ⟨⟩
      next e₁ h₁ h =>
        obtain ⟨e₂, h₂, h₃⟩ := ih.1 h
        exact ⟨e₂, .cons h₁ h₂, h₃⟩
    · rintro ⟨e₂, ⟨⟩, h₃⟩
      next e₁ h₁ h₂ => exact .cons h₁ (ih.2 ⟨e₂, h₂, h₃⟩)

theorem feeds_snoc_iff {e e' : Emitter} {s : List Symbol} {x : Symbol} :
    Feeds e (s ++ [x]) e' ↔ ∃ e₁, Feeds e s e₁ ∧ e₁.feed x = .ok e' := by
  rw [feeds_append_iff]
  constructor
  · rintro ⟨e₁, h, hx⟩
    cases hx with
    | cons hx hnil =>
      cases hnil
      exact ⟨e₁, h, hx⟩
  · rintro ⟨e₁, h, hx⟩
    exact ⟨e₁, h, .cons hx (.nil e')⟩

/-- A group is read with one more level, and ends with the level that is left to be around it. -/
theorem exists_of_feeds_group {t : List Symbol} {e e' : Emitter}
    (h : Feeds e (.groupOpen :: t ++ [.groupClose]) e') :
    ∃ e₂ level outer,
      Feeds { e with level := ⟨e.code.size, false⟩, outer := ⟨e.code.size, false⟩ :: e.outer } t e₂ ∧
        e₂.outer = level :: outer ∧
        e' = { e₂ with level := ⟨level.mark, decide (level.mark < e₂.code.size)⟩, outer } := by
  obtain ⟨e₂, hinside, hclose⟩ := feeds_snoc_iff.1 h
  obtain ⟨level, outer, houter, he'⟩ := feed_groupClose_eq_ok_iff.1 hclose
  cases hinside with
  | cons hopen hinside =>
    obtain ⟨-, rfl⟩ := feed_groupOpen_eq_ok_iff.1 hopen
    exact ⟨e₂, level, outer, hinside, houter, he'⟩

/-- What holds of the emitter and the text read so far after one more symbol holds of it after any
text. -/
theorem Feeds.induction_on {P : List Symbol → Emitter → Prop}
    (step : ∀ r e x e', P r e → e.feed x = .ok e' → P (r ++ [x]) e')
    {e e' : Emitter} {r s : List Symbol} (h : Feeds e s e') (he : P r e) : P (r ++ s) e' := by
  induction h generalizing r with
  | nil e => simpa using he
  | cons h₁ _ ih => simpa using ih (step r _ _ _ he h₁)

/-- Closing brackets are taken as long as there are open groups, and emit nothing. -/
theorem exists_feeds_replicate_groupClose {k : Nat} {e : Emitter} (hk : k ≤ e.depth) :
    ∃ e', Feeds e (List.replicate k .groupClose) e' ∧ e'.code = e.code ∧
      e'.depth + k = e.depth := by
  induction k generalizing e with
  | zero => exact ⟨e, .nil e, rfl, rfl⟩
  | succ k ih =>
    obtain ⟨code, level, outer⟩ := e
    cases outer with
    | nil => exact absurd hk (Nat.not_succ_le_zero k)
    | cons around outer =>
      have hk' : k ≤ outer.length := Nat.le_of_succ_le_succ hk
      obtain ⟨e', h, hcode, hdepth⟩ :=
        ih (e := ⟨code, ⟨around.mark, decide (around.mark < code.size)⟩, outer⟩) hk'
      refine ⟨e', .cons (feed_groupClose_eq_ok_iff.2 ⟨around, outer, rfl, rfl⟩) h, hcode, ?_⟩
      have hdepth' : e'.depth + k = outer.length := hdepth
      show e'.depth + (k + 1) = outer.length + 1
      omega

end Emitter

/-- A pattern compiles to what the emitter has after all its symbols, and a final instruction. -/
theorem Pattern.compile_eq_ok_iff {pattern : Bytes} {p : Program} :
    Pattern.compile pattern = .ok p ↔
      ∃ e, Emitter.Feeds .start (pattern.map Symbol.ofByte) e ∧ e.finish = p := by
  rw [Pattern.compile]
  constructor
  · intro h
    cases he : Emitter.start.feedAll 0 pattern with
    | error fault => rw [he] at h; cases h
    | ok e =>
      rw [he] at h
      cases h
      exact ⟨e, Emitter.feedAll_eq_ok_iff.1 he, rfl⟩
  · rintro ⟨e, he, rfl⟩
    rw [Emitter.feedAll_eq_ok_iff.2 he]
    rfl

/-- A pattern is refused at the first symbol that the emitter does not take. -/
theorem Pattern.compile_eq_error_iff {pattern : Bytes} {fault : Fault} :
    Pattern.compile pattern = .error fault ↔
      ∃ r b t e, pattern = r ++ b :: t ∧ fault.offset = r.length ∧
        Emitter.Feeds .start (r.map Symbol.ofByte) e ∧
          e.feed (Symbol.ofByte b) = .error fault.error := by
  have h : Pattern.compile pattern = .error fault ↔
      Emitter.start.feedAll 0 pattern = .error fault := by
    rw [Pattern.compile]
    cases Emitter.start.feedAll 0 pattern <;> simp [Except.map]
  rw [h, Emitter.feedAll_eq_error_iff]
  simp

end SweepRegex
