import SweepRegex.Proofs.Pattern.Emission
import SweepRegex.Proofs.Pattern.Placement

/-!
# Branches of compiled programs

Where the branches of a compiled program lead.  A jump leads back to a split that leads past it, a
split leads to the next instruction and over some code, forwards or backwards, and the stretches
that branches span are nested in each other or lie side by side (`WellFormed`).

The proof goes through the expression of the pattern.  An operator is accepted only where there is
code for it to repeat or to skip (`Solid`), and code that is put together from the code of solid
expressions keeps its branches to itself (`Tidy`).

    compile pattern = .ok p → p.WellFormed                                  (wellFormed_of_compile)
-/

namespace SweepRegex

/-! ## Spans -/

/-- The stretch between an instruction at the place `pc` and the place it may send a thread to, for
a split the one of its two targets that is not the next place. -/
def Instr.span? (pc : Nat) : Instr → Option (Nat × Nat)
  | .jump x => some (min pc x, max pc x)
  | .split x y =>
    let far := if x = pc + 1 then y else x
    some (min pc far, max pc far)
  | _ => none

/-- One stretch lies inside the other, or they have no more than an end in common. -/
def Laminar (s t : Nat × Nat) : Prop :=
  s.2 ≤ t.1 ∨ t.2 ≤ s.1 ∨ (t.1 ≤ s.1 ∧ s.2 ≤ t.2) ∨ (s.1 ≤ t.1 ∧ t.2 ≤ s.2)

theorem Laminar.symm {s t : Nat × Nat} (h : Laminar s t) : Laminar t s := by
  unfold Laminar at h ⊢
  omega

theorem Laminar.of_le {s t : Nat × Nat} (h₁ : s.1 ≤ t.1) (h₂ : t.2 ≤ s.2) : Laminar s t :=
  .inr (.inr (.inr ⟨h₁, h₂⟩))

/-- Of two stretches that start at the same place, one lies inside the other. -/
theorem Laminar.of_eq {s t : Nat × Nat} (h : s.1 = t.1) : Laminar s t := by
  unfold Laminar
  omega

namespace Program

/-- The stretch that the instruction at a place spans, if it branches. -/
def span? (p : Program) (pc : Nat) : Option (Nat × Nat) := p.code[pc]?.bind (Instr.span? pc)

section
variable {p : Program} {pc x y : Nat}

theorem span?_of_jump (h : p.code[pc]? = some (.jump x)) (hx : x < pc) :
    p.span? pc = some (x, pc) := by
  rw [span?, h]
  simp only [Option.bind_some, Instr.span?, Option.some.injEq, Prod.mk.injEq]
  omega

theorem span?_of_split_over (h : p.code[pc]? = some (.split (pc + 1) y)) (hy : pc < y) :
    p.span? pc = some (pc, y) := by
  rw [span?, h]
  simp only [Option.bind_some, Instr.span?, if_true, Option.some.injEq, Prod.mk.injEq]
  omega

theorem span?_of_split_back (h : p.code[pc]? = some (.split x (pc + 1))) (hx : x < pc) :
    p.span? pc = some (x, pc) := by
  have hne : x ≠ pc + 1 := by omega
  rw [span?, h]
  simp only [Option.bind_some, Instr.span?, hne, if_false, Option.some.injEq, Prod.mk.injEq]
  omega

end

/-- The shape of a compiled program. -/
structure WellFormed (p : Program) : Prop where
  /-- The last instruction accepts. -/
  accept_last : p.code[p.size - 1]? = some .accept
  /-- No other instruction does. -/
  accept_only : ∀ pc : Nat, p.code[pc]? = some .accept → pc = p.size - 1
  /-- A jump leads back to the split that leads past it. -/
  jump : ∀ pc t : Nat, p.code[pc]? = some (.jump t) →
    t < pc ∧ p.code[t]? = some (.split (t + 1) (pc + 1))
  /-- A split leads to the next place, and further on or back. -/
  split : ∀ pc x y : Nat, p.code[pc]? = some (.split x y) →
    (x = pc + 1 ∧ pc + 1 < y ∧ y < p.size) ∨ (y = pc + 1 ∧ pc + 1 < p.size ∧ x < pc)
  /-- No two branches cross. -/
  nested : ∀ i j s t, p.span? i = some s → p.span? j = some t → Laminar s t

/-- Every place a well-formed program branches to is one of its places. -/
theorem WellFormed.target_lt {p : Program} (h : p.WellFormed) {i : Instr} (hi : i ∈ p.code)
    {t : Nat} (ht : t ∈ i.targets) : t < p.size := by
  obtain ⟨pc, hpc, hcode⟩ := Array.mem_iff_getElem.1 hi
  have hget : p.code[pc]? = some i := Array.getElem?_eq_some_iff.2 ⟨hpc, hcode⟩
  have hlt : pc < p.size := hpc
  cases i with
  | jump x =>
    have := (h.jump pc x hget).1
    obtain rfl : t = x := by simpa [Instr.targets] using ht
    omega
  | split x y =>
    have := h.split pc x y hget
    obtain rfl | rfl : t = x ∨ t = y := by simpa [Instr.targets] using ht
    · omega
    · omega
  | _ => simp [Instr.targets] at ht

/-! ## Stretches of code -/

/-- The instruction at the place does not accept, and if it branches it does so inside the stretch
from `a` to `b`, whose end `b` is the place at which control leaves it. -/
def BranchesWithin (p : Program) (a b pc : Nat) : Prop :=
  match p.code[pc]? with
  | some .accept => False
  | some (.jump t) => a ≤ t ∧ t < pc ∧ p.code[t]? = some (.split (t + 1) (pc + 1))
  | some (.split x y) => (x = pc + 1 ∧ pc + 1 < y ∧ y ≤ b) ∨ (y = pc + 1 ∧ a ≤ x ∧ x < pc)
  | _ => True

/-- A stretch whose branches stay inside and do not cross. -/
structure Tidy (p : Program) (a b : Nat) : Prop where
  within : ∀ pc, a ≤ pc → pc < b → p.BranchesWithin a b pc
  nested : ∀ i j s t, a ≤ i → i < b → a ≤ j → j < b → p.span? i = some s → p.span? j = some t →
    Laminar s t

section
variable {p : Program} {a b c pc : Nat} {s t : Nat × Nat}

theorem BranchesWithin.mono {a' b' : Nat} (h : p.BranchesWithin a b pc) (ha : a' ≤ a)
    (hb : b ≤ b') : p.BranchesWithin a' b' pc := by
  unfold BranchesWithin at h ⊢
  split at h
  · exact h
  · exact ⟨Nat.le_trans ha h.1, h.2⟩
  · omega
  · exact h

/-- What a branch inside a stretch spans is inside the stretch. -/
theorem BranchesWithin.span_le (h : p.BranchesWithin a b pc) (ha : a ≤ pc) (hb : pc < b)
    (hs : p.span? pc = some s) : a ≤ s.1 ∧ s.2 ≤ b := by
  unfold BranchesWithin at h
  split at h
  · exact h.elim
  · next t ht =>
    obtain rfl : (t, pc) = s := Option.some.inj ((span?_of_jump ht h.2.1).symm.trans hs)
    exact ⟨h.1, Nat.le_of_lt hb⟩
  · next x y hxy =>
    rcases h with ⟨rfl, hy, hyb⟩ | ⟨rfl, hxa, hx⟩
    · obtain rfl : (pc, y) = s :=
        Option.some.inj ((span?_of_split_over hxy (by omega)).symm.trans hs)
      exact ⟨ha, hyb⟩
    · obtain rfl : (x, pc) = s := Option.some.inj ((span?_of_split_back hxy hx).symm.trans hs)
      exact ⟨hxa, Nat.le_of_lt hb⟩
  · next hjump hsplit =>
    obtain ⟨i, hi, hspan⟩ := Option.bind_eq_some_iff.1 hs
    cases i with
    | jump t => exact absurd hi (hjump t)
    | split x y => exact absurd hi (hsplit x y)
    | _ => simp [Instr.span?] at hspan

/-- Two tidy stretches, one behind the other. -/
theorem Tidy.append (h₁ : p.Tidy a b) (h₂ : p.Tidy b c) (hab : a ≤ b) (hbc : b ≤ c) :
    p.Tidy a c where
  within pc ha hc := by
    by_cases hb : pc < b
    · exact (h₁.within pc ha hb).mono (Nat.le_refl a) hbc
    · exact (h₂.within pc (by omega) hc).mono hab (Nat.le_refl c)
  nested i j s t hai hic haj hjc hs ht := by
    have before {k : Nat} {u : Nat × Nat} (hak : a ≤ k) (hkb : k < b) (hu : p.span? k = some u) :
        u.2 ≤ b := ((h₁.within k hak hkb).span_le hak hkb hu).2
    have behind {k : Nat} {u : Nat × Nat} (hbk : ¬k < b) (hkc : k < c) (hu : p.span? k = some u) :
        b ≤ u.1 := ((h₂.within k (by omega) hkc).span_le (by omega) hkc hu).1
    by_cases hi : i < b
    · by_cases hj : j < b
      · exact h₁.nested i j s t hai hi haj hj hs ht
      · exact .inl (Nat.le_trans (before hai hi hs) (behind hj hjc ht))
    · by_cases hj : j < b
      · exact .inr (.inl (Nat.le_trans (before haj hj ht) (behind hi hic hs)))
      · exact h₂.nested i j s t (by omega) hic (by omega) hjc hs ht

/-- A stretch with more instructions around it.  The new branches stay inside the longer stretch,
and each of them spans everything from its start to the end of the old one. -/
theorem Tidy.wrap {a' b' : Nat} (h : p.Tidy a b) (ha : a' ≤ a) (hb : b ≤ b')
    (new : ∀ pc, a' ≤ pc → pc < b' → ¬(a ≤ pc ∧ pc < b) → p.BranchesWithin a' b' pc ∧
      ∀ s, p.span? pc = some s → s.1 = a' ∧ b ≤ s.2) :
    p.Tidy a' b' where
  within pc ha' hb' := by
    by_cases hold : a ≤ pc ∧ pc < b
    · exact (h.within pc hold.1 hold.2).mono ha hb
    · exact (new pc ha' hb' hold).1
  nested i j s t hai hib haj hjb hs ht := by
    have old {k : Nat} {u : Nat × Nat} (hk : a ≤ k ∧ k < b) (hu : p.span? k = some u) :
        a' ≤ u.1 ∧ u.2 ≤ b := by
      obtain ⟨h₁, h₂⟩ := (h.within k hk.1 hk.2).span_le hk.1 hk.2 hu
      exact ⟨Nat.le_trans ha h₁, h₂⟩
    by_cases hi : a ≤ i ∧ i < b
    · by_cases hj : a ≤ j ∧ j < b
      · exact h.nested i j s t hi.1 hi.2 hj.1 hj.2 hs ht
      · obtain ⟨hstart, hend⟩ := (new j haj hjb hj).2 t ht
        obtain ⟨h₁, h₂⟩ := old hi hs
        exact (Laminar.of_le (by omega) (Nat.le_trans h₂ hend)).symm
    · obtain ⟨hstart, hend⟩ := (new i hai hib hi).2 s hs
      by_cases hj : a ≤ j ∧ j < b
      · obtain ⟨h₁, h₂⟩ := old hj ht
        exact .of_le (by omega) (Nat.le_trans h₂ hend)
      · have hstart' := ((new j haj hjb hj).2 t ht).1
        exact .of_eq (hstart.trans hstart'.symm)

/-- A single instruction that neither branches nor accepts. -/
theorem Tidy.single {i : Instr} (hi : p.code[a]? = some i) (hbranch : i.isBranch = false)
    (haccept : i ≠ .accept) : p.Tidy a (a + 1) where
  within pc h₁ h₂ := by
    obtain rfl : pc = a := by omega
    unfold BranchesWithin
    rw [hi]
    cases i <;> simp_all [Instr.isBranch]
  nested i' j s t h₁ h₂ _ _ hs _ := by
    obtain rfl : i' = a := by omega
    rw [span?, hi] at hs
    cases i <;> simp_all [Instr.isBranch, Instr.span?]

/-! ## Code of the operators -/

theorem Tidy.plus (h : p.Tidy a b) (hab : a < b) (hsplit : p.code[b]? = some (.split a (b + 1))) :
    p.Tidy a (b + 1) := by
  refine h.wrap (Nat.le_refl a) (Nat.le_succ b) fun pc h₁ h₂ hnew => ?_
  obtain rfl : pc = b := by omega
  constructor
  · unfold BranchesWithin
    rw [hsplit]
    exact .inr ⟨rfl, Nat.le_refl a, hab⟩
  · intro s hs
    obtain rfl : (a, pc) = s := Option.some.inj ((span?_of_split_back hsplit hab).symm.trans hs)
    exact ⟨rfl, Nat.le_refl pc⟩

theorem Tidy.opt (h : p.Tidy (a + 1) b) (hab : a + 1 < b)
    (hsplit : p.code[a]? = some (.split (a + 1) b)) : p.Tidy a b := by
  refine h.wrap (Nat.le_succ a) (Nat.le_refl b) fun pc h₁ h₂ hnew => ?_
  obtain rfl : pc = a := by omega
  constructor
  · unfold BranchesWithin
    rw [hsplit]
    exact .inl ⟨rfl, hab, Nat.le_refl b⟩
  · intro s hs
    have hspan := span?_of_split_over hsplit (by omega)
    obtain rfl : (pc, b) = s := Option.some.inj (hspan.symm.trans hs)
    exact ⟨rfl, Nat.le_refl b⟩

theorem Tidy.star (h : p.Tidy (a + 1) b) (hab : a + 1 ≤ b)
    (hsplit : p.code[a]? = some (.split (a + 1) (b + 1))) (hjump : p.code[b]? = some (.jump a)) :
    p.Tidy a (b + 1) := by
  refine h.wrap (Nat.le_succ a) (Nat.le_succ b) fun pc h₁ h₂ hnew => ?_
  have hends : pc = a ∨ pc = b := by omega
  rcases hends with rfl | rfl
  · constructor
    · unfold BranchesWithin
      rw [hsplit]
      exact .inl ⟨rfl, by omega, Nat.le_refl _⟩
    · intro s hs
      have hspan := span?_of_split_over hsplit (by omega)
      obtain rfl : (pc, b + 1) = s := Option.some.inj (hspan.symm.trans hs)
      exact ⟨rfl, Nat.le_succ b⟩
  · constructor
    · unfold BranchesWithin
      rw [hjump]
      exact ⟨Nat.le_refl a, hab, hsplit⟩
    · -- the jump goes back to the place of the split, so it spans the code in between as well
      intro s hs
      obtain rfl : (a, pc) = s := Option.some.inj ((span?_of_jump hjump hab).symm.trans hs)
      exact ⟨rfl, Nat.le_refl pc⟩

end

end Program

/-! ## Code of a solid expression -/

/-- Every operator in the expression has an operand that compiles to some code. -/
def Expr.Solid : Expr → Prop
  | .empty | .byte _ | .any => True
  | .seq e f => e.Solid ∧ f.Solid
  | .plus e | .star e | .opt e => 0 < e.size ∧ e.Solid

theorem Program.tidy_of_holds {p : Program} {e : Expr} (he : e.Solid) {o : Nat}
    (h : p.Holds o (e.code o)) : p.Tidy o (o + e.size) := by
  induction e generalizing o with
  | empty => exact ⟨fun _ h₁ h₂ => by simp [Expr.size] at h₂; omega, by simp [Expr.size]; omega⟩
  | byte b => exact .single h.1 rfl (by simp)
  | any => exact .single h.1 rfl (by simp)
  | seq e f ihe ihf =>
    simp only [Expr.code, holds_append, Expr.length_code] at h
    rw [Expr.size, ← Nat.add_assoc]
    exact (ihe he.1 h.1).append (ihf he.2 h.2) (Nat.le_add_right _ _) (Nat.le_add_right _ _)
  | plus e ih =>
    obtain ⟨hpos, hsolid⟩ := he
    simp only [Expr.code, holds_append, holds_cons, Expr.length_code] at h
    exact (ih hsolid h.1).plus (by omega) h.2.1
  | star e ih =>
    obtain ⟨-, hsolid⟩ := he
    simp only [Expr.code, List.cons_append, holds_append, holds_cons, Expr.length_code] at h
    obtain ⟨hsplit, hinside, hjump, -⟩ := h
    have hend : o + 1 + e.size = o + e.size + 1 := by omega
    rw [hend] at hjump
    have hinside' := ih hsolid hinside
    rw [hend] at hinside'
    exact hinside'.star (by omega) hsplit hjump
  | opt e ih =>
    obtain ⟨hpos, hsolid⟩ := he
    obtain ⟨hsplit, hinside⟩ := h
    have hend : o + 1 + e.size = o + e.size + 1 := by omega
    have hinside' := ih hsolid hinside
    rw [hend] at hinside'
    exact hinside'.opt (by omega) hsplit

/-- The code of a solid expression with a final instruction behind it. -/
theorem Program.wellFormed_of_solid {p : Program} {e : Expr} (he : e.Solid)
    (hcode : p.code.toList = e.code 0 ++ [.accept]) : p.WellFormed := by
  have hsize : p.size = e.size + 1 := by
    rw [Program.size, ← Array.length_toList, hcode]
    simp
  obtain ⟨hholds, hlast⟩ := holds_append.1 (holds_of_drop_eq (o := 0) hcode)
  have hlast' : p.code[e.size]? = some .accept := by simpa using hlast
  have htidy := tidy_of_holds he hholds
  rw [Nat.zero_add] at htidy
  -- a place that holds anything but the final instruction is one of the expression's
  have inside {pc : Nat} {i : Instr} (hi : p.code[pc]? = some i) (hne : i ≠ .accept) :
      pc < e.size := by
    have hlt : pc < p.size := (Array.getElem?_eq_some_iff.1 hi).1
    have hpc : pc ≠ e.size := by
      rintro rfl
      exact hne (Option.some.inj (hi.symm.trans hlast'))
    omega
  refine ⟨by rwa [hsize], fun pc hpc => ?_, fun pc t hpc => ?_, fun pc x y hpc => ?_, ?_⟩
  · have hlt : pc < p.size := (Array.getElem?_eq_some_iff.1 hpc).1
    rcases Nat.lt_or_ge pc e.size with hin | hout
    · have hwithin := htidy.within pc (Nat.zero_le pc) hin
      simp [BranchesWithin, hpc] at hwithin
    · omega
  · have hwithin := htidy.within pc (Nat.zero_le pc) (inside hpc (by simp))
    simp only [BranchesWithin, hpc] at hwithin
    exact hwithin.2
  · have hlt := inside hpc (by simp)
    have hwithin := htidy.within pc (Nat.zero_le pc) hlt
    simp only [BranchesWithin, hpc] at hwithin
    omega
  · intro i j s t hs ht
    have branch {k : Nat} {u : Nat × Nat} (hu : p.span? k = some u) : k < e.size := by
      obtain ⟨instr, hinstr, hspan⟩ := Option.bind_eq_some_iff.1 hu
      refine inside hinstr ?_
      rintro rfl
      simp [Instr.span?] at hspan
    exact htidy.nested i j s t (Nat.zero_le i) (branch hs) (Nat.zero_le j) (branch ht) hs ht

/-! ## Accepted patterns -/

open Pattern

namespace Emitter

/-- The level that a text makes is solid, and where an operator may follow there is code for it. -/
structure Supports (n : Nesting) (e : Emitter) : Prop where
  solid : n.expr.Solid
  last : e.level.hasAtom = true → 0 < n.last.size

theorem Supports.item {e e' : Emitter} {n : Nesting} {x : Expr} (h : Supports n e) (hx : x.Solid)
    (hlast : e'.level.hasAtom = true → 0 < x.size) : Supports (n.item x) e' :=
  ⟨⟨h.solid, hx⟩, hlast⟩

/-- An operator that is taken has something to apply to. -/
theorem Supports.operand {e : Emitter} {n : Nesting} {x : Expr} (h : Supports (n.item x) e)
    (ha : e.level.hasAtom = true) : n.expr.Solid ∧ 0 < x.size ∧ x.Solid :=
  ⟨h.solid.1, h.last ha, h.solid.2⟩

theorem supports_of_feeds {s : List Symbol} {n : Nesting} (h : Reads s n) {e e' : Emitter}
    (hf : Feeds e s e') (he : e.level.hasAtom = false) : Supports n e' := by
  induction h generalizing e e' with
  | blank =>
    cases hf
    exact ⟨⟨trivial, trivial⟩, fun ha => by simp [he] at ha⟩
  | literal b _ ih =>
    obtain ⟨e₁, h₁, -⟩ := feeds_snoc_iff.1 hf
    exact (ih h₁ he).item trivial fun _ => Nat.one_pos
  | any _ ih =>
    obtain ⟨e₁, h₁, -⟩ := feeds_snoc_iff.1 hf
    exact (ih h₁ he).item trivial fun _ => Nat.one_pos
  | group _ hr ih ihGroup =>
    rw [List.append_assoc] at hf
    obtain ⟨e₁, h₁, hgroup⟩ := feeds_append_iff.1 hf
    obtain ⟨e₂, level, outer, h₂, houter, rfl⟩ := exists_of_feeds_group hgroup
    have inside := emits_of_feeds hr h₂
    rw [inside.outer] at houter
    cases houter
    refine (ih h₁ he).item (ihGroup h₂ rfl).solid fun ha => ?_
    have hsize := inside.size
    simp only [decide_eq_true_eq] at ha hsize
    omega
  | plus _ ih =>
    obtain ⟨e₁, h₁, hx⟩ := feeds_snoc_iff.1 hf
    obtain ⟨ha, rfl⟩ := feed_plus_eq_ok_iff.1 hx
    obtain ⟨hn, hx⟩ := (ih h₁ he).operand ha
    exact ⟨⟨hn, hx⟩, fun _ => Nat.succ_pos _⟩
  | star _ ih =>
    obtain ⟨e₁, h₁, hx⟩ := feeds_snoc_iff.1 hf
    obtain ⟨ha, rfl⟩ := feed_star_eq_ok_iff.1 hx
    obtain ⟨hn, hx⟩ := (ih h₁ he).operand ha
    exact ⟨⟨hn, hx⟩, fun _ => Nat.succ_pos _⟩
  | bar _ ih =>
    obtain ⟨e₁, h₁, hx⟩ := feeds_snoc_iff.1 hf
    obtain ⟨ha, rfl⟩ := feed_bar_eq_ok_iff.1 hx
    obtain ⟨hn, hx⟩ := (ih h₁ he).operand ha
    exact ⟨⟨hn, hx⟩, fun _ => Nat.succ_pos _⟩

end Emitter

namespace Pattern

/-- The expression of an accepted pattern is solid. -/
theorem exists_solid_of_compile {pattern : Bytes} {p : Program} (h : compile pattern = .ok p) :
    ∃ e : Expr, e.Solid ∧ p.code.toList = e.code 0 ++ [.accept] := by
  obtain ⟨d, n, e, hr, hf, rfl⟩ := exists_closed_of_compile h
  have hcode := (Emitter.emits_of_feeds hr hf).code
  refine ⟨n.expr, (Emitter.supports_of_feeds hr hf rfl).solid, ?_⟩
  simp [Emitter.finish, hcode, Emitter.start]

/-! ## Main statement -/

/-- **Branches.**  The program of an accepted pattern ends in its only accepting instruction, its
jumps and splits are paired and lead where they should, no two branches cross, and no branch leads
out of the program. -/
theorem wellFormed_of_compile {pattern : Bytes} {p : Program} (h : compile pattern = .ok p) :
    p.WellFormed ∧ ∀ i ∈ p.code, ∀ t ∈ i.targets, t < p.size := by
  obtain ⟨e, he, hcode⟩ := exists_solid_of_compile h
  have hwf := Program.wellFormed_of_solid he hcode
  exact ⟨hwf, fun i hi t ht => hwf.target_lt hi ht⟩

/-- Loops around each other, a bar, and a split that leads back. -/
theorem wellFormed_of_compile_loops :
    ∃ p, compile (ascii "((a|)*b+)*") = .ok p ∧
      p.code = #[.split 1 8, .split 2 5, .split 3 4, .byte 97, .jump 1, .byte 98, .split 5 7,
        .jump 0, .accept] ∧
      p.WellFormed ∧ ∀ i ∈ p.code, ∀ t ∈ i.targets, t < p.size := by
  have h : compile (ascii "((a|)*b+)*") =
      .ok ⟨#[.split 1 8, .split 2 5, .split 3 4, .byte 97, .jump 1, .byte 98, .split 5 7, .jump 0,
        .accept]⟩ := by cbv
  exact ⟨_, h, rfl, wellFormed_of_compile h⟩

end Pattern

end SweepRegex
