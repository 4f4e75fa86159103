import SweepRegex.Proofs.Pattern.Brackets
import SweepRegex.Proofs.Pattern.Feeding

/-!
# Faults by the text alone

The compiler finds a fault with the levels it keeps and the code it has emitted.  Here a fault is
a condition on the pattern: on the symbol at an offset, and on the text in front of it (`FaultAt`).
Emitting the symbols of a text makes as many levels as the text has open groups, and leaves the
innermost level without an item exactly if the text is `Bare`.

    compile pattern = .error fault ↔
      FaultAt pattern fault.offset fault.error ∧ no offset before it is at fault  (compile_faults)
-/

namespace SweepRegex

namespace Pattern

/-! ## Faulty symbols -/

/-- At the end of the text there is nothing that an operator could apply to. -/
inductive Bare : List Symbol → Prop where
  | start : Bare []
  | groupOpen (s : List Symbol) : Bare (s ++ [.groupOpen])
  | bar (s : List Symbol) : Bare (s ++ [.bar])
  /-- Between the closing bracket and its partner there are only brackets. -/
  | group (s : List Symbol) {t : List Symbol} : Balanced t → (∀ x ∈ t, x.isBracket = true) →
      Bare (s ++ .groupOpen :: t ++ [.groupClose])

/-- The symbol is at fault behind the text. -/
inductive Refuses : List Symbol → Symbol → PatternError → Prop where
  | overflow {s : List Symbol} : openGroups s = 10 → Refuses s .groupOpen .groupOverflow
  | unmatched {s : List Symbol} : openGroups s = 0 → Refuses s .groupClose .unmatchedClose
  | nothing {s : List Symbol} {x : Symbol} : x.isOperator = true → Bare s →
      Refuses s x .nothingToRepeat

/-- The byte at the offset is at fault. -/
def FaultAt (pattern : Bytes) (offset : Nat) (error : PatternError) : Prop :=
  ∃ b, pattern[offset]? = some b ∧
    Refuses ((pattern.take offset).map Symbol.ofByte) (Symbol.ofByte b) error

/-- A symbol has one fault at most. -/
theorem Refuses.unique {s : List Symbol} {x : Symbol} {error error' : PatternError}
    (h : Refuses s x error) (h' : Refuses s x error') : error = error' := by
  cases h with
  | overflow _ =>
    cases h' with
    | overflow _ => rfl
    | nothing hx _ => cases hx
  | unmatched _ =>
    cases h' with
    | unmatched _ => rfl
    | nothing hx _ => cases hx
  | nothing hx _ =>
    cases h' with
    | overflow _ => cases hx
    | unmatched _ => cases hx
    | nothing _ _ => rfl

/-- The faults, by the symbol at fault. -/
theorem refuses_iff {s : List Symbol} {x : Symbol} {error : PatternError} :
    Refuses s x error ↔
      (x = .groupOpen ∧ openGroups s = 10 ∧ error = .groupOverflow) ∨
      (x = .groupClose ∧ openGroups s = 0 ∧ error = .unmatchedClose) ∨
      (x.isOperator = true ∧ Bare s ∧ error = .nothingToRepeat) := by
  constructor
  · intro h
    cases h with
    | overflow hs => exact .inl ⟨rfl, hs, rfl⟩
    | unmatched hs => exact .inr (.inl ⟨rfl, hs, rfl⟩)
    | nothing hx hs => exact .inr (.inr ⟨hx, hs, rfl⟩)
  · rintro (⟨rfl, hs, rfl⟩ | ⟨rfl, hs, rfl⟩ | ⟨hx, hs, rfl⟩)
    · exact .overflow hs
    · exact .unmatched hs
    · exact .nothing hx hs

/-- Only the last symbol, and the group that it closes, make a text bare. -/
theorem bare_concat_iff {s : List Symbol} {x : Symbol} :
    Bare (s ++ [x]) ↔ x = .groupOpen ∨ x = .bar ∨
      (x = .groupClose ∧ ∃ r t, s = r ++ .groupOpen :: t ∧ Balanced t ∧
        ∀ y ∈ t, y.isBracket = true) := by
  constructor
  · intro h
    generalize hu : s ++ [x] = u at h
    cases h with
    | start => simp at hu
    | groupOpen r => exact .inl (List.append_singleton_inj.1 hu).2
    | bar r => exact .inr (.inl (List.append_singleton_inj.1 hu).2)
    | group r ht hbracket =>
      obtain ⟨hs, hx⟩ := List.append_singleton_inj.1 hu
      exact .inr (.inr ⟨hx, r, _, hs, ht, hbracket⟩)
  · rintro (rfl | rfl | ⟨rfl, r, t, rfl, ht, hbracket⟩)
    · exact .groupOpen s
    · exact .bar s
    · exact .group r ht hbracket

/-- Whether an offset is at fault depends on the pattern up to there. -/
theorem faultAt_congr {s t : Bytes} {offset : Nat} {error : PatternError}
    (h : s.take (offset + 1) = t.take (offset + 1)) :
    FaultAt s offset error ↔ FaultAt t offset error := by
  have hget : s[offset]? = t[offset]? := by
    have := congrArg (·[offset]?) h
    simpa [List.getElem?_take] using this
  have htake : s.take offset = t.take offset := by
    have := congrArg (List.take offset) h
    simpa [List.take_take] using this
  rw [FaultAt, FaultAt, hget, htake]

end Pattern

namespace Emitter

open Pattern

/-! ## The emitter behind a text -/

/-- A symbol other than a bracket leaves the levels around alone. -/
theorem outer_of_feed {e e' : Emitter} {x : Symbol} (hx : x.isBracket = false)
    (h : e.feed x = .ok e') : e'.outer = e.outer := by
  cases x with
  | literal b => cases h; rfl
  | any => cases h; rfl
  | groupOpen => cases hx
  | groupClose => cases hx
  | plus => obtain ⟨-, rfl⟩ := feed_plus_eq_ok_iff.1 h; rfl
  | star => obtain ⟨-, rfl⟩ := feed_star_eq_ok_iff.1 h; rfl
  | bar => obtain ⟨-, rfl⟩ := feed_bar_eq_ok_iff.1 h; rfl

/-- As many levels are kept as groups are open, and never more than allowed. -/
theorem depth_of_feeds {s : List Symbol} {e : Emitter} (h : Feeds start s e) :
    e.depth = openGroups s ∧ e.depth ≤ maxDepth := by
  have step : ∀ r (e : Emitter) x e', e.depth = openGroups r ∧ e.depth ≤ maxDepth →
      e.feed x = .ok e' → e'.depth = openGroups (r ++ [x]) ∧ e'.depth ≤ maxDepth := by
    rintro r e x e' ⟨hd, hmax⟩ hx
    rw [openGroups_concat, ← hd]
    by_cases hbracket : x.isBracket = false
    · have hdepth : e'.depth = e.depth := congrArg List.length (outer_of_feed hbracket hx)
      rw [Symbol.nest_of_not_isBracket hbracket, hdepth]
      exact ⟨rfl, hmax⟩
    · cases x with
      | groupOpen =>
        obtain ⟨hlt, rfl⟩ := feed_groupOpen_eq_ok_iff.1 hx
        exact ⟨rfl, hlt⟩
      | groupClose =>
        obtain ⟨level, outer, houter, rfl⟩ := feed_groupClose_eq_ok_iff.1 hx
        have hlen : e.depth = outer.length + 1 := by rw [depth, houter, List.length_cons]
        rw [hlen] at hmax ⊢
        exact ⟨rfl, Nat.le_of_succ_le hmax⟩
      | _ => exact absurd rfl hbracket
  simpa using h.induction_on (r := []) step ⟨rfl, Nat.zero_le _⟩

/-- A balanced text leaves the levels around alone. -/
theorem outer_of_feeds {s : List Symbol} (hs : Balanced s) {e e' : Emitter} (h : Feeds e s e') :
    e'.outer = e.outer := by
  induction hs generalizing e e' with
  | nil => cases h; rfl
  | symbol hx =>
    cases h with
    | cons h₁ h =>
      cases h
      exact outer_of_feed hx h₁
  | group _ ih =>
    obtain ⟨e₂, level, outer, hinside, houter, rfl⟩ := exists_of_feeds_group h
    rw [ih hinside] at houter
    cases houter
    rfl
  | append _ _ ihs iht =>
    obtain ⟨e₁, h₁, h₂⟩ := feeds_append_iff.1 h
    exact (iht h₂).trans (ihs h₁)

/-- The code grows unless the text consists of brackets. -/
theorem size_of_feeds {s : List Symbol} {e e' : Emitter} (h : Feeds e s e') :
    e.code.size ≤ e'.code.size ∧
      (e'.code.size = e.code.size ↔ ∀ x ∈ s, x.isBracket = true) := by
  induction h with
  | nil e => simp
  | @cons e e₁ e₂ x s hx _ ih =>
    obtain ⟨hle, hiff⟩ := ih
    have hsize := size_feed hx
    refine ⟨by omega, ?_⟩
    rw [List.forall_mem_cons, ← hiff, ← Symbol.size_eq_zero_iff]
    omega

/-- A group is an item for an operator unless it holds nothing but brackets. -/
theorem hasAtom_of_group {t : List Symbol} (ht : Balanced t) {e e' : Emitter}
    (h : Feeds e (.groupOpen :: t ++ [.groupClose]) e') :
    e'.level.hasAtom = false ↔ ∀ x ∈ t, x.isBracket = true := by
  obtain ⟨e₂, level, outer, hinside, houter, rfl⟩ := exists_of_feeds_group h
  -- the level around the group starts its last item at the opening bracket
  rw [outer_of_feeds ht hinside] at houter
  cases houter
  obtain ⟨hle, hiff⟩ := size_of_feeds hinside
  rw [← hiff, decide_eq_false_iff_not]
  simp only at hle ⊢
  omega

/-- Behind an accepted text there is an item for an operator unless the text is bare. -/
theorem hasAtom_eq_false_iff {s : List Symbol} {e : Emitter} (h : Feeds start s e) :
    e.level.hasAtom = false ↔ Bare s := by
  rcases List.eq_nil_or_concat s with rfl | ⟨s, x, rfl⟩
  · cases h
    exact iff_of_true rfl .start
  · rw [List.concat_eq_append] at h ⊢
    rw [bare_concat_iff]
    obtain ⟨e₁, h₁, hx⟩ := feeds_snoc_iff.1 h
    cases x with
    | literal b => cases hx; simp [atom]
    | any => cases hx; simp [atom]
    | groupOpen => obtain ⟨-, rfl⟩ := feed_groupOpen_eq_ok_iff.1 hx; simp
    | plus => obtain ⟨ha, rfl⟩ := feed_plus_eq_ok_iff.1 hx; simp [ha]
    | star => obtain ⟨ha, rfl⟩ := feed_star_eq_ok_iff.1 hx; simp [ha]
    | bar => obtain ⟨-, rfl⟩ := feed_bar_eq_ok_iff.1 hx; simp
    | groupClose =>
      have group {r t} (hs : s = r ++ .groupOpen :: t) (ht : Balanced t) :
          e.level.hasAtom = false ↔ ∀ y ∈ t, y.isBracket = true := by
        rw [hs, List.append_assoc] at h
        obtain ⟨e₂, -, hgroup⟩ := feeds_append_iff.1 h
        exact hasAtom_of_group ht hgroup
      constructor
      · intro ha
        obtain ⟨level, outer, houter, -⟩ := feed_groupClose_eq_ok_iff.1 hx
        have hopen : openGroups s = outer.length + 1 := by
          rw [← (depth_of_feeds h₁).1, depth, houter, List.length_cons]
        obtain ⟨r, t, hs, ht, -⟩ := exists_innermost_group hopen
        exact .inr (.inr ⟨rfl, r, t, hs, ht, (group hs ht).1 ha⟩)
      · rintro (hx | hx | ⟨-, r, t, hs, ht, hbracket⟩)
        · cases hx
        · cases hx
        · exact (group hs ht).2 hbracket

/-! ## Refused symbols -/

theorem ite_error_eq_error_iff {ε α : Type} {c : Prop} [Decidable c] {x y : ε} {a : α} :
    (if c then .ok a else .error x : Except ε α) = .error y ↔ ¬c ∧ y = x := by
  by_cases hc : c
  · simp [hc]
  · simp [hc, eq_comm]

theorem feed_groupOpen_eq_error_iff {e : Emitter} {error : PatternError} :
    e.feed .groupOpen = .error error ↔ ¬e.depth < maxDepth ∧ error = .groupOverflow :=
  ite_error_eq_error_iff

theorem feed_groupClose_eq_error_iff {e : Emitter} {error : PatternError} :
    e.feed .groupClose = .error error ↔ e.depth = 0 ∧ error = .unmatchedClose := by
  rw [feed, closeGroup, depth]
  cases e.outer with
  | nil => simp [eq_comm]
  | cons level outer => simp

theorem feed_operator_eq_error_iff {e : Emitter} {x : Symbol} {error : PatternError}
    (hx : x.isOperator = true) :
    e.feed x = .error error ↔ e.level.hasAtom = false ∧ error = .nothingToRepeat := by
  rw [← Bool.not_eq_true]
  cases x with
  | plus => exact ite_error_eq_error_iff
  | star => exact ite_error_eq_error_iff
  | bar => exact ite_error_eq_error_iff
  | _ => cases hx

/-- The emitter refuses the symbols that are at fault behind the text it has read. -/
theorem feed_eq_error_iff {s : List Symbol} {e : Emitter} (h : Feeds start s e) {x : Symbol}
    {error : PatternError} : e.feed x = .error error ↔ Refuses s x error := by
  obtain ⟨hdepth, hmax⟩ := depth_of_feeds h
  rw [refuses_iff]
  by_cases hx : x.isOperator = true
  · rw [feed_operator_eq_error_iff hx, hasAtom_eq_false_iff h]
    have hopen : x ≠ .groupOpen := by rintro rfl; cases hx
    have hclose : x ≠ .groupClose := by rintro rfl; cases hx
    simp [hx, hopen, hclose]
  · cases x with
    | groupOpen =>
      have hfull : ¬e.depth < maxDepth ↔ openGroups s = 10 := by
        rw [← hdepth]
        exact ⟨fun hge => Nat.le_antisymm hmax (Nat.le_of_not_lt hge), fun h => by rw [h]; decide⟩
      rw [feed_groupOpen_eq_error_iff, hfull]
      simp [hx]
    | groupClose =>
      rw [feed_groupClose_eq_error_iff, hdepth]
      simp [hx]
    | literal b => simp [feed, hx]
    | any => simp [feed, hx]
    | _ => exact absurd rfl hx

end Emitter

namespace Pattern

/-- No offset of an accepted text is at fault. -/
theorem not_faultAt_of_feeds {r t : Bytes} {e : Emitter}
    (h : Emitter.Feeds .start (r.map Symbol.ofByte) e) {offset : Nat} (hlt : offset < r.length)
    (error : PatternError) : ¬FaultAt (r ++ t) offset error := by
  rintro ⟨b, hb, hrefuses⟩
  rw [List.getElem?_append_left hlt] at hb
  rw [List.take_append_of_le_length (by omega)] at hrefuses
  obtain ⟨_, hsplit⟩ := List.getElem?_eq_some_iff.1 hb
  have hr : r = r.take offset ++ b :: r.drop (offset + 1) := by
    rw [← hsplit, List.getElem_cons_drop, List.take_append_drop]
  rw [hr, List.map_append, List.map_cons] at h
  obtain ⟨e₁, h₁, h₂⟩ := Emitter.feeds_append_iff.1 h
  have hrefused := (Emitter.feed_eq_error_iff h₁).2 hrefuses
  cases h₂ with
  | cons htaken _ =>
    rw [hrefused] at htaken
    cases htaken

/-- The first fault of a pattern. -/
def FirstFault (pattern : Bytes) (fault : Fault) : Prop :=
  FaultAt pattern fault.offset fault.error ∧
    ∀ offset < fault.offset, ∀ error, ¬FaultAt pattern offset error

theorem FirstFault.unique {pattern : Bytes} {fault fault' : Fault} (h : FirstFault pattern fault)
    (h' : FirstFault pattern fault') : fault = fault' := by
  obtain ⟨error, offset⟩ := fault
  obtain ⟨error', offset'⟩ := fault'
  obtain rfl : offset = offset' := by
    rcases Nat.lt_trichotomy offset offset' with hlt | heq | hlt
    · exact absurd h.1 (h'.2 offset hlt error)
    · exact heq
    · exact absurd h'.1 (h.2 offset' hlt error')
  obtain ⟨b, hb, hr⟩ := h.1
  obtain ⟨b', hb', hr'⟩ := h'.1
  obtain rfl : b = b' := Option.some.inj (hb.symm.trans hb')
  obtain rfl : error = error' := hr.unique hr'
  rfl

theorem firstFault_of_compile {pattern : Bytes} {fault : Fault}
    (h : compile pattern = .error fault) : FirstFault pattern fault := by
  obtain ⟨r, b, t, e, rfl, hoffset, hfeeds, hb⟩ := compile_eq_error_iff.1 h
  refine ⟨⟨b, ?_, ?_⟩, fun offset hlt error => ?_⟩
  · simp [hoffset]
  · rw [hoffset, List.take_left]
    exact (Emitter.feed_eq_error_iff hfeeds).1 hb
  · exact not_faultAt_of_feeds hfeeds (by omega) error

theorem not_faultAt_of_compile {pattern : Bytes} {p : Program} (h : compile pattern = .ok p)
    (offset : Nat) (error : PatternError) : ¬FaultAt pattern offset error := by
  obtain ⟨e, he, -⟩ := compile_eq_ok_iff.1 h
  intro hfault
  have hlt : offset < pattern.length := by
    obtain ⟨b, hb, -⟩ := hfault
    exact (List.getElem?_eq_some_iff.1 hb).1
  have hno := not_faultAt_of_feeds (t := []) he hlt error
  rw [List.append_nil] at hno
  exact hno hfault

theorem compile_eq_error_iff_firstFault {pattern : Bytes} {fault : Fault} :
    compile pattern = .error fault ↔ FirstFault pattern fault := by
  refine ⟨firstFault_of_compile, fun hfirst => ?_⟩
  cases h : compile pattern with
  | ok p => exact absurd hfirst.1 (not_faultAt_of_compile h _ _)
  | error fault' => rw [(firstFault_of_compile h).unique hfirst]

/-! ## Main statement -/

/-- **Faults.**  A pattern is accepted if and only if no offset of it is at fault.  Otherwise the
least offset at fault is reported, with what is wrong there, and what follows that offset does not
matter. -/
theorem compile_faults (pattern : Bytes) :
    ((∃ p, compile pattern = .ok p) ↔ ∀ offset error, ¬FaultAt pattern offset error) ∧
    (∀ fault, compile pattern = .error fault ↔
      FaultAt pattern fault.offset fault.error ∧
        ∀ offset < fault.offset, ∀ error, ¬FaultAt pattern offset error) ∧
    (∀ fault rest, compile pattern = .error fault →
      compile (pattern.take (fault.offset + 1) ++ rest) = .error fault) := by
  refine ⟨⟨?_, ?_⟩, fun fault => compile_eq_error_iff_firstFault, ?_⟩
  · rintro ⟨p, h⟩
    exact not_faultAt_of_compile h
  · intro hno
    cases h : compile pattern with
    | ok p => exact ⟨p, rfl⟩
    | error fault => exact absurd (firstFault_of_compile h).1 (hno _ _)
  · intro fault rest h
    obtain ⟨hfault, hfirst⟩ := firstFault_of_compile h
    have hlt : fault.offset < pattern.length := by
      obtain ⟨b, hb, -⟩ := hfault
      exact (List.getElem?_eq_some_iff.1 hb).1
    have hsame (offset : Nat) (hle : offset ≤ fault.offset) (error : PatternError) :
        FaultAt (pattern.take (fault.offset + 1) ++ rest) offset error ↔
          FaultAt pattern offset error := by
      apply faultAt_congr
      rw [List.take_append_of_le_length (by simp; omega), List.take_take]
      congr 1
      omega
    apply compile_eq_error_iff_firstFault.2
    refine ⟨(hsame _ (Nat.le_refl _) _).2 hfault, fun offset hoffset error => ?_⟩
    rw [hsame offset (by omega) error]
    exact hfirst offset hoffset error

/-- A group that holds two empty groups is nothing to repeat. -/
example : compile (ascii "a(()())*b)") = .error ⟨.nothingToRepeat, 7⟩ := by cbv

end Pattern

end SweepRegex
