import SweepRegex.Pattern.Edit
import SweepRegex.Proofs.Pattern.Feeding

/-!
# Sizes

How much code there is can be told from the text alone, at every point of a compilation and not
only at its end.  `Reaches` is the loop of the compiler with the offset it is at, and `Stores` is
what its code buffer may hold, between two symbols or in the middle of one, when an item has been
moved in part.

    Reaches pattern offset e → e.code.size + 1 = size (pattern.take offset)       (Reaches.size)
    Stores pattern code → code.size ≤ size pattern                            (Stores.size_le)

So a buffer of as many places as the size announces never has to grow.
-/

namespace SweepRegex.Pattern

/-! ## Sizes of texts -/

theorem size_pos (s : Bytes) : 0 < size s := by
  induction s with
  | nil => exact Nat.one_pos
  | cons b s ih =>
    rw [size_cons]
    omega

/-- The final instruction is the only one that two texts share. -/
theorem size_append (s t : Bytes) : size (s ++ t) + 1 = size s + size t := by
  induction s with
  | nil =>
    rw [List.nil_append, size_nil]
    omega
  | cons b s ih =>
    rw [List.cons_append, size_cons, size_cons]
    omega

theorem size_take_le (s : Bytes) (n : Nat) : size (s.take n) ≤ size s := by
  have happend := size_append (s.take n) (s.drop n)
  rw [List.take_append_drop] at happend
  have hpos := size_pos (s.drop n)
  omega

/-! ## The loop of the compiler -/

/-- The compiler gets to the offset of the pattern without a fault, with this emitter. -/
inductive Reaches (pattern : Bytes) : Nat → Emitter → Prop where
  | start : Reaches pattern 0 .start
  | symbol {offset : Nat} {e e' : Emitter} {b : UInt8} : Reaches pattern offset e →
      pattern[offset]? = some b → e.feed (Symbol.ofByte b) = .ok e' →
      Reaches pattern (offset + 1) e'

section
variable {pattern : Bytes} {offset : Nat} {e e' : Emitter} {b : UInt8}

theorem take_succ_of_getElem? (hb : pattern[offset]? = some b) :
    pattern.take (offset + 1) = pattern.take offset ++ [b] := by
  rw [List.take_add_one, hb]
  rfl

theorem reaches_iff_feeds : Reaches pattern offset e ↔
    offset ≤ pattern.length ∧ Emitter.Feeds .start ((pattern.take offset).map Symbol.ofByte) e := by
  constructor
  · intro h
    induction h with
    | start => exact ⟨Nat.zero_le _, .nil _⟩
    | symbol _ hb hfeed ih =>
      refine ⟨(List.getElem?_eq_some_iff.1 hb).1, ?_⟩
      rw [take_succ_of_getElem? hb, List.map_append]
      exact Emitter.feeds_snoc_iff.2 ⟨_, ih.2, hfeed⟩
  · rintro ⟨hle, hfeeds⟩
    induction offset generalizing e with
    | zero =>
      cases hfeeds
      exact .start
    | succ offset ih =>
      have hb : pattern[offset]? = some pattern[offset] := List.getElem?_eq_getElem hle
      rw [take_succ_of_getElem? hb, List.map_append] at hfeeds
      obtain ⟨e₁, h₁, hfeed⟩ := Emitter.feeds_snoc_iff.1 hfeeds
      exact .symbol (ih (Nat.le_of_lt hle) h₁) hb hfeed

theorem Reaches.unique (h : Reaches pattern offset e) (h' : Reaches pattern offset e') :
    e = e' := by
  have feedAll {e₁ : Emitter} (h₁ : Reaches pattern offset e₁) :
      Emitter.start.feedAll 0 (pattern.take offset) = .ok e₁ :=
    Emitter.feedAll_eq_ok_iff.2 (reaches_iff_feeds.1 h₁).2
  exact Except.ok.inj ((feedAll h).symm.trans (feedAll h'))

/-- The offsets in front of one that is reached are reached before. -/
theorem Reaches.exists_of_le {earlier : Nat} (h : Reaches pattern offset e)
    (hle : earlier ≤ offset) : ∃ e₁, Reaches pattern earlier e₁ := by
  induction h with
  | start =>
    obtain rfl : earlier = 0 := Nat.le_zero.1 hle
    exact ⟨_, .start⟩
  | @symbol offset _ _ _ h hb hfeed ih =>
    rcases Nat.lt_or_eq_of_le hle with hlt | rfl
    · exact ih (Nat.le_of_lt_succ hlt)
    · exact ⟨_, h.symbol hb hfeed⟩

/-- An accepted pattern is read to its end. -/
theorem compile_eq_ok_iff_reaches {p : Program} :
    compile pattern = .ok p ↔ ∃ e, Reaches pattern pattern.length e ∧ e.finish = p := by
  simp only [compile_eq_ok_iff, reaches_iff_feeds, List.take_length, Nat.le_refl, true_and]

/-- A refused pattern is read up to its first fault. -/
theorem reaches_iff_of_compile_error {fault : Fault} (h : compile pattern = .error fault) :
    (∃ e, Reaches pattern offset e) ↔ offset ≤ fault.offset := by
  obtain ⟨r, b, t, e, rfl, hoffset, hfeeds, hfault⟩ := compile_eq_error_iff.1 h
  have hreaches : Reaches (r ++ b :: t) r.length e :=
    reaches_iff_feeds.2 ⟨by simp, by rwa [List.take_left]⟩
  rw [hoffset]
  constructor
  · rintro ⟨e', h'⟩
    refine Nat.le_of_not_lt fun hlt => ?_
    obtain ⟨e₁, h₁⟩ := h'.exists_of_le hlt
    -- the loop would have taken the symbol that is refused
    cases h₁ with
    | symbol h₀ hb hfeed =>
      obtain rfl := hreaches.unique h₀
      rw [List.getElem?_append_right (Nat.le_refl _), Nat.sub_self, List.getElem?_cons_zero] at hb
      cases hb
      rw [hfault] at hfeed
      cases hfeed
  · exact hreaches.exists_of_le

/-! ## Sizes of the code -/

/-- Each symbol adds its own size, so the code has as many instructions as the text in front of the
offset announces, but for the final one. -/
theorem Reaches.size (h : Reaches pattern offset e) :
    e.code.size + 1 = Pattern.size (pattern.take offset) := by
  induction h with
  | start => rfl
  | @symbol offset e _ b _ hb hfeed ih =>
    have happend := size_append (pattern.take offset) [b]
    rw [size_cons, size_nil] at happend
    rw [take_succ_of_getElem? hb, Emitter.size_feed hfeed]
    omega

/-- No level has its last item start outside the code. -/
theorem mark_le_of_feed {x : Symbol} (hx : e.feed x = .ok e')
    (h : ∀ l ∈ e.level :: e.outer, l.mark ≤ e.code.size) :
    ∀ l ∈ e'.level :: e'.outer, l.mark ≤ e'.code.size := by
  obtain ⟨hlevel, houter⟩ := List.forall_mem_cons.1 h
  have grows : e.code.size ≤ e'.code.size := by
    rw [Emitter.size_feed hx]
    exact Nat.le_add_right _ _
  have outer_le : ∀ l ∈ e.outer, l.mark ≤ e'.code.size :=
    fun l hl => Nat.le_trans (houter l hl) grows
  cases x with
  | literal b =>
    cases hx
    exact List.forall_mem_cons.2 ⟨grows, outer_le⟩
  | any =>
    cases hx
    exact List.forall_mem_cons.2 ⟨grows, outer_le⟩
  | groupOpen =>
    obtain ⟨-, rfl⟩ := Emitter.feed_groupOpen_eq_ok_iff.1 hx
    exact List.forall_mem_cons.2 ⟨grows, List.forall_mem_cons.2 ⟨grows, outer_le⟩⟩
  | groupClose =>
    obtain ⟨level, outer, hlevels, rfl⟩ := Emitter.feed_groupClose_eq_ok_iff.1 hx
    rw [hlevels] at houter
    exact List.forall_mem_cons.2 (List.forall_mem_cons.1 houter)
  | plus =>
    obtain ⟨-, rfl⟩ := Emitter.feed_plus_eq_ok_iff.1 hx
    exact List.forall_mem_cons.2 ⟨Nat.le_trans hlevel grows, outer_le⟩
  | star =>
    obtain ⟨-, rfl⟩ := Emitter.feed_star_eq_ok_iff.1 hx
    exact List.forall_mem_cons.2 ⟨Nat.le_trans hlevel grows, outer_le⟩
  | bar =>
    obtain ⟨-, rfl⟩ := Emitter.feed_bar_eq_ok_iff.1 hx
    exact List.forall_mem_cons.2 ⟨Nat.le_trans hlevel grows, outer_le⟩

theorem Reaches.mark_le (h : Reaches pattern offset e) :
    ∀ l ∈ e.level :: e.outer, l.mark ≤ e.code.size := by
  induction h with
  | start => simp [Emitter.start]
  | symbol _ _ hfeed ih => exact mark_le_of_feed hfeed ih

/-- A symbol that is taken is emitted by its edits, none of which is outside the buffer. -/
theorem Reaches.performAll?_edits (h : Reaches pattern offset e)
    (hfeed : e.feed (Symbol.ofByte b) = .ok e') :
    Edit.performAll? e.code (e.edits (Symbol.ofByte b)) = some e'.code :=
  Emitter.performAll?_edits hfeed (List.forall_mem_cons.1 h.mark_le).1

end

/-! ## The code buffer -/

/-- What the buffer holds at some moment of the compilation, before any fault. -/
inductive Stores (pattern : Bytes) : Array Instr → Prop where
  /-- Between two symbols. -/
  | between {offset : Nat} {e : Emitter} : Reaches pattern offset e → Stores pattern e.code
  /-- After some of the edits of a symbol. -/
  | within {offset : Nat} {e e' : Emitter} {b : UInt8} {edits more : List Edit}
      {code : Array Instr} : Reaches pattern offset e → pattern[offset]? = some b →
      e.feed (Symbol.ofByte b) = .ok e' → e.edits (Symbol.ofByte b) = edits ++ more →
      Edit.performAll? e.code edits = some code → Stores pattern code
  /-- With the final instruction. -/
  | finished {p : Program} : compile pattern = .ok p → Stores pattern p.code

theorem Stores.size_le {pattern : Bytes} {code : Array Instr} (h : Stores pattern code) :
    code.size ≤ size pattern := by
  cases h with
  | @between offset e h =>
    have hsize := h.size
    have hle := size_take_le pattern offset
    omega
  | @within offset e e' b edits more _ h hb hfeed hedits hcode =>
    -- the edits that are still to come do not make the buffer shorter
    have hall := h.performAll?_edits hfeed
    rw [hedits, Edit.performAll?_append, hcode, Option.bind_some] at hall
    have hmore := Edit.size_le_of_performAll? hall
    have hsize := (h.symbol hb hfeed).size
    have hle := size_take_le pattern (offset + 1)
    omega
  | finished h => exact Nat.le_of_eq (size_compile h)

/-! ## Main statement -/

/-- **Sizes are known in advance.**  Wherever compilation gets to without a fault, there are as many
instructions as the size of the text read so far announces, but for the final one.  It gets to every
offset of a pattern that it accepts, whose program has exactly the size of the pattern, and in
one that it refuses to every offset up to the fault.  Each symbol that is taken is emitted by edits
inside the buffer, and at no moment, even between two of these, does the buffer hold more
instructions than the size of the whole pattern. -/
theorem compile_within_size (pattern : Bytes) :
    (∀ offset e, Reaches pattern offset e → e.code.size = size (pattern.take offset) - 1) ∧
    (∀ p, compile pattern = .ok p → p.size = size pattern ∧
      ∀ offset ≤ pattern.length, ∃ e, Reaches pattern offset e) ∧
    (∀ fault, compile pattern = .error fault →
      ∀ offset, (∃ e, Reaches pattern offset e) ↔ offset ≤ fault.offset) ∧
    (∀ offset e b e', Reaches pattern offset e → pattern[offset]? = some b →
      e.feed (Symbol.ofByte b) = .ok e' →
      Edit.performAll? e.code (e.edits (Symbol.ofByte b)) = some e'.code) ∧
    ∀ code, Stores pattern code → code.size ≤ size pattern := by
  refine ⟨fun offset e h => ?_, fun p hp => ?_, fun fault h offset => ?_, fun _ _ _ _ h _ hfeed => ?_,
    fun code h => h.size_le⟩
  · rw [← h.size, Nat.add_sub_cancel]
  · obtain ⟨e, he, -⟩ := compile_eq_ok_iff_reaches.1 hp
    exact ⟨size_compile hp, fun offset => he.exists_of_le⟩
  · exact reaches_iff_of_compile_error h
  · exact h.performAll?_edits hfeed

end SweepRegex.Pattern
