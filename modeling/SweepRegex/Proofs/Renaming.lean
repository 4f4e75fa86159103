import SweepRegex.Proofs.Machine.Inputs
import SweepRegex.Proofs.Pattern.Feeding

/-!
# Literals are bytes

A literal stands for its byte and for nothing else: neither the compiler nor a run knows one byte
from another, except that a literal has to be told from the bytes that are no literals, and from
every other byte of the input.  So the literals of a pattern may be renamed, along with all bytes of
the input, by any map that keeps both (`Renames`); it need not be injective on bytes that are not in
the pattern.

    compile (rename f pattern) = (compile pattern).map (Program.rename f)          (compile_rename)
    (p.rename f).run limits (s.map f) = p.run limits s                                 (run_rename)
-/

namespace SweepRegex

namespace Pattern

/-! ## Renamings -/

/-- The bytes that are no literals. -/
def metaBytes : Bytes := ascii "()*+|."

/-- The pattern with its literals renamed and all other bytes kept. -/
def rename (f : UInt8 → UInt8) (pattern : Bytes) : Bytes :=
  pattern.map fun b => if b ∈ metaBytes then b else f b

/-- The literals of the pattern stay literals, and no other byte gets the name of one of them. -/
structure Renames (f : UInt8 → UInt8) (pattern : Bytes) : Prop where
  literal : ∀ c ∈ pattern, c ∉ metaBytes → f c ∉ metaBytes
  distinct : ∀ c ∈ pattern, c ∉ metaBytes → ∀ b, f b = f c → b = c

end Pattern

/-- The symbol with its byte renamed, if it is a literal. -/
def Symbol.rename (f : UInt8 → UInt8) : Symbol → Symbol
  | .literal b => .literal (f b)
  | x => x

/-- The emitter with the bytes in its code renamed. -/
def Emitter.rename (f : UInt8 → UInt8) (e : Emitter) : Emitter :=
  { e with code := e.code.map (Instr.rename f) }

/-- The program with the bytes in its code renamed. -/
def Program.rename (f : UInt8 → UInt8) (p : Program) : Program := ⟨p.code.map (Instr.rename f)⟩

/-! ## Symbols -/

namespace Symbol

theorem ofByte_eq_literal_iff {b c : UInt8} :
    ofByte b = .literal c ↔ b = c ∧ b ∉ Pattern.metaBytes := by
  constructor
  · intro h
    have hbyte := byte_ofByte b
    rw [h] at hbyte
    refine ⟨hbyte.symm, fun hb => ?_⟩
    have hmeta : b = 40 ∨ b = 41 ∨ b = 42 ∨ b = 43 ∨ b = 124 ∨ b = 46 := by
      simpa [Pattern.metaBytes, ascii] using hb
    rcases hmeta with rfl | rfl | rfl | rfl | rfl | rfl <;> cases h
  · rintro ⟨rfl, hb⟩
    unfold ofByte
    split <;> first | rfl | exact absurd (by decide) hb

/-- A renaming keeps the symbols that are no literals. -/
theorem rename_ofByte {f : UInt8 → UInt8} {b : UInt8} (h : b ∈ Pattern.metaBytes) :
    (ofByte b).rename f = ofByte b := by
  cases hb : ofByte b with
  | literal c => exact absurd h (ofByte_eq_literal_iff.1 hb).2
  | _ => rfl

/-- What the byte of a renamed pattern stands for is the renamed symbol. -/
theorem ofByte_rename {f : UInt8 → UInt8} {b : UInt8}
    (h : b ∉ Pattern.metaBytes → f b ∉ Pattern.metaBytes) :
    ofByte (if b ∈ Pattern.metaBytes then b else f b) = (ofByte b).rename f := by
  by_cases hb : b ∈ Pattern.metaBytes
  · rw [if_pos hb, rename_ofByte hb]
  · rw [if_neg hb, ofByte_eq_literal_iff.2 ⟨rfl, hb⟩, ofByte_eq_literal_iff.2 ⟨rfl, h hb⟩]
    rfl

end Symbol

/-! ## Compiling a renamed pattern -/

theorem Instr.relocate_eq_byte_iff {d : Nat} {i : Instr} {b : UInt8} :
    i.relocate d = .byte b ↔ i = .byte b := by
  cases i <;> simp [relocate]

theorem Instr.relocate_rename (f : UInt8 → UInt8) (d : Nat) (i : Instr) :
    (i.rename f).relocate d = (i.relocate d).rename f := by
  cases i <;> rfl

namespace Emitter

variable {f : UInt8 → UInt8}

theorem insertAt_rename (code : Array Instr) (mark : Nat) (i : Instr) :
    insertAt (code.map (Instr.rename f)) mark (i.rename f) =
      (insertAt code mark i).map (Instr.rename f) := by
  have hswap : Instr.relocate 1 ∘ Instr.rename f = Instr.rename f ∘ Instr.relocate 1 := by
    funext i
    exact i.relocate_rename f 1
  apply Array.toList_inj.1
  rw [toList_insertAt, Array.toList_map, Array.toList_map, toList_insertAt, List.map_append,
    List.map_cons, ← List.map_take, ← List.map_drop, List.map_map, List.map_map, hswap]

/-- The emitter takes a renamed symbol as it takes the symbol, and emits the renamed code. -/
theorem feed_rename (e : Emitter) (x : Symbol) :
    (e.rename f).feed (x.rename f) = (e.feed x).map (Emitter.rename f) := by
  obtain ⟨code, level, outer⟩ := e
  cases x with
  | literal b => simp [feed, Symbol.rename, atom, rename, Instr.rename, Except.map]
  | any => simp [feed, Symbol.rename, atom, rename, Instr.rename, Except.map]
  | groupOpen =>
    simp only [feed, Symbol.rename, openGroup, rename, depth, Array.size_map]
    by_cases hd : outer.length < maxDepth
    · simp [hd, Except.map, rename]
    · simp [hd, Except.map]
  | groupClose =>
    simp only [feed, Symbol.rename, closeGroup, rename, Array.size_map]
    cases outer with
    | nil => rfl
    | cons around outer => rfl
  | plus =>
    simp only [feed, Symbol.rename, plus, rename, Array.size_map]
    by_cases ha : level.hasAtom = true
    · simp [ha, Except.map, rename, Instr.rename]
    · simp [ha, Except.map]
  | star =>
    simp only [feed, Symbol.rename, star, rename, Array.size_map]
    by_cases ha : level.hasAtom = true
    · have hinsert := insertAt_rename (f := f) code level.mark
        (.split (level.mark + 1) (code.size + 2))
      simp only [Instr.rename] at hinsert
      simp [ha, Except.map, rename, Instr.rename, hinsert]
    · simp [ha, Except.map]
  | bar =>
    simp only [feed, Symbol.rename, bar, rename, Array.size_map]
    by_cases ha : level.hasAtom = true
    · have hinsert := insertAt_rename (f := f) code level.mark
        (.split (level.mark + 1) (code.size + 1))
      simp only [Instr.rename] at hinsert
      simp [ha, Except.map, rename, hinsert]
    · simp [ha, Except.map]

theorem feedAll_rename {s : Bytes}
    (hs : ∀ c ∈ s, c ∉ Pattern.metaBytes → f c ∉ Pattern.metaBytes) (e : Emitter) (offset : Nat) :
    (e.rename f).feedAll offset (Pattern.rename f s) =
      (e.feedAll offset s).map (Emitter.rename f) := by
  induction s generalizing e offset with
  | nil => rfl
  | cons b s ih =>
    rw [List.forall_mem_cons] at hs
    have hb := Symbol.ofByte_rename hs.1
    show feedAll _ _ (_ :: Pattern.rename f s) = _
    rw [feedAll, feedAll, hb, feed_rename]
    cases e.feed (Symbol.ofByte b) with
    | error error => rfl
    | ok e₁ => exact ih hs.2 e₁ (offset + 1)

/-- An instruction put into the code brings no other byte with it. -/
theorem byte_mem_insertAt {code : Array Instr} {mark : Nat} {i : Instr} {b : UInt8}
    (h : .byte b ∈ insertAt code mark i) : .byte b ∈ code ∨ i = .byte b := by
  rw [← Array.mem_toList_iff, toList_insertAt, List.mem_append, List.mem_cons, List.mem_map] at h
  rcases h with h | h | ⟨j, hj, hrelocate⟩
  · exact .inl (Array.mem_toList_iff.1 (List.mem_of_mem_take h))
  · exact .inr h.symm
  · rw [Instr.relocate_eq_byte_iff] at hrelocate
    subst hrelocate
    exact .inl (Array.mem_toList_iff.1 (List.mem_of_mem_drop hj))

/-- A symbol brings no byte into the code but that of a literal. -/
theorem byte_mem_of_feed {e e' : Emitter} {x : Symbol} (h : e.feed x = .ok e') {b : UInt8}
    (hb : .byte b ∈ e'.code) : .byte b ∈ e.code ∨ x = .literal b := by
  cases x with
  | literal c =>
    cases h
    rcases Array.mem_push.1 hb with hb | hb
    · exact .inl hb
    · cases hb
      exact .inr rfl
  | any =>
    cases h
    rcases Array.mem_push.1 hb with hb | hb
    · exact .inl hb
    · cases hb
  | groupOpen =>
    obtain ⟨-, rfl⟩ := feed_groupOpen_eq_ok_iff.1 h
    exact .inl hb
  | groupClose =>
    obtain ⟨_, _, -, rfl⟩ := feed_groupClose_eq_ok_iff.1 h
    exact .inl hb
  | plus =>
    obtain ⟨-, rfl⟩ := feed_plus_eq_ok_iff.1 h
    rcases Array.mem_push.1 hb with hb | hb
    · exact .inl hb
    · cases hb
  | star =>
    obtain ⟨-, rfl⟩ := feed_star_eq_ok_iff.1 h
    rcases Array.mem_push.1 hb with hb | hb
    · rcases byte_mem_insertAt hb with hb | hb
      · exact .inl hb
      · cases hb
    · cases hb
  | bar =>
    obtain ⟨-, rfl⟩ := feed_bar_eq_ok_iff.1 h
    rcases byte_mem_insertAt hb with hb | hb
    · exact .inl hb
    · cases hb

theorem byte_mem_of_feeds {e e' : Emitter} {s : List Symbol} (h : Feeds e s e') {b : UInt8}
    (hb : .byte b ∈ e'.code) : .byte b ∈ e.code ∨ .literal b ∈ s := by
  induction h with
  | nil e => exact .inl hb
  | cons hx _ ih =>
    rcases ih hb with hb | hb
    · rcases byte_mem_of_feed hx hb with hb | rfl
      · exact .inl hb
      · exact .inr List.mem_cons_self
    · exact .inr (List.mem_cons_of_mem _ hb)

end Emitter

namespace Pattern

/-- The renamed pattern has the faults of the pattern, and otherwise the renamed program. -/
theorem compile_rename {f : UInt8 → UInt8} {pattern : Bytes} (h : Renames f pattern) :
    compile (rename f pattern) = (compile pattern).map (Program.rename f) := by
  have hstart : Emitter.start.rename f = .start := by simp [Emitter.rename, Emitter.start]
  have hfeed := Emitter.feedAll_rename h.literal .start 0
  rw [hstart] at hfeed
  rw [compile, compile, hfeed]
  cases Emitter.start.feedAll 0 pattern with
  | error fault => rfl
  | ok e => simp [Except.map, Emitter.finish, Emitter.rename, Program.rename, Instr.rename]

/-- A byte in the code of an accepted pattern is one of its literals. -/
theorem mem_of_byte_mem_code {pattern : Bytes} {p : Program} (h : compile pattern = .ok p)
    {b : UInt8} (hb : .byte b ∈ p.code) : b ∈ pattern ∧ b ∉ metaBytes := by
  obtain ⟨e, he, rfl⟩ := compile_eq_ok_iff.1 h
  have hcode : .byte b ∈ e.code := by
    rcases Array.mem_push.1 hb with hb | hb
    · exact hb
    · cases hb
  rcases Emitter.byte_mem_of_feeds he hcode with hb | hb
  · exact absurd hb (Array.not_mem_empty _)
  · obtain ⟨c, hc, hliteral⟩ := List.mem_map.1 hb
    obtain ⟨rfl, hmeta⟩ := Symbol.ofByte_eq_literal_iff.1 hliteral
    exact ⟨hc, hmeta⟩

end Pattern

/-! ## Running a renamed program -/

namespace Program

/-- A run on the renamed input goes as the run on the input does, if no other byte of the input has
the name of a byte in the code. -/
theorem run_rename {f : UInt8 → UInt8} {p : Program}
    (hp : ∀ b, .byte b ∈ p.code → ∀ c, f c = f b → c = b) (limits : Limits) (s : Bytes) :
    (p.rename f).run limits (s.map f) = p.run limits s := by
  have hempty : (p.rename f).isEmpty = p.isEmpty := by
    simp [rename, isEmpty, Array.isEmpty]
  have hstart : Machine.start (s.map f) = (Machine.start s).mapRest (List.map f) := rfl
  unfold run
  rw [hempty, hstart]
  by_cases he : p.isEmpty = true
  · rw [if_pos he, if_pos he]
  · rw [if_neg he, if_neg he]
    refine Machine.run_mapRest (P := fun _ => True) ?_ (fun _ _ _ _ => trivial) trivial
    intro m _
    refine move_mapRest (f := f) ?_ ?_ ?_
    · simp [rename]
    · simp [rename, size]
    · cases hrest : m.current.rest with
      | nil => exact .atEnd hrest rfl
      | cons c rest =>
        refine .byte hrest rfl fun b hb => ?_
        constructor
        · intro hc
          exact hp b (Array.mem_of_getElem? hb) c hc
        · intro hc
          rw [hc]

theorem search_rename {f : UInt8 → UInt8} {p : Program}
    (hp : ∀ b, .byte b ∈ p.code → ∀ c, f c = f b → c = b) (limits : Limits) (s : Bytes) :
    (p.rename f).search limits (s.map f) = p.search limits s := by
  have hfrom (offset : Nat) :
      (p.rename f).searchFrom limits offset (s.map f) = p.searchFrom limits offset s := by
    induction s generalizing offset with
    | nil =>
      have hrun := run_rename hp limits []
      rw [List.map_nil] at hrun ⊢
      rw [searchFrom, searchFrom, hrun]
    | cons b s ih =>
      have hrun := run_rename hp limits (b :: s)
      rw [List.map_cons] at hrun ⊢
      rw [searchFrom, searchFrom, hrun]
      cases (p.run limits (b :: s)).verdict with
      | error e => rfl
      | ok v =>
        cases v with
        | true => rfl
        | false => exact ih (offset + 1)
  exact hfrom 0

end Program

namespace Pattern

/-! ## Main statement -/

/-- **Renaming literals.**  If the literals of a pattern are renamed so that they stay literals, and
no other byte gets the name of one of them, then the pattern is refused as it was, with the same
error at the same offset, or it compiles as it did, up to the names; and then every run and every
search on the renamed input, under any limits, reports what it did on the input. -/
theorem run_compile_rename {f : UInt8 → UInt8} {pattern : Bytes} (h : Renames f pattern) :
    (∀ fault, compile (rename f pattern) = .error fault ↔ compile pattern = .error fault) ∧
    ∀ p, compile pattern = .ok p → ∃ q, compile (rename f pattern) = .ok q ∧
      ∀ limits s, q.run limits (s.map f) = p.run limits s ∧
        q.search limits (s.map f) = p.search limits s := by
  have hcompile := compile_rename h
  constructor
  · intro fault
    rw [hcompile]
    cases compile pattern with
    | error fault' => exact Iff.rfl
    | ok p => simp [Except.map]
  · intro p hp
    have hbytes : ∀ b, .byte b ∈ p.code → ∀ c, f c = f b → c = b := by
      intro b hb
      obtain ⟨hmem, hmeta⟩ := mem_of_byte_mem_code hp hb
      exact h.distinct b hmem hmeta
    refine ⟨p.rename f, by rw [hcompile, hp]; rfl, fun limits s => ?_⟩
    exact ⟨Program.run_rename hbytes limits s, Program.search_rename hbytes limits s⟩

/-- Two letters renamed to bytes that are no characters, and all other bytes to the period. -/
theorem run_compile_rename_two_letters :
    let f : UInt8 → UInt8 := fun b => if b = 97 then 200 else if b = 98 then 0 else 46
    let p : Program :=
      ⟨#[.split 1 5, .split 2 3, .byte 97, .byte 98, .jump 0, .any, .accept]⟩
    Renames f (ascii "(a|b)*.") ∧ compile (ascii "(a|b)*.") = .ok p ∧
      rename f (ascii "(a|b)*.") = [40, 200, 124, 0, 41, 42, 46] ∧
      ∃ q, compile [40, 200, 124, 0, 41, 42, 46] = .ok q ∧
        ∀ limits s, q.run limits (s.map f) = p.run limits s ∧
          q.search limits (s.map f) = p.search limits s := by
  intro f p
  have hletters : ∀ c ∈ ascii "(a|b)*.", c ∉ metaBytes → c = 97 ∨ c = 98 := by decide +kernel
  have h : Renames f (ascii "(a|b)*.") := by
    constructor
    · intro c hc hmeta
      rcases hletters c hc hmeta with rfl | rfl <;> decide
    · intro c hc hmeta b hb
      by_cases ha : b = 97
      · subst ha
        rcases hletters c hc hmeta with rfl | rfl
        · rfl
        · exact absurd hb (by decide)
      · by_cases hb' : b = 98
        · subst hb'
          rcases hletters c hc hmeta with rfl | rfl
          · exact absurd hb (by decide)
          · rfl
        · have hother : f b = 46 := by simp [f, ha, hb']
          rw [hother] at hb
          rcases hletters c hc hmeta with rfl | rfl <;> exact absurd hb (by decide)
  have hp : compile (ascii "(a|b)*.") = .ok p := by cbv
  have hrename : rename f (ascii "(a|b)*.") = [40, 200, 124, 0, 41, 42, 46] := by decide
  refine ⟨h, hp, hrename, ?_⟩
  rw [← hrename]
  exact (run_compile_rename h).2 p hp

end Pattern

end SweepRegex
