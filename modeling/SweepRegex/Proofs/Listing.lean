import SweepRegex.Bytes.Lines
import SweepRegex.Proofs.Pattern.Branches
import Mathlib.Data.List.TakeWhile

/-!
# Listings are faithful

A listing is read back by looking at one line at a time, and in a line only at the text of the
instruction: at its first word, and at what the word lets one expect behind it.  So a listing tells
the whole program, and two programs with the same listing are the same.

    Program.ofListing? p.listing = some p                                 (ofListing?_listing)

Whatever bytes a pattern holds, its listing has one line for each instruction and is printable.
-/

namespace SweepRegex

/-! ## Reading a listing -/

/-- The number that a hexadecimal digit denotes. -/
def Bytes.hexValue (b : UInt8) : Nat := if Bytes.isDigit b then b.toNat - 48 else b.toNat - 87

namespace Instr

/-- The byte that is shown: between apostrophes, or in two hexadecimal digits behind `0x`. -/
def shownByte? : Bytes → Option UInt8
  | [39, b, 39] => some b
  | [48, 120, high, low] => some (16 * Bytes.hexValue high + Bytes.hexValue low).toUInt8
  | _ => none

/-- The places that are shown with a comma and a space between them. -/
def shownPlaces? (s : Bytes) : Option (Nat × Nat) :=
  match Bytes.cutAt? 44 s with
  | some (first, 32 :: second) =>
    match Bytes.natural? first, Bytes.natural? second with
    | some x, some y => some (x, y)
    | _, _ => none
  | _ => none

/-- Reads the text of an instruction. -/
def ofText? (s : Bytes) : Option Instr :=
  match Bytes.cutAt? Bytes.space s with
  | none => if s = ascii "any" then some .any else if s = ascii "match" then some .accept else none
  | some (name, operands) =>
    if name = ascii "char" then (shownByte? operands).map .byte
    else if name = ascii "jmp" then (Bytes.natural? operands).map .jump
    else if name = ascii "split" then (shownPlaces? operands).map fun (x, y) => .split x y
    else none

end Instr

namespace Program

/-- Reads a line of a listing: the instruction stands behind the index and two spaces. -/
def ofLine? (l : Bytes) : Option Instr := Instr.ofText? ((l.dropWhile Bytes.isDigit).drop 2)

/-- Reads a listing. -/
def ofListing? (s : Bytes) : Option Program :=
  ((Bytes.lines s).dropLast.mapM ofLine?).map fun code => ⟨code.toArray⟩

/-- The index in front of a line. -/
def indexText (pc : Nat) : Bytes := Bytes.decimalPadded 3 pc ++ ascii "  "

/-- The lines of a listing, without their line feeds. -/
def lineTexts (p : Program) : List Bytes :=
  p.code.toList.zipIdx.map fun (i, pc) => indexText pc ++ i.text

end Program

/-! ## Numbers and digits -/

namespace Bytes

theorem hexValue_hexDigit : ∀ n < 16, hexValue (hexDigit n) = n := by decide

theorem hexDigit_printable : ∀ n < 16, isPrintable (hexDigit n) = true := by decide

theorem isPrintable_of_isDigit {b : UInt8} (h : isDigit b = true) : isPrintable b = true := by
  simp only [isDigit, isPrintable, space, Bool.and_eq_true, decide_eq_true_eq,
    UInt8.le_iff_toNat_le] at h ⊢
  simp at h ⊢
  omega

theorem isPrintable_iff {b : UInt8} : isPrintable b = true ↔ 32 ≤ b ∧ b ≤ 126 := by
  rw [isPrintable, Bool.and_eq_true, decide_eq_true_eq, decide_eq_true_eq]
  exact Iff.rfl

theorem hex_eq (b : UInt8) :
    (16 * hexValue (hexDigit (b.toNat / 16)) + hexValue (hexDigit (b.toNat % 16))).toUInt8 = b := by
  have hb := b.toNat_lt
  rw [hexValue_hexDigit _ (by omega), hexValue_hexDigit _ (by omega), Nat.div_add_mod]
  simp

theorem decimalPadded_digits (width n : Nat) : ∀ b ∈ decimalPadded width n, isDigit b = true := by
  intro b hb
  rcases List.mem_append.1 hb with hb | hb
  · rw [(List.mem_replicate.1 hb).2]
    rfl
  · exact List.all_eq_true.1 (all_isDigit_decimal n) b hb

/-- Decimal text does not hold what is no digit. -/
theorem not_mem_decimal {b : UInt8} (h : isDigit b = false) (n : Nat) : b ∉ decimal n := by
  intro hb
  rw [List.all_eq_true.1 (all_isDigit_decimal n) b hb] at h
  cases h

end Bytes

namespace Instr

/-! ## Texts of instructions -/

theorem shownByte?_text (b : UInt8) :
    shownByte? (if Bytes.isPrintable b then 39 :: b :: [39] else 48 :: 120 :: Bytes.hex b) =
      some b := by
  split
  · rfl
  · rw [Bytes.hex, shownByte?, Bytes.hex_eq]

/-- A name in front of the first space is read with what stands behind it. -/
theorem ofText?_of_space {name : Bytes} (h : Bytes.space ∉ name) (operands : Bytes) :
    ofText? (name ++ Bytes.space :: operands) =
      if name = ascii "char" then (shownByte? operands).map .byte
      else if name = ascii "jmp" then (Bytes.natural? operands).map .jump
      else if name = ascii "split" then (shownPlaces? operands).map fun (x, y) => .split x y
      else none := by
  rw [ofText?, Bytes.cutAt?_eq_some_iff.2 ⟨rfl, h⟩]

theorem shownPlaces?_text (x y : Nat) :
    shownPlaces? (Bytes.decimal x ++ ascii ", " ++ Bytes.decimal y) = some (x, y) := by
  have hcut : Bytes.cutAt? 44 (Bytes.decimal x ++ ascii ", " ++ Bytes.decimal y) =
      some (Bytes.decimal x, 32 :: Bytes.decimal y) := by
    rw [Bytes.cutAt?_eq_some_iff, List.append_assoc]
    exact ⟨rfl, Bytes.not_mem_decimal (by decide) x⟩
  simp only [shownPlaces?, hcut, Bytes.natural?_decimal]

/-- The text of an instruction is read back. -/
theorem ofText?_text (i : Instr) : ofText? i.text = some i := by
  cases i with
  | byte b =>
    have htext : (Instr.byte b).text = ascii "char" ++ Bytes.space ::
        (if Bytes.isPrintable b then 39 :: b :: [39] else 48 :: 120 :: Bytes.hex b) := by
      rw [text]
      split <;> rfl
    rw [htext, ofText?_of_space (by decide), shownByte?_text]
    rfl
  | any => decide
  | accept => decide
  | jump x =>
    have htext : (Instr.jump x).text = ascii "jmp" ++ Bytes.space :: Bytes.decimal x := rfl
    rw [htext, ofText?_of_space (by decide), Bytes.natural?_decimal]
    rfl
  | split x y =>
    have htext : (Instr.split x y).text = ascii "split" ++ Bytes.space ::
        (Bytes.decimal x ++ ascii ", " ++ Bytes.decimal y) := by
      simp [text, ascii]
      rfl
    rw [htext, ofText?_of_space (by decide), shownPlaces?_text]
    rfl

theorem text_printable (i : Instr) : ∀ b ∈ i.text, Bytes.isPrintable b = true := by
  have number (n : Nat) : ∀ b ∈ Bytes.decimal n, Bytes.isPrintable b = true :=
    fun b hb => Bytes.isPrintable_of_isDigit (List.all_eq_true.1 (Bytes.all_isDigit_decimal n) b hb)
  have literal {s : Bytes} (hs : s.all Bytes.isPrintable = true) :
      ∀ b ∈ s, Bytes.isPrintable b = true := List.all_eq_true.1 hs
  cases i with
  | byte b =>
    rw [text]
    split
    · next hb =>
      simp only [List.forall_mem_append, List.forall_mem_singleton]
      exact ⟨⟨literal (by decide), hb⟩, literal (by decide)⟩
    · have hb := b.toNat_lt
      simp only [Bytes.hex, List.forall_mem_append, List.forall_mem_cons]
      exact ⟨literal (by decide), Bytes.hexDigit_printable _ (by omega),
        Bytes.hexDigit_printable _ (by omega), by simp⟩
  | any => exact literal (by decide)
  | accept => exact literal (by decide)
  | jump x => exact List.forall_mem_append.2 ⟨literal (by decide), number x⟩
  | split x y =>
    simp only [text, List.forall_mem_append]
    exact ⟨⟨⟨literal (by decide), number x⟩, literal (by decide)⟩, number y⟩

/-- The text of an instruction whose targets fit in a word is short. -/
theorem length_text_lt {i : Instr} (h : ∀ t ∈ i.targets, t < 4294967296) :
    i.text.length < 48 := by
  have number {n : Nat} (hn : n < 4294967296) : (Bytes.decimal n).length ≤ 10 :=
    Nat.le_trans (Bytes.length_decimal_mono (Nat.le_of_lt_succ hn))
      (by decide +kernel : (Bytes.decimal 4294967295).length ≤ 10)
  cases i with
  | byte b =>
    rw [text]
    split <;> simp [ascii, Bytes.hex]
  | any => decide
  | accept => decide
  | jump x =>
    have hx := number (h x (by simp [targets]))
    simp only [text, List.length_append]
    have hname : (ascii "jmp ").length = 4 := rfl
    omega
  | split x y =>
    have hx := number (h x (by simp [targets]))
    have hy := number (h y (by simp [targets]))
    simp only [text, List.length_append]
    have hname : (ascii "split ").length = 6 := rfl
    have hcomma : (ascii ", ").length = 2 := rfl
    omega

end Instr

/-! ## Lines -/

namespace Program

theorem listing_eq_unlines (p : Program) : p.listing = Bytes.unlines p.lineTexts := by
  rw [listing, Bytes.unlines, lineTexts, List.map_map]
  rfl

theorem length_lineTexts (p : Program) : p.lineTexts.length = p.size := by
  simp [lineTexts, size]

theorem getElem?_lineTexts {p : Program} {pc : Nat} {i : Instr} (h : p.code[pc]? = some i) :
    p.lineTexts[pc]? = some (indexText pc ++ i.text) := by
  simp [lineTexts, h]

theorem indexText_printable (pc : Nat) : ∀ b ∈ indexText pc, Bytes.isPrintable b = true :=
  List.forall_mem_append.2
    ⟨fun b hb => Bytes.isPrintable_of_isDigit (Bytes.decimalPadded_digits 3 pc b hb),
      List.all_eq_true.1 (by decide)⟩

theorem lineTexts_printable (p : Program) :
    ∀ l ∈ p.lineTexts, ∀ b ∈ l, Bytes.isPrintable b = true := by
  intro l hl
  obtain ⟨⟨i, pc⟩, -, rfl⟩ := List.mem_map.1 hl
  exact List.forall_mem_append.2 ⟨indexText_printable pc, i.text_printable⟩

theorem newline_not_mem_lineTexts (p : Program) : ∀ l ∈ p.lineTexts, Bytes.newline ∉ l := by
  intro l hl hmem
  have := p.lineTexts_printable l hl _ hmem
  revert this
  decide

/-- An index that fits in 64 bits takes 22 places at most. -/
theorem length_indexText_lt {pc : Nat} (h : pc < Bytes.wordBound) : (indexText pc).length < 24 := by
  have hle := Nat.le_trans (Bytes.length_decimal_mono (Nat.le_of_lt_succ h))
    (by decide +kernel : (Bytes.decimal 18446744073709551615).length ≤ 20)
  have hblanks : (ascii "  ").length = 2 := rfl
  simp only [indexText, Bytes.decimalPadded, List.length_append, List.length_replicate]
  omega

/-- The index stops at the first space, and the text of the instruction starts behind the second. -/
theorem ofLine?_text (pc : Nat) (i : Instr) : ofLine? (indexText pc ++ i.text) = some i := by
  have hdrop : (indexText pc ++ i.text).dropWhile Bytes.isDigit = ascii "  " ++ i.text := by
    rw [indexText, List.append_assoc,
      List.dropWhile_append_of_pos (Bytes.decimalPadded_digits 3 pc)]
    rfl
  rw [ofLine?, hdrop]
  exact i.ofText?_text

theorem mapM_ofLine?_zipIdx (code : List Instr) (n : Nat) :
    ((code.zipIdx n).map fun (i, pc) => indexText pc ++ i.text).mapM ofLine? = some code := by
  induction code generalizing n with
  | nil => rfl
  | cons i code ih =>
    rw [List.zipIdx_cons, List.map_cons, List.mapM_cons, ofLine?_text, ih]
    rfl

/-- Every program is read back from its listing. -/
theorem ofListing?_listing (p : Program) : ofListing? p.listing = some p := by
  rw [ofListing?, listing_eq_unlines, Bytes.lines_unlines p.newline_not_mem_lineTexts,
    List.dropLast_concat, lineTexts, mapM_ofLine?_zipIdx]
  rfl

theorem listing_injective : Function.Injective listing := by
  intro p q h
  have hread := congrArg ofListing? h
  rw [ofListing?_listing, ofListing?_listing] at hread
  exact Option.some.inj hread

theorem listing_printable (p : Program) :
    ∀ b ∈ p.listing, Bytes.isPrintable b = true ∨ b = Bytes.newline := by
  intro b hb
  rw [listing_eq_unlines] at hb
  rcases Bytes.mem_unlines hb with ⟨l, hl, hb⟩ | hb
  · exact .inl (p.lineTexts_printable l hl b hb)
  · exact .inr hb

/-- No byte of a listing is zero, so nothing cuts it short. -/
theorem untilNul_listing (p : Program) : Bytes.untilNul p.listing = p.listing := by
  apply List.takeWhile_eq_self_iff.2
  intro b hb
  rw [bne_iff_ne]
  rintro rfl
  have hzero := p.listing_printable 0 hb
  revert hzero
  decide

end Program

/-! ## Main statement -/

namespace Pattern

/-- **Listings are faithful.**  The program of a pattern is read back from its listing, with all
bytes and all targets, so another program has the same listing only if it is the same.  Whatever
bytes the pattern holds, the listing has exactly one line for each instruction, with a line feed
behind it; all else in it is printable, and it does not end early where a text ends at its first
zero byte.  In a program whose places fit in 32 bits no index takes more than 23 bytes and no
instruction more than 47. -/
theorem listing_of_compile {pattern : Bytes} {p : Program} (h : compile pattern = .ok p) :
    Program.ofListing? p.listing = some p ∧
    (∀ q : Program, p.listing = q.listing ↔ p = q) ∧
    p.listing = Bytes.unlines p.lineTexts ∧ p.lineTexts.length = p.size ∧
    (∀ pc i, p.code[pc]? = some i → p.lineTexts[pc]? = some (Program.indexText pc ++ i.text) ∧
      (p.size ≤ 4294967296 → (Program.indexText pc).length < 24 ∧ i.text.length < 48)) ∧
    (∀ l ∈ p.lineTexts, ∀ b ∈ l, 32 ≤ b ∧ b ≤ 126) ∧
    (∀ b ∈ p.listing, 32 ≤ b ∧ b ≤ 126 ∨ b = Bytes.newline) ∧
    Bytes.untilNul p.listing = p.listing := by
  refine ⟨p.ofListing?_listing, fun q => Program.listing_injective.eq_iff, p.listing_eq_unlines,
    p.length_lineTexts, fun pc i hi => ?_, fun l hl b hb => ?_, fun b hb => ?_,
    p.untilNul_listing⟩
  · refine ⟨Program.getElem?_lineTexts hi, fun hsize => ?_⟩
    obtain ⟨hpc, rfl⟩ := Array.getElem?_eq_some_iff.1 hi
    have hlt : pc < p.size := hpc
    constructor
    · exact Program.length_indexText_lt (Nat.lt_of_lt_of_le hlt (Nat.le_trans hsize (by decide)))
    · -- a target that is a place of the program fits in a word
      obtain ⟨e, he, hcode⟩ := exists_solid_of_compile h
      have hwf := Program.wellFormed_of_solid he hcode
      exact Instr.length_text_lt fun x hx =>
        Nat.lt_of_lt_of_le (hwf.target_lt (Array.getElem_mem hpc) hx) hsize
  · exact Bytes.isPrintable_iff.1 (p.lineTexts_printable l hl b hb)
  · rw [← Bytes.isPrintable_iff]
    exact p.listing_printable b hb

/-- Two patterns of an apostrophe, a zero byte, a line feed and a byte that is not ASCII, the last one
repeated in one and optional in the other. -/
theorem listing_of_compile_unprintable :
    ∃ p q, compile [39, 0, 10, 255, 42] = .ok p ∧ compile [39, 0, 10, 255, 124] = .ok q ∧ p ≠ q ∧
      p.listing ≠ q.listing ∧ Program.ofListing? p.listing = some p ∧
      p.listing = Bytes.unlines p.lineTexts ∧ p.lineTexts.length = 7 ∧
      (∀ b ∈ p.listing, 32 ≤ b ∧ b ≤ 126 ∨ b = Bytes.newline) ∧
      Bytes.untilNul p.listing = p.listing := by
  have hp : compile [39, 0, 10, 255, 42] =
      .ok ⟨#[.byte 39, .byte 0, .byte 10, .split 4 6, .byte 255, .jump 3, .accept]⟩ := by cbv
  have hq : compile [39, 0, 10, 255, 124] =
      .ok ⟨#[.byte 39, .byte 0, .byte 10, .split 4 5, .byte 255, .accept]⟩ := by cbv
  obtain ⟨hread, heq, hlines, hlength, -, -, hprintable, hnul⟩ := listing_of_compile hp
  have hne : (⟨#[.byte 39, .byte 0, .byte 10, .split 4 6, .byte 255, .jump 3, .accept]⟩ : Program) ≠
      ⟨#[.byte 39, .byte 0, .byte 10, .split 4 5, .byte 255, .accept]⟩ := by decide
  exact ⟨_, _, hp, hq, hne, mt (heq _).1 hne, hread, hlines, hlength, hprintable, hnul⟩

end Pattern

end SweepRegex
