import SweepRegex.Pattern.Fault
import SweepRegex.Pattern.Symbol
import SweepRegex.Program

/-!
# Emitting code symbol by symbol

The compiler reads a pattern once, from left to right, and keeps the code emitted so far.  For
each open group, and for the pattern around them, it remembers where the last item of that level
starts (`Level.mark`) and whether an operator may apply to it.  The postfix operators `*` and `|`
need a split in front of the item they apply to: the item's code moves up by one place, and its
branches move with it (`insertAt`).

Main statements: `toList_insertAt` describes the code after such a move, and `size_feed` says that
a symbol adds exactly its own size to the code.
-/

namespace SweepRegex

/-- What is known of one nesting level. -/
structure Level where
  /-- Where the code of the level's last item starts. -/
  mark : Nat
  /-- May an operator apply to that item? -/
  hasAtom : Bool
deriving DecidableEq

/-- The code emitted so far, the innermost level and the levels around it, inner ones first. -/
structure Emitter where
  code : Array Instr
  level : Level
  outer : List Level

namespace Emitter

/-! ## Algorithm -/

/-- How many groups may be open at once. -/
def maxDepth : Nat := 10

/-- Nothing emitted, no group open. -/
def start : Emitter := ⟨#[], ⟨0, false⟩, []⟩

/-- How many groups are open. -/
def depth (e : Emitter) : Nat := e.outer.length

/-- Puts an instruction at a place of the code.  All that stood there or later moves up by one
place, and so do the targets of its branches. -/
def insertAt (code : Array Instr) (mark : Nat) (i : Instr) : Array Instr :=
  let moved := (code.extract mark).map (Instr.relocate 1)
  (code.shrink mark).push i ++ moved

/-- A literal or the period: a new item of one instruction. -/
def atom (e : Emitter) (i : Instr) : Emitter :=
  let level : Level := ⟨e.code.size, true⟩
  { e with code := e.code.push i, level }

/-- An opening bracket: the group to come will be an item of the level around it. -/
def openGroup (e : Emitter) : Except PatternError Emitter :=
  if e.depth < maxDepth then
    let level : Level := ⟨e.code.size, false⟩
    .ok { e with level, outer := level :: e.outer }
  else .error .groupOverflow

/-- A closing bracket: the group is an item of the level around it, unless it has no code. -/
def closeGroup (e : Emitter) : Except PatternError Emitter :=
  match e.outer with
  | [] => .error .unmatchedClose
  | level :: outer =>
    .ok { e with level := ⟨level.mark, decide (level.mark < e.code.size)⟩, outer }

/-- One or more: after the item, a split back to its start. -/
def plus (e : Emitter) : Except PatternError Emitter :=
  if e.level.hasAtom then
    .ok { e with code := e.code.push (.split e.level.mark (e.code.size + 1)) }
  else .error .nothingToRepeat

/-- Zero or more: in front of the item a split past it, after it a jump back to the split. -/
def star (e : Emitter) : Except PatternError Emitter :=
  if e.level.hasAtom then
    let mark := e.level.mark
    let past := e.code.size + 2
    .ok { e with code := (insertAt e.code mark (.split (mark + 1) past)).push (.jump mark) }
  else .error .nothingToRepeat

/-- Optional: in front of the item a split past it.  No operator may follow. -/
def bar (e : Emitter) : Except PatternError Emitter :=
  if e.level.hasAtom then
    let mark := e.level.mark
    let past := e.code.size + 1
    .ok { e with
      code := insertAt e.code mark (.split (mark + 1) past)
      level := ⟨mark, false⟩ }
  else .error .nothingToRepeat

/-- The next symbol of the pattern. -/
def feed (e : Emitter) : Symbol → Except PatternError Emitter
  | .literal b => .ok (e.atom (.byte b))
  | .any => .ok (e.atom .any)
  | .groupOpen => e.openGroup
  | .groupClose => e.closeGroup
  | .plus => e.plus
  | .star => e.star
  | .bar => e.bar

/-- The rest of a pattern, whose first byte stands at the given offset. -/
def feedAll (e : Emitter) (offset : Nat) : Bytes → Except Fault Emitter
  | [] => .ok e
  | b :: rest =>
    match e.feed (Symbol.ofByte b) with
    | .ok e => e.feedAll (offset + 1) rest
    | .error error => .error ⟨error, offset⟩

/-- The program, once the pattern has been read.  Groups still open end here. -/
def finish (e : Emitter) : Program := ⟨e.code.push .accept⟩

/-! ## Lemmas -/

theorem toList_insertAt (code : Array Instr) (mark : Nat) (i : Instr) :
    (insertAt code mark i).toList =
      code.toList.take mark ++ i :: (code.toList.drop mark).map (Instr.relocate 1) := by
  have moved : (code.extract mark).toList = code.toList.drop mark := by
    rw [Array.toList_extract, List.extract_eq_take_drop]
    exact List.take_of_length_le (by simp)
  have settled : (code.take mark).toList = code.toList.take mark := by
    simp [Array.toList_extract]
  simp only [insertAt, Array.toList_append, Array.toList_push, Array.toList_map, moved,
    Array.shrink_eq_take, settled, List.append_assoc, List.singleton_append]

theorem size_insertAt (code : Array Instr) (mark : Nat) (i : Instr) :
    (insertAt code mark i).size = code.size + 1 := by
  rw [← Array.length_toList, toList_insertAt, ← Array.length_toList]
  simp
  omega

/-- A symbol that is accepted adds its own size to the code. -/
theorem size_feed {e e' : Emitter} {s : Symbol} (h : e.feed s = .ok e') :
    e'.code.size = e.code.size + s.size := by
  cases s with
  | literal b => cases h; simp [atom, Symbol.size]
  | any => cases h; simp [atom, Symbol.size]
  | groupOpen =>
    simp only [feed, openGroup] at h
    split at h
    · cases h; rfl
    · cases h
  | groupClose =>
    simp only [feed, closeGroup] at h
    split at h
    · cases h
    · cases h; rfl
  | plus =>
    simp only [feed, plus] at h
    split at h
    · cases h; simp [Symbol.size]
    · cases h
  | star =>
    simp only [feed, star] at h
    split at h
    · cases h; simp [Symbol.size, size_insertAt]
    · cases h
  | bar =>
    simp only [feed, bar] at h
    split at h
    · cases h; simp [Symbol.size, size_insertAt]
    · cases h

theorem size_feedAll {e e' : Emitter} {offset : Nat} {s : Bytes}
    (h : e.feedAll offset s = .ok e') :
    e'.code.size + 1 = e.code.size + Pattern.size s := by
  induction s generalizing e offset with
  | nil => cases h; rfl
  | cons b s ih =>
    rw [feedAll] at h
    split at h
    · rename_i e₁ h₁
      have := ih h
      have := size_feed h₁
      rw [Pattern.size_cons]
      omega
    · cases h

theorem size_finish (e : Emitter) : e.finish.size = e.code.size + 1 := by
  simp [finish, Program.size]

end Emitter

end SweepRegex
