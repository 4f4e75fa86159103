import SweepRegex.Pattern.Emitter

/-!
# Compiling a pattern

A pattern is compiled in one pass.  Compilation stops at the first faulty byte, and what stands
after it does not matter; `size_compile` gives the length of the program in advance.
-/

namespace SweepRegex.Pattern

/-- The program of a pattern, or the first fault in it. -/
def compile (pattern : Bytes) : Except Fault Program :=
  (Emitter.start.feedAll 0 pattern).map Emitter.finish

/-- A pattern compiles to as many instructions as its symbols announce. -/
theorem size_compile {pattern : Bytes} {p : Program} (h : compile pattern = .ok p) :
    p.size = size pattern := by
  unfold compile at h
  cases he : Emitter.start.feedAll 0 pattern with
  | error fault => rw [he] at h; cases h
  | ok e =>
    rw [he] at h
    cases h
    have := Emitter.size_feedAll he
    rw [Emitter.size_finish]
    simpa [Emitter.start] using this

end SweepRegex.Pattern
