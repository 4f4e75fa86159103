import SweepRegex.Expr
import SweepRegex.Pattern.Symbol

/-!
# The expression of a pattern

Every byte string is read as an expression here, faulty or not: an operator with nothing in front
of it applies to the empty expression, a closing bracket with no group open is skipped, and groups
still open at the end are closed there.  Which patterns are refused is a question for the compiler
alone.
-/

namespace SweepRegex

/-- One nesting level while a pattern is read: its finished items, and the last item, to which an
operator would apply. -/
structure Nesting where
  before : Expr
  last : Expr
deriving DecidableEq

namespace Nesting

/-- A level with nothing in it. -/
def blank : Nesting := ⟨.empty, .empty⟩

/-- All items of the level in order. -/
def expr (n : Nesting) : Expr := .seq n.before n.last

/-- Opens a new last item. -/
def item (n : Nesting) (e : Expr) : Nesting := ⟨n.expr, e⟩

end Nesting

namespace Expr

/-- The rest of a pattern, read inside a level and the levels around it. -/
def ofSymbols (level : Nesting) (outer : List Nesting) : List Symbol → Expr
  | [] => outer.foldl (fun e around => ({ around with last := e } : Nesting).expr) level.expr
  | .literal b :: rest => ofSymbols (level.item (.byte b)) outer rest
  | .any :: rest => ofSymbols (level.item .any) outer rest
  | .groupOpen :: rest => ofSymbols .blank (level.item .empty :: outer) rest
  | .groupClose :: rest =>
    match outer with
    | [] => ofSymbols level [] rest
    | around :: outer => ofSymbols { around with last := level.expr } outer rest
  | .plus :: rest => ofSymbols { level with last := .plus level.last } outer rest
  | .star :: rest => ofSymbols { level with last := .star level.last } outer rest
  | .bar :: rest => ofSymbols { level with last := .opt level.last } outer rest

/-- The expression a pattern stands for. -/
def ofPattern (pattern : Bytes) : Expr := ofSymbols .blank [] (pattern.map Symbol.ofByte)

end Expr

end SweepRegex
