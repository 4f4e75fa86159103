import SweepRegex.Bytes.Conversion

/-!
# Environment variables

A variable that is set to the empty text counts as not set.  The variables of the program have a
spelling in capitals and one in small letters, and each is read in place of the other when that
one is not set.
-/

namespace SweepRegex

/-- The environment of the program: the text of each variable that is set. -/
structure Environment where
  raw : Bytes → Option Bytes

namespace Environment

/-! ## Algorithm -/

/-- The environment with these variables and no others. -/
def ofList (entries : List (Bytes × Bytes)) : Environment := ⟨fun name => entries.lookup name⟩

/-- The text of a variable, unless it is empty. -/
def nonempty? (env : Environment) (name : Bytes) : Option Bytes :=
  (env.raw name).filter (· ≠ [])

/-- The start of the names of the program's variables, in capitals. -/
def upperStem : Bytes := ascii "RELITE_"

/-- The start of the names of the program's variables, in small letters. -/
def lowerStem : Bytes := ascii "relite_"

/-- The other spelling of the name of one of the program's variables. -/
def otherSpelling? (name : Bytes) : Option Bytes :=
  if upperStem.isPrefixOf name then some (lowerStem ++ name.drop upperStem.length)
  else if lowerStem.isPrefixOf name then some (upperStem ++ name.drop lowerStem.length)
  else none

/-- The text of a variable, in this spelling or else in the other. -/
def get? (env : Environment) (name : Bytes) : Option Bytes :=
  env.nonempty? name <|> (otherSpelling? name).bind env.nonempty?

/-- A variable's text as a truth value: no text is malformed, and it is enough to look at the
first byte. -/
def truth (s : Bytes) : Bool :=
  match s.head? with
  | some b => !(ascii "0fFnN").contains b
  | none => true

/-- A variable as a number, or the default.  The number has to go on to the zero byte behind the
text. -/
def number {α : Type} (env : Environment) (t : NumberType α) (name : Bytes) (default : α) : α :=
  match env.get? name with
  | none => default
  | some text =>
    let c := t.convert default text
    if c.failed || c.rest.headD 0 ≠ 0 then default else c.cell

/-- A variable as a number without a sign, or the default. -/
def word (env : Environment) (name : Bytes) (default : Nat) : Nat := env.number .word name default

/-- A variable as a truth value, or the default. -/
def flag (env : Environment) (name : Bytes) (default : Bool) : Bool :=
  ((env.get? name).map truth).getD default

/-- Where the settings document is, unless it is given: in the user's directory for settings, or
else below the user's home. -/
def settingsPath? (env : Environment) : Option Bytes :=
  match env.nonempty? (ascii "XDG_CONFIG_HOME") with
  | some directory => some (directory ++ ascii "/relite/config.toml")
  | none => (env.nonempty? (ascii "HOME")).map (· ++ ascii "/.config/relite/config.toml")

/-! ## Lemmas -/

theorem nonempty?_eq_some_iff {env : Environment} {name s : Bytes} :
    env.nonempty? name = some s ↔ env.raw name = some s ∧ s ≠ [] := by
  simp [nonempty?, Option.filter_eq_some_iff]

end Environment

end SweepRegex
