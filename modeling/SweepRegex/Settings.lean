import SweepRegex.Notice
import SweepRegex.Settings.Document
import SweepRegex.Settings.Environment

/-!
# Settings

Five settings, each of which may be written in the settings document or in the environment.  The
document goes first: if it gives a setting a value, the environment is not asked, not even if the
value is malformed.  A setting that is malformed where it is written has its default.
-/

namespace SweepRegex

/-- Where a setting may be written, and how it is read there. -/
structure Setting (α : Type) where
  table : Bytes
  key : Bytes
  /-- The name of the environment variable. -/
  name : Bytes
  default : α
  ofDocument? : Bytes → Option α
  ofVariable? : Bytes → Option α

namespace Setting

/-- The value of a setting, by the document that was loaded and the environment. -/
def resolve {α : Type} (s : Setting α) (document : Option Document) (env : Environment) : α :=
  match document.bind fun d => d.get? s.table s.key with
  | some text => (s.ofDocument? text).getD s.default
  | none => ((env.get? s.name).bind s.ofVariable?).getD s.default

/-! ## The settings there are -/

/-- The pattern, for a call that names none. -/
def pattern : Setting Bytes where
  table := ascii "regex"
  key := ascii "pattern"
  name := ascii "RELITE_PATTERN"
  default := ascii "c(ab)*c"
  ofDocument? := some
  ofVariable? := some

/-- A setting that is a number. -/
def number (table key name : String) (default : Nat) : Setting Nat where
  table := ascii table
  key := ascii key
  name := ascii name
  default := default
  ofDocument? := Bytes.word?
  ofVariable? := Bytes.word?

/-- The bound on threads. -/
def maxThreads : Setting Nat := number "engine" "max_threads" "RELITE_MAX_THREADS" 1048576

/-- The bound on steps. -/
def maxSteps : Setting Nat := number "engine" "max_steps" "RELITE_MAX_STEPS" 0

/-- The bound on the input. -/
def maxBytes : Setting Nat := number "input" "max_bytes" "RELITE_MAX_BYTES" 65536

/-- Whether the program tells what it does. -/
def debug : Setting Bool where
  table := ascii "log"
  key := ascii "debug"
  name := ascii "RELITE_DEBUG"
  default := false
  ofDocument? := Document.flag?
  ofVariable? := some ∘ Environment.truth

end Setting

/-- The settings of a call of the program. -/
structure Settings where
  pattern : Bytes
  limits : Limits
  maxBytes : Nat
  debug : Bool
  /-- The path of the document that was loaded. -/
  source : Option Bytes
deriving DecidableEq

namespace Settings

/-- All settings, by the environment and the document that was loaded, if any, with its path. -/
def resolve (document : Option (Bytes × Document)) (env : Environment) : Settings where
  pattern := Setting.pattern.resolve (document.map Prod.snd) env
  limits := ⟨Setting.maxThreads.resolve (document.map Prod.snd) env,
    Setting.maxSteps.resolve (document.map Prod.snd) env⟩
  maxBytes := Setting.maxBytes.resolve (document.map Prod.snd) env
  debug := Setting.debug.resolve (document.map Prod.snd) env
  source := document.map Prod.fst

/-- The document that was found at a path, together with the path. -/
def documentAt? (path : Bytes) (node : Node) : Option (Bytes × Document) :=
  (Document.ofNode? node).map fun document => (path, document)

/-- The settings of a call, where it has to be asked what a path leads to.  A path that is given and
cannot be opened is worth a notice; without one, the document is looked for in its usual place and
not missed. -/
def loadFrom {m : Type → Type} [Monad m] (node : Bytes → m Node) (env : Environment)
    (path : Bytes) : m (Settings × List Notice) := do
  if path = [] then
    match env.settingsPath? with
    | none => return (resolve none env, [])
    | some place => return (resolve (documentAt? place (← node place)) env, [])
  else
    let document := documentAt? path (← node path)
    return (resolve document env, if document.isNone then [.settingsUnreadable path] else [])

/-- The settings of a call, with these files. -/
def load (fs : FileSystem) (env : Environment) (path : Bytes) : Settings × List Notice :=
  (loadFrom (m := Id) fs.node env path).run

/-! ## Lemmas -/

/-- The document at a path, together with the path. -/
def document? (fs : FileSystem) (path : Bytes) : Option (Bytes × Document) :=
  (Document.load? fs path).map fun document => (path, document)

theorem load_eq (fs : FileSystem) (env : Environment) (path : Bytes) :
    load fs env path =
      if path = [] then (resolve (env.settingsPath?.bind (document? fs)) env, [])
      else (resolve (document? fs path) env,
        if (document? fs path).isNone then [.settingsUnreadable path] else []) := by
  unfold load loadFrom
  split
  · cases env.settingsPath? <;> rfl
  · rfl

end Settings

end SweepRegex
