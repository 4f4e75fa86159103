import SweepRegex.Proofs.Settings.Assignments
import SweepRegex.Settings

/-!
# Where each setting comes from

The settings of a call depend on the files, the environment and the path given for the settings
document (`Configuration`).  Each setting has its own key in the document and its own two variables,
and nothing else has a say in it (`Settled`): an assignment in the document decides, well-formed or
not, and only without one the variable does, in capitals before small letters.

    c.Agrees c' table key name → the setting has the same value in both         (settled_load)
-/

namespace SweepRegex

namespace Environment

/-- The variable of this name holds this text: in capitals, or else in small letters.  An empty
text is none. -/
def Holds (env : Environment) (name : String) (v : Bytes) : Prop :=
  env.nonempty? (ascii "RELITE_" ++ ascii name) = some v ∨
    env.nonempty? (ascii "RELITE_" ++ ascii name) = none ∧
      env.nonempty? (ascii "relite_" ++ ascii name) = some v

/-- The value that the environment and the default give a setting where no document has a say. -/
inductive Gives {α : Type} (env : Environment) (name : String) (wellFormed : Bytes → α → Prop)
    (default : α) : α → Prop where
  | held {v : Bytes} {a : α} : env.Holds name v → wellFormed v a →
      Gives env name wellFormed default a
  | malformed {v : Bytes} : env.Holds name v → (∀ a, ¬wellFormed v a) →
      Gives env name wellFormed default default
  | unset : (∀ v, ¬env.Holds name v) → Gives env name wellFormed default default

end Environment

/-- What the settings of a call depend on.  The path is empty if none is given. -/
structure Configuration where
  files : FileSystem
  environment : Environment
  path : Bytes

namespace Configuration

/-! ## Sources of a setting -/

/-- The settings of the call. -/
def settings (c : Configuration) : Settings := (Settings.load c.files c.environment c.path).1

/-- Where the settings document is looked for. -/
def place? (c : Configuration) : Option Bytes :=
  if c.path = [] then c.environment.settingsPath? else some c.path

/-- There is a file at that place, or nothing. -/
def Regular (c : Configuration) : Prop :=
  ∀ path, c.place? = some path → c.files.node path ≠ .directory

/-- The document is the file of this path and has this text. -/
def Reads (c : Configuration) (path text : Bytes) : Prop :=
  c.place? = some path ∧ c.files.node path = .file text

/-- There is a document, and what it assigns last to the key is this. -/
def Assigns (c : Configuration) (table key : String) (v : Bytes) : Prop :=
  ∃ path text, c.Reads path text ∧
    Document.LastAssigned (Bytes.lines text) (ascii table) (ascii key) v

/-- The value that a setting has to have.  The two relations say which texts are well-formed in the
document and in a variable, and for what. -/
inductive Settled {α : Type} (c : Configuration) (table key name : String)
    (inDocument inVariable : Bytes → α → Prop) (default : α) : α → Prop where
  | assigned {v : Bytes} {a : α} : c.Assigns table key v → inDocument v a →
      Settled c table key name inDocument inVariable default a
  /-- The environment is not asked, although the document is of no use. -/
  | malformed {v : Bytes} : c.Assigns table key v → (∀ a, ¬inDocument v a) →
      Settled c table key name inDocument inVariable default default
  | held {v : Bytes} {a : α} : (∀ w, ¬c.Assigns table key w) → c.environment.Holds name v →
      inVariable v a → Settled c table key name inDocument inVariable default a
  /-- The spelling in small letters is not asked either. -/
  | heldMalformed {v : Bytes} : (∀ w, ¬c.Assigns table key w) → c.environment.Holds name v →
      (∀ a, ¬inVariable v a) → Settled c table key name inDocument inVariable default default
  | nowhere : (∀ w, ¬c.Assigns table key w) → (∀ v, ¬c.environment.Holds name v) →
      Settled c table key name inDocument inVariable default default

/-- Two configurations have the same last assignment to a key and, where there is none, the same
variables of a name. -/
structure Agrees (c c' : Configuration) (table key name : String) : Prop where
  document : ∀ v, c.Assigns table key v ↔ c'.Assigns table key v
  environment : (∀ v, ¬c.Assigns table key v) → ∀ stem ∈ [ascii "RELITE_", ascii "relite_"],
    c.environment.nonempty? (stem ++ ascii name) = c'.environment.nonempty? (stem ++ ascii name)

/-! ## Well-formed texts -/

/-- Decimal digits of a number that fits in 64 bits. -/
def Numeral (s : Bytes) (n : Nat) : Prop :=
  s ≠ [] ∧ (∀ b ∈ s, Bytes.isDigit b = true) ∧ Bytes.ofDigits s = n ∧ n < 18446744073709551616

/-- The words for a truth value in a document. -/
def TruthWord (s : Bytes) (b : Bool) : Prop :=
  b = true ∧ s ∈ [ascii "true", ascii "True", ascii "TRUE", ascii "1"] ∨
    b = false ∧ s ∈ [ascii "false", ascii "False", ascii "FALSE", ascii "0"]

/-- A variable says no by its first byte and yes by any other. -/
def Switch (s : Bytes) (b : Bool) : Prop := b = false ↔ ∃ d ∈ ascii "0fFnN", s.head? = some d

theorem numeral_iff_word? (s : Bytes) (n : Nat) : Numeral s n ↔ Bytes.word? s = some n := by
  rw [Bytes.word?_eq_some_iff, Bytes.natural?]
  simp only [Numeral, Bytes.wordBound, List.all_eq_true, Option.ite_none_right_eq_some,
    Option.some.injEq, and_assoc]

theorem truthWord_iff_flag? (s : Bytes) (b : Bool) :
    TruthWord s b ↔ Document.flag? s = some b := by
  have hne : s ∈ [ascii "true", ascii "True", ascii "TRUE", ascii "1"] →
      s ∉ [ascii "false", ascii "False", ascii "FALSE", ascii "0"] := by
    revert s
    decide
  simp only [TruthWord, List.mem_cons, List.not_mem_nil, or_false] at hne ⊢
  rw [Document.flag?]
  split
  · next h => simp [h, hne h, eq_comm]
  · next h => split <;> simp_all [eq_comm]

theorem switch_iff_truth (s : Bytes) (b : Bool) : Switch s b ↔ Environment.truth s = b := by
  cases s with
  | nil => cases b <;> simp [Switch, Environment.truth]
  | cons d s => cases b <;> simp [Switch, Environment.truth]

/-! ## Looking up the sources -/

section
variable {c : Configuration} {table key name : String} {v : Bytes}

/-- The document that is loaded, with its path. -/
def loaded? (c : Configuration) : Option (Bytes × Document) :=
  c.place?.bind (Settings.document? c.files)

/-- The text that the document assigns to a key. -/
def lookup? (c : Configuration) (table key : String) : Option Bytes :=
  (c.loaded?.map Prod.snd).bind fun d => d.get? (ascii table) (ascii key)

theorem settings_eq_resolve (c : Configuration) :
    c.settings = Settings.resolve c.loaded? c.environment := by
  rw [settings, Settings.load_eq]
  unfold loaded? place?
  split <;> rfl

/-- Where there is no directory, the document is a file that was read, or there is none. -/
theorem loaded?_eq_some_iff (h : c.Regular) {path : Bytes} {d : Document} :
    c.loaded? = some (path, d) ↔ ∃ text, c.Reads path text ∧ d = Document.parse text := by
  simp only [loaded?, Option.bind_eq_some_iff, Settings.document?, Option.map_eq_some_iff,
    Prod.mk.injEq]
  constructor
  · rintro ⟨path, hplace, d, hload, rfl, rfl⟩
    cases hnode : c.files.node path with
    | refused why => simp [Document.load?, Document.ofNode?, hnode] at hload
    | directory => exact absurd hnode (h path hplace)
    | file text =>
      simp only [Document.load?, Document.ofNode?, hnode, Option.some.injEq] at hload
      exact ⟨text, ⟨hplace, hnode⟩, hload.symm⟩
  · rintro ⟨text, ⟨hplace, hnode⟩, rfl⟩
    exact ⟨path, hplace, _, by simp [Document.load?, Document.ofNode?, hnode], rfl, rfl⟩

theorem source_eq_some_iff (h : c.Regular) {path : Bytes} :
    c.loaded?.map Prod.fst = some path ↔
      ∃ text, c.Reads path text := by
  rw [Option.map_eq_some_iff]
  constructor
  · rintro ⟨⟨path, d⟩, hd, rfl⟩
    obtain ⟨text, hreads, -⟩ := (loaded?_eq_some_iff h).1 hd
    exact ⟨text, hreads⟩
  · rintro ⟨text, hreads⟩
    exact ⟨_, (loaded?_eq_some_iff h).2 ⟨text, hreads, rfl⟩, rfl⟩

theorem lookup?_eq_some_iff (h : c.Regular) :
    c.lookup? table key = some v ↔ c.Assigns table key v := by
  rw [lookup?, Option.bind_eq_some_iff]
  constructor
  · rintro ⟨d, hmap, hv⟩
    obtain ⟨⟨path, d⟩, hd, rfl⟩ := Option.map_eq_some_iff.1 hmap
    obtain ⟨text, hreads, rfl⟩ := (loaded?_eq_some_iff h).1 hd
    exact ⟨path, text, hreads, Document.get?_parse_eq_some_iff.1 hv⟩
  · rintro ⟨path, text, hreads, hv⟩
    have hd := (loaded?_eq_some_iff h).2 ⟨text, hreads, rfl⟩
    exact ⟨_, Option.map_eq_some_iff.2 ⟨_, hd, rfl⟩, Document.get?_parse_eq_some_iff.2 hv⟩

theorem lookup?_eq_none_iff (h : c.Regular) :
    c.lookup? table key = none ↔ ∀ v, ¬c.Assigns table key v := by
  simp only [← lookup?_eq_some_iff h, Option.eq_none_iff_forall_ne_some, ne_eq]

end

end Configuration

namespace Environment

theorem get?_upper (env : Environment) (name : String) :
    env.get? (ascii "RELITE_" ++ ascii name) =
      (env.nonempty? (ascii "RELITE_" ++ ascii name) <|>
        env.nonempty? (ascii "relite_" ++ ascii name)) := by
  have hspelling : otherSpelling? (ascii "RELITE_" ++ ascii name) =
      some (ascii "relite_" ++ ascii name) := by
    have hstem : upperStem.isPrefixOf (ascii "RELITE_" ++ ascii name) = true :=
      List.isPrefixOf_iff_prefix.2 (List.prefix_append _ _)
    rw [otherSpelling?, if_pos hstem]
    exact congrArg some (congrArg _ List.drop_left)
  rw [get?, hspelling, Option.bind_some]

theorem get?_eq_some_iff {env : Environment} {name : String} {v : Bytes} :
    env.get? (ascii "RELITE_" ++ ascii name) = some v ↔ env.Holds name v := by
  rw [get?_upper, Holds]
  cases env.nonempty? (ascii "RELITE_" ++ ascii name) <;> simp

theorem get?_eq_none_iff {env : Environment} {name : String} :
    env.get? (ascii "RELITE_" ++ ascii name) = none ↔ ∀ v, ¬env.Holds name v := by
  simp only [← get?_eq_some_iff, Option.eq_none_iff_forall_ne_some, ne_eq]

/-- A variable that is read gives its setting the value it has to have. -/
theorem getD_get?_bind_iff_gives {env : Environment} {name : String} {α : Type}
    {wellFormed : Bytes → α → Prop} {read? : Bytes → Option α}
    (hread : ∀ v a, wellFormed v a ↔ read? v = some a) {default a : α} :
    ((env.get? (ascii "RELITE_" ++ ascii name)).bind read?).getD default = a ↔
      env.Gives name wellFormed default a := by
  constructor
  · rintro rfl
    cases hvar : env.get? (ascii "RELITE_" ++ ascii name) with
    | none => exact .unset (get?_eq_none_iff.1 hvar)
    | some v =>
      have hholds := get?_eq_some_iff.1 hvar
      rw [Option.bind_some]
      cases ha : read? v with
      | some a => exact .held hholds ((hread v a).2 ha)
      | none => exact .malformed hholds (by simp [hread, ha])
  · intro hgives
    cases hgives with
    | held hholds ha =>
      rw [get?_eq_some_iff.2 hholds, Option.bind_some, (hread _ _).1 ha, Option.getD_some]
    | @malformed v hholds hno =>
      have hnone : read? v = none := by
        simpa [hread, Option.eq_none_iff_forall_ne_some] using hno
      rw [get?_eq_some_iff.2 hholds, Option.bind_some, hnone, Option.getD_none]
    | unset hno => rw [get?_eq_none_iff.2 hno, Option.bind_none, Option.getD_none]

end Environment

namespace Configuration

/-! ## One setting -/

section
variable {c c' : Configuration} {α : Type} {s : Setting α} {table key name : String}
  (htable : s.table = ascii table) (hkey : s.key = ascii key)
  (hname : s.name = ascii "RELITE_" ++ ascii name)
include htable hkey hname

/-- A setting is resolved from its own key and its own variables. -/
theorem resolve_eq (c : Configuration) :
    s.resolve (c.loaded?.map Prod.snd) c.environment =
      match c.lookup? table key with
      | some text => (s.ofDocument? text).getD s.default
      | none =>
        ((c.environment.get? (ascii "RELITE_" ++ ascii name)).bind
          s.ofVariable?).getD s.default := by
  rw [Setting.resolve, htable, hkey, hname]
  rfl

/-- Without an assignment in the document a setting is left to the environment. -/
theorem resolve_eq_iff_gives {inVariable : Bytes → α → Prop}
    (hvariable : ∀ v a, inVariable v a ↔ s.ofVariable? v = some a)
    (hnone : c.lookup? table key = none) {a : α} :
    s.resolve (c.loaded?.map Prod.snd) c.environment = a ↔
      c.environment.Gives name inVariable s.default a := by
  rw [resolve_eq htable hkey hname, hnone]
  exact Environment.getD_get?_bind_iff_gives hvariable

/-- A setting has the value that its rule gives it, and no other. -/
theorem resolve_eq_iff_settled {inDocument inVariable : Bytes → α → Prop}
    (hdocument : ∀ v a, inDocument v a ↔ s.ofDocument? v = some a)
    (hvariable : ∀ v a, inVariable v a ↔ s.ofVariable? v = some a) (h : c.Regular) {a : α} :
    s.resolve (c.loaded?.map Prod.snd) c.environment = a ↔
      c.Settled table key name inDocument inVariable s.default a := by
  have hgives {a : α} (hnone : ∀ w, ¬c.Assigns table key w) :=
    @resolve_eq_iff_gives c α s table key name htable hkey hname inVariable hvariable
      ((lookup?_eq_none_iff h).2 hnone) a
  constructor
  · intro hresolve
    cases hdoc : c.lookup? table key with
    | some v =>
      have hassigns := (lookup?_eq_some_iff h).1 hdoc
      rw [resolve_eq htable hkey hname, hdoc] at hresolve
      subst hresolve
      show Settled c table key name _ _ s.default ((s.ofDocument? v).getD s.default)
      cases ha : s.ofDocument? v with
      | some a => exact .assigned hassigns ((hdocument v a).2 ha)
      | none => exact .malformed hassigns (by simp [hdocument, ha])
    | none =>
      have hnone := (lookup?_eq_none_iff h).1 hdoc
      cases (hgives hnone).1 hresolve with
      | held hholds ha => exact .held hnone hholds ha
      | malformed hholds hno => exact .heldMalformed hnone hholds hno
      | unset hno => exact .nowhere hnone hno
  · intro hsettled
    cases hsettled with
    | assigned hassigns ha =>
      simp only [resolve_eq htable hkey hname, (lookup?_eq_some_iff h).2 hassigns,
        (hdocument _ _).1 ha, Option.getD_some]
    | @malformed v hassigns hno =>
      have hnone : s.ofDocument? v = none := by
        simpa [hdocument, Option.eq_none_iff_forall_ne_some] using hno
      simp only [resolve_eq htable hkey hname, (lookup?_eq_some_iff h).2 hassigns, hnone,
        Option.getD_none]
    | held hnone hholds ha => exact (hgives hnone).2 (.held hholds ha)
    | heldMalformed hnone hholds hno => exact (hgives hnone).2 (.malformed hholds hno)
    | nowhere hnone hno => exact (hgives hnone).2 (.unset hno)

/-- Configurations that agree on the sources of a setting agree on the setting. -/
theorem resolve_eq_of_agrees (h : c.Regular) (h' : c'.Regular)
    (hagree : c.Agrees c' table key name) :
    s.resolve (c.loaded?.map Prod.snd) c.environment =
      s.resolve (c'.loaded?.map Prod.snd) c'.environment := by
  have hdoc : c.lookup? table key = c'.lookup? table key := by
    apply Option.ext
    intro v
    rw [lookup?_eq_some_iff h, lookup?_eq_some_iff h', hagree.document]
  rw [resolve_eq htable hkey hname, resolve_eq htable hkey hname, ← hdoc]
  cases hnone : c.lookup? table key with
  | some v => rfl
  | none =>
    have hvar := hagree.environment ((lookup?_eq_none_iff h).1 hnone)
    rw [Environment.get?_upper, Environment.get?_upper, hvar _ (by simp), hvar _ (by simp)]

end

/-! ## Main statement -/

/-- **Every setting is resolved exactly, from its own sources.**  Where no directory takes the place
of the settings document, each of the five settings has the value its rule gives it and no other,
and the source is the path of the document exactly if a file was read.  So two configurations that
agree on the last assignment to a key and on its two variables give its setting the same value,
whatever else is different in them. -/
theorem settled_load (c : Configuration) (h : c.Regular) :
    (∀ pattern, c.settings.pattern = pattern ↔
      c.Settled "regex" "pattern" "PATTERN" Eq Eq (ascii "c(ab)*c") pattern) ∧
    (∀ n, c.settings.limits.maxThreads = n ↔
      c.Settled "engine" "max_threads" "MAX_THREADS" Numeral Numeral 1048576 n) ∧
    (∀ n, c.settings.limits.maxSteps = n ↔
      c.Settled "engine" "max_steps" "MAX_STEPS" Numeral Numeral 0 n) ∧
    (∀ n, c.settings.maxBytes = n ↔
      c.Settled "input" "max_bytes" "MAX_BYTES" Numeral Numeral 65536 n) ∧
    (∀ b, c.settings.debug = b ↔ c.Settled "log" "debug" "DEBUG" TruthWord Switch false b) ∧
    (∀ path, c.settings.source = some path ↔ ∃ text, c.Reads path text) ∧
    ∀ c' : Configuration, c'.Regular →
      (c.Agrees c' "regex" "pattern" "PATTERN" → c.settings.pattern = c'.settings.pattern) ∧
      (c.Agrees c' "engine" "max_threads" "MAX_THREADS" →
        c.settings.limits.maxThreads = c'.settings.limits.maxThreads) ∧
      (c.Agrees c' "engine" "max_steps" "MAX_STEPS" →
        c.settings.limits.maxSteps = c'.settings.limits.maxSteps) ∧
      (c.Agrees c' "input" "max_bytes" "MAX_BYTES" →
        c.settings.maxBytes = c'.settings.maxBytes) ∧
      (c.Agrees c' "log" "debug" "DEBUG" → c.settings.debug = c'.settings.debug) := by
  have htext : ∀ v a : Bytes, v = a ↔ some v = some a := fun v a => by simp
  have hswitch : ∀ v b, Switch v b ↔ some (Environment.truth v) = some b := fun v b => by
    rw [switch_iff_truth, Option.some.injEq]
  rw [settings_eq_resolve]
  refine ⟨fun _ => resolve_eq_iff_settled (s := Setting.pattern) rfl rfl rfl htext htext h,
    fun _ => resolve_eq_iff_settled (s := Setting.maxThreads) rfl rfl rfl
      numeral_iff_word? numeral_iff_word? h,
    fun _ => resolve_eq_iff_settled (s := Setting.maxSteps) rfl rfl rfl
      numeral_iff_word? numeral_iff_word? h,
    fun _ => resolve_eq_iff_settled (s := Setting.maxBytes) rfl rfl rfl
      numeral_iff_word? numeral_iff_word? h,
    fun _ => resolve_eq_iff_settled (s := Setting.debug) rfl rfl rfl truthWord_iff_flag? hswitch h,
    fun path => source_eq_some_iff h, fun c' h' => ?_⟩
  rw [settings_eq_resolve]
  exact ⟨resolve_eq_of_agrees (s := Setting.pattern) rfl rfl rfl h h',
    resolve_eq_of_agrees (s := Setting.maxThreads) rfl rfl rfl h h',
    resolve_eq_of_agrees (s := Setting.maxSteps) rfl rfl rfl h h',
    resolve_eq_of_agrees (s := Setting.maxBytes) rfl rfl rfl h h',
    resolve_eq_of_agrees (s := Setting.debug) rfl rfl rfl h h'⟩

/-- A document that was named and one in its usual place, with the same last assignment to the bound
on steps; the variable of that setting is set beside the first of them only. -/
theorem settled_load_same_steps :
    let c : Configuration := ⟨.ofFiles [(ascii "conf",
        ascii "[engine]\nmax_steps = 7\n[log]\ndebug = maybe\n[engine]\nmax_steps = 12 # last")],
      .ofList [(ascii "RELITE_MAX_STEPS", ascii "99"), (ascii "RELITE_DEBUG", ascii "yes")],
      ascii "conf"⟩
    let c' : Configuration := ⟨.ofFiles [(ascii "home/.config/relite/config.toml",
        ascii "[log]\ndebug = 1\n[engine]\nmax_steps=12\n")],
      .ofList [(ascii "HOME", ascii "home")], []⟩
    c.Regular ∧ c'.Regular ∧ c.Agrees c' "engine" "max_steps" "MAX_STEPS" ∧
      c.settings.limits.maxSteps = c'.settings.limits.maxSteps ∧
      c.Settled "log" "debug" "DEBUG" TruthWord Switch false c.settings.debug := by
  intro c c'
  have hc : c.Regular := by
    have hplace : c.place? = some (ascii "conf") := by decide +kernel
    intro path h
    cases hplace.symm.trans h
    decide +kernel
  have hc' : c'.Regular := by
    have hplace : c'.place? = some (ascii "home/.config/relite/config.toml") := by decide +kernel
    intro path h
    cases hplace.symm.trans h
    decide +kernel
  have hsteps : c.lookup? "engine" "max_steps" = some (ascii "12") := by decide +kernel
  have hsteps' : c'.lookup? "engine" "max_steps" = some (ascii "12") := by decide +kernel
  have hagree : c.Agrees c' "engine" "max_steps" "MAX_STEPS" := by
    refine ⟨fun v => ?_, fun hnone => absurd ((lookup?_eq_some_iff hc).1 hsteps) (hnone _)⟩
    rw [← lookup?_eq_some_iff hc, ← lookup?_eq_some_iff hc', hsteps, hsteps']
  obtain ⟨-, -, -, -, hdebug, -, hagrees⟩ := settled_load c hc
  exact ⟨hc, hc', hagree, (hagrees c' hc').2.2.1 hagree, (hdebug _).1 rfl⟩

end Configuration

end SweepRegex
