import SweepRegex.CommandLine.Session
import SweepRegex.Proofs.Settings.Sources

/-!
# A settings document that cannot be read

The path of a call may lead to no file.  There is nothing to read then, and every setting is left
to the environment and its default (`Environment.Gives`).  Whether that is reported is another
matter: a path that the system refuses to open is, but a directory can be opened, and is taken for a
document without lines.

    source = none ∧ told = "relite: Config: cannot read …" ↔ ∃ why, fs.node path = .refused why
                                                                             (load_unreadable)
-/

namespace SweepRegex

namespace Configuration

variable {c : Configuration}

theorem loaded?_of_path_ne_nil (h : c.path ≠ []) :
    c.loaded? = Settings.document? c.files c.path := by
  rw [loaded?, place?, if_neg h, Option.bind_some]

/-- A path that leads to no file gives no setting a value. -/
theorem lookup?_of_unreadable (hpath : c.path ≠ [])
    (hunread : ∀ text, c.files.node c.path ≠ .file text) (table key : String) :
    c.lookup? table key = none := by
  rw [lookup?, loaded?_of_path_ne_nil hpath, Settings.document?, Document.load?]
  cases hnode : c.files.node c.path with
  | refused why => rfl
  | directory => rfl
  | file text => exact absurd hnode (hunread text)

end Configuration

namespace Settings

variable {fs : FileSystem} {env : Environment} {path : Bytes}

/-- What is told about a path that cannot be opened, for whatever reason. -/
theorem load_refused {why : Refusal} (hpath : path ≠ []) (h : fs.node path = .refused why) :
    (load fs env path).1.source = none ∧
      (load fs env path).2 = [.settingsUnreadable path] := by
  simp [load_eq, hpath, document?, Document.load?, Document.ofNode?, h, resolve]

/-- A directory is the source of the settings. -/
theorem load_directory (hpath : path ≠ []) (h : fs.node path = .directory) :
    (load fs env path).1.source = some path ∧ (load fs env path).2 = [] := by
  simp [load_eq, hpath, document?, Document.load?, Document.ofNode?, h, resolve]

/-! ## Main statement -/

/-- **A settings document that cannot be read has no say, and is reported if it cannot be opened.**
Where the path of a call leads to no file, all five settings are those of the environment and the
defaults.  There is no source and the line on the error output exactly if the system refuses to open
the path; a directory is the source, and nothing is told. -/
theorem load_unreadable (hpath : path ≠ []) (hunread : ∀ text, fs.node path ≠ .file text) :
    let settings := (load fs env path).1
    let told := noticesText (load fs env path).2
    (∀ pattern, settings.pattern = pattern ↔
      env.Gives "PATTERN" Eq (ascii "c(ab)*c") pattern) ∧
    (∀ n, settings.limits.maxThreads = n ↔
      env.Gives "MAX_THREADS" Configuration.Numeral 1048576 n) ∧
    (∀ n, settings.limits.maxSteps = n ↔ env.Gives "MAX_STEPS" Configuration.Numeral 0 n) ∧
    (∀ n, settings.maxBytes = n ↔ env.Gives "MAX_BYTES" Configuration.Numeral 65536 n) ∧
    (∀ b, settings.debug = b ↔ env.Gives "DEBUG" Configuration.Switch false b) ∧
    (settings.source = none ∧ told = ascii "relite: Config: cannot read " ++
        Bytes.untilNul path ++ ascii ", using defaults\n" ↔
      ∃ why, fs.node path = .refused why) ∧
    (fs.node path = .directory → settings.source = some path ∧ told = []) := by
  intro settings told
  let c : Configuration := ⟨fs, env, path⟩
  have hnone := @Configuration.lookup?_of_unreadable c hpath hunread
  have htext : ∀ v a : Bytes, v = a ↔ some v = some a := fun v a => by simp
  have hswitch : ∀ v b, Configuration.Switch v b ↔ some (Environment.truth v) = some b :=
    fun v b => by rw [Configuration.switch_iff_truth, Option.some.injEq]
  have hsettings : settings = resolve c.loaded? env := c.settings_eq_resolve
  refine ⟨fun a => ?_, fun n => ?_, fun n => ?_, fun n => ?_, fun b => ?_, ?_, fun hdirectory => ?_⟩
  · rw [hsettings]
    exact Configuration.resolve_eq_iff_gives (s := Setting.pattern) rfl rfl rfl htext (hnone _ _)
  · rw [hsettings]
    exact Configuration.resolve_eq_iff_gives (s := Setting.maxThreads) rfl rfl rfl
      Configuration.numeral_iff_word? (hnone _ _)
  · rw [hsettings]
    exact Configuration.resolve_eq_iff_gives (s := Setting.maxSteps) rfl rfl rfl
      Configuration.numeral_iff_word? (hnone _ _)
  · rw [hsettings]
    exact Configuration.resolve_eq_iff_gives (s := Setting.maxBytes) rfl rfl rfl
      Configuration.numeral_iff_word? (hnone _ _)
  · rw [hsettings]
    exact Configuration.resolve_eq_iff_gives (s := Setting.debug) rfl rfl rfl hswitch (hnone _ _)
  · cases hnode : fs.node path with
    | refused why =>
      obtain ⟨hsource, hnotices⟩ := @load_refused fs env path why hpath hnode
      refine iff_of_true ⟨hsource, ?_⟩ ⟨why, rfl⟩
      simp [told, hnotices, noticesText, Notice.text, Notice.message, Notice.appendix, ascii,
        Bytes.newline]
    | directory =>
      obtain ⟨hsource, -⟩ := @load_directory fs env path hpath hnode
      refine iff_of_false (fun h => ?_) (by simp)
      rw [h.1] at hsource
      cases hsource
    | file text => exact absurd hnode (hunread text)
  · obtain ⟨hsource, hnotices⟩ := @load_directory fs env path hpath hdirectory
    exact ⟨hsource, congrArg noticesText hnotices⟩

/-- A path that leads nowhere and a directory, with one variable that is well-formed and one that is
not. -/
theorem load_unreadable_twice :
    let fs := FileSystem.ofFiles [(ascii "d/x", [])]
    let env := Environment.ofList
      [(ascii "RELITE_MAX_STEPS", ascii "7"), (ascii "relite_MAX_BYTES", ascii "7 ")]
    ((load fs env (ascii "e")).1.limits.maxSteps = 7 ∧
      (load fs env (ascii "e")).1.source = none ∧
      noticesText (load fs env (ascii "e")).2 =
        ascii "relite: Config: cannot read e, using defaults\n") ∧
    (load fs env (ascii "d")).1.maxBytes = 65536 ∧
      (load fs env (ascii "d")).1.source = some (ascii "d") := by
  intro fs env
  have hrefused : fs.node (ascii "e") = .refused .notFound := by decide +kernel
  have hdirectory : fs.node (ascii "d") = .directory := by decide +kernel
  obtain ⟨-, -, hsteps, -, -, htold, -⟩ := @load_unreadable fs env (ascii "e") (by decide)
    (by simp [hrefused])
  obtain ⟨-, -, -, hbytes, -, -, hsource⟩ := @load_unreadable fs env (ascii "d") (by decide)
    (by simp [hdirectory])
  have hseven : Configuration.Numeral (ascii "7") 7 :=
    ⟨by decide, by decide +kernel, by decide +kernel, by omega⟩
  have hblank : ∀ n, ¬Configuration.Numeral (ascii "7 ") n :=
    fun n h => absurd h.2.1 (by decide)
  have hheld : env.Holds "MAX_STEPS" (ascii "7") := .inl (by decide +kernel)
  have hheld' : env.Holds "MAX_BYTES" (ascii "7 ") :=
    .inr ⟨by decide +kernel, by decide +kernel⟩
  exact ⟨⟨(hsteps 7).2 (.held hheld hseven), htold.2 ⟨_, hrefused⟩⟩,
    (hbytes 65536).2 (.malformed hheld' hblank), (hsource hdirectory).1⟩

/-- A directory is not reported, although there is nothing to read in it. -/
theorem not_reported_directory : ¬∀ (fs : FileSystem) (env : Environment) (path : Bytes),
    path ≠ [] → (∀ text, fs.node path ≠ .file text) →
    (load fs env path).1.source = none ∧
      noticesText (load fs env path).2 = ascii "relite: Config: cannot read " ++
        Bytes.untilNul path ++ ascii ", using defaults\n" := by
  intro h
  let fs := FileSystem.ofFiles [(ascii "d/x", [])]
  have hdirectory : fs.node (ascii "d") = .directory := by decide +kernel
  obtain ⟨hsource, -⟩ := h fs (.ofList []) (ascii "d") (by decide) (by simp [hdirectory])
  have hfound := (@load_directory fs (.ofList []) (ascii "d") (by decide) hdirectory).1
  rw [hsource] at hfound
  cases hfound

end Settings

end SweepRegex
