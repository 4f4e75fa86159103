import SweepRegex.Machine.Run
import SweepRegex.Pattern.Compile
import SweepRegex.Settings

/-!
# Sessions

One call of the program, from its arguments to what it prints and the status it ends with.  It has
two halves: `Job.prepare` is all that happens before input is read, `Job.finish` what happens
after.  `conduct` is the whole, with a system that is asked for whatever the call has to see of its
surroundings, one after the other and only as far as it gets.  `execute` is the same with
surroundings that are known beforehand.
-/

namespace SweepRegex

/-- What the program found out about its input. -/
inductive Verdict where
  | notFound
  | found
  | foundAt (offset : Nat)
deriving DecidableEq

/-- The line that tells the verdict. -/
def Verdict.line : Verdict → Bytes
  | .notFound => ascii "no match\n"
  | .found => ascii "match\n"
  | .foundAt k => ascii "match at " ++ Bytes.decimal k ++ [Bytes.newline]

/-- How a call of the program ends. -/
inductive ExitStatus where
  | matched
  | unmatched
  | failed
deriving DecidableEq

/-- The status as a number. -/
def ExitStatus.code : ExitStatus → Nat
  | .matched => 0
  | .unmatched => 1
  | .failed => 2

/-- The status that tells the verdict. -/
def Verdict.status : Verdict → ExitStatus
  | .notFound => .unmatched
  | .found | .foundAt _ => .matched

/-- What a call of the program leaves behind. -/
structure Outcome where
  status : ExitStatus
  stdout : Bytes
  stderr : Bytes
deriving DecidableEq

/-- What a call can ask for. -/
structure System (m : Type → Type) where
  environment : m Environment
  /-- What a path leads to. -/
  node : Bytes → m Node
  /-- Standard input, for one read with this bound. -/
  stdin : Nat → m Stream
  /-- The file of this path, for one read with this bound. -/
  openFile : Bytes → Nat → m (Except Refusal Stream)

/-- All that the program can see of its surroundings. -/
structure Surroundings where
  files : FileSystem
  environment : Environment
  stdin : Stream

/-- Surroundings that are known answer at once. -/
def Surroundings.system (here : Surroundings) : System Id where
  environment := here.environment
  node := here.files.node
  stdin _ := here.stdin
  openFile path _ := Stream.openNode (here.files.node path)

/-- The texts of some notices, one after the other. -/
def noticesText (notices : List Notice) : Bytes := (notices.map Notice.text).flatten

/-- An outcome without a verdict. -/
def Outcome.failure (stdout : Bytes) (notices : List Notice) : Outcome :=
  ⟨.failed, stdout, noticesText notices⟩

/-- A call of the program whose arguments, settings and pattern are in order. -/
structure Job where
  options : Options
  settings : Settings
  pattern : Bytes
  program : Program
  /-- What there was to say so far. -/
  notices : List Notice

namespace Job

/-! ## Before input is read -/

/-- Compiles the pattern: the one on the command line, or else the one in the settings. -/
def prepare (options : Options) (settings : Settings) (notices : List Notice) :
    Except Outcome Job :=
  let pattern := options.pattern.getD settings.pattern
  let notices := notices ++
    if settings.debug then settings.source.toList.map .settingsLoaded else []
  match Pattern.compile pattern with
  | .error fault => .error (.failure [] (notices ++ [.patternRefused pattern fault]))
  | .ok program =>
    let notices := notices ++
      if !options.dump && settings.debug then [.compiled pattern program] else []
    .ok { options, settings, pattern, program, notices }

/-- The listing, if it was asked for. -/
def listing (job : Job) : Bytes := if job.options.dump then job.program.listing else []

/-- Reads the input, from the file that was named or else from standard input. -/
def read {m : Type → Type} [Monad m] (job : Job) (system : System m) :
    m (Except ReadError Input) := do
  let max := job.settings.maxBytes
  if job.options.inputPath = [] then
    return ((← system.stdin max).read max).1
  else
    let path := job.options.inputPath
    return Stream.readOpened path max (← system.openFile path max)

/-! ## After input was read -/

/-- What there is to say about the input. -/
def inputNotices (job : Job) (input : Input) : List Notice :=
  (if input.truncated then [.inputTruncated job.settings.maxBytes] else []) ++
    if job.settings.debug then [.inputSize input.data.length] else []

/-- Matches the input, and says what that took. -/
def judge (job : Job) (data : Bytes) : Except LimitError Verdict × List Notice :=
  if job.options.search then
    match job.program.search job.settings.limits data with
    | .error e => (.error e, [])
    | .ok none => (.ok .notFound, [])
    | .ok (some k) => (.ok (.foundAt k), [])
  else
    let report := job.program.run job.settings.limits data
    (report.verdict.map fun b => if b then .found else .notFound,
      if job.settings.debug then [.runStats report.stats] else [])

/-- Ends the call. -/
def finish (job : Job) (input : Except ReadError Input) : Outcome :=
  match input with
  | .error e => .failure job.listing (job.notices ++ [.inputUnreadable e])
  | .ok input =>
    let (verdict, more) := job.judge input.data
    let notices := job.notices ++ job.inputNotices input ++ more
    match verdict with
    | .error e => .failure job.listing (notices ++ [.limitExceeded e])
    | .ok verdict => ⟨verdict.status, job.listing ++ verdict.line, noticesText notices⟩

end Job

/-! ## The whole -/

/-- Everything that is decided before the settings are known: a refused command line, or a request
for help, ends the call at once. -/
def Options.ofArguments (arguments : List Bytes) : Except Outcome Options :=
  match Options.parse arguments with
  | .error e => .error (.failure [] [.usage e])
  | .ok options => if options.help then .error ⟨.matched, Options.usage, []⟩ else .ok options

/-- One call of the program, on a system. -/
def conduct {m : Type → Type} [Monad m] (system : System m) (arguments : List Bytes) :
    m Outcome := do
  match Options.ofArguments arguments with
  | .error outcome => return outcome
  | .ok options =>
    let environment ← system.environment
    let (settings, notices) ← Settings.loadFrom system.node environment options.settingsPath
    match Job.prepare options settings notices with
    | .error outcome => return outcome
    | .ok job => return job.finish (← job.read system)

/-- One call of the program, in its surroundings. -/
def execute (here : Surroundings) (arguments : List Bytes) : Outcome :=
  (conduct here.system arguments).run

end SweepRegex
