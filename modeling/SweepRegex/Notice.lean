import SweepRegex.CommandLine.Options
import SweepRegex.Files.Stream
import SweepRegex.Machine.Limits
import SweepRegex.Pattern.Fault
import SweepRegex.Program

/-!
# Notices

All that the program has to say besides its verdict.  Each notice names what it is about; its
wording is here and nowhere else.
-/

namespace SweepRegex

/-- A message to the user. -/
inductive Notice where
  | usage (e : UsageError)
  | settingsUnreadable (path : Bytes)
  | settingsLoaded (path : Bytes)
  | patternRefused (pattern : Bytes) (fault : Fault)
  | compiled (pattern : Bytes) (p : Program)
  | inputUnreadable (e : ReadError)
  | inputTruncated (max : Nat)
  | inputSize (size : Nat)
  | runStats (s : Stats)
  | limitExceeded (e : LimitError)
deriving DecidableEq

namespace Notice

/-- What is wrong with a command line. -/
def usageText : UsageError → Bytes
  | .missingValue option => Bytes.untilNul option ++ ascii " requires a value"
  | .unknownOption option => ascii "unknown option " ++ Bytes.untilNul option
  | .unexpectedArgument argument => ascii "unexpected argument " ++ Bytes.untilNul argument

/-- Why input could not be read. -/
def readText : ReadError → Bytes
  | .cannotOpen path why =>
      ascii "failed to open " ++ Bytes.untilNul path ++ ascii ": " ++ why.words
  | .cannotRead why => ascii "read failed: " ++ why.words

/-- A pattern in quotation marks. -/
def quoted (pattern : Bytes) : Bytes := [Bytes.quote] ++ Bytes.untilNul pattern ++ [Bytes.quote]

/-- The wording of a notice, without the program's name in front and the line feed behind. -/
def message : Notice → Bytes
  | .usage e => usageText e
  | .settingsUnreadable path =>
      ascii "Config: cannot read " ++ Bytes.untilNul path ++ ascii ", using defaults"
  | .settingsLoaded path => ascii "Config: loaded " ++ Bytes.untilNul path
  | .patternRefused pattern fault =>
      ascii "Compiler: invalid pattern " ++ quoted pattern ++
        ascii " at offset " ++ Bytes.decimal fault.offset ++ ascii ": " ++ fault.error.message
  | .compiled pattern p =>
      ascii "Compiler: " ++ Bytes.decimal p.size ++ ascii " instructions for " ++ quoted pattern
  | .inputUnreadable e => ascii "FileBytes: " ++ readText e
  | .inputTruncated max => ascii "input truncated to " ++ Bytes.decimal max ++ ascii " bytes"
  | .inputSize size => ascii "input size " ++ Bytes.decimal size
  | .runStats s =>
      ascii "Vm: " ++ Bytes.decimal s.steps ++ ascii " steps, " ++ Bytes.decimal s.sweeps ++
        ascii " sweeps, peak " ++ Bytes.decimal s.peak ++ ascii " threads"
  | .limitExceeded e => ascii "Vm: " ++ e.message

/-- What follows the line of a notice: the usage after a usage error, the program's listing after
its size. -/
def appendix : Notice → Bytes
  | .usage _ => Options.usage
  | .compiled _ p => p.listing
  | _ => []

/-- A notice as it is printed. -/
def text (n : Notice) : Bytes :=
  ascii "relite: " ++ n.message ++ [Bytes.newline] ++ n.appendix

end Notice

end SweepRegex
