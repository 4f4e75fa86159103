import SweepRegex.CommandLine.Session

/-!
# The program

What a call asks for is asked of the system here, and its outcome is printed.  Nothing is decided:
the call is conducted as it is in surroundings that are known.
-/

namespace SweepRegex.Main

/-- The bytes of a text. -/
def bytesOf (s : String) : Bytes := s.toUTF8.data.toList

/-- The variables a session asks for, each in both spellings. -/
def variableNames : List Bytes :=
  [ascii "XDG_CONFIG_HOME", ascii "HOME"] ++
    ([Setting.pattern.name, Setting.maxThreads.name, Setting.maxSteps.name, Setting.maxBytes.name,
      Setting.debug.name].map fun name =>
        name :: (Environment.otherSpelling? name).toList).flatten

/-- The environment of this process, as far as it is asked for. -/
def readEnvironment : IO Environment := do
  let entries ← variableNames.filterMapM fun name => do
    let some key := String.fromUTF8? ⟨name.toArray⟩ | return none
    return (← IO.getEnv key).map fun value => (name, bytesOf value)
  return .ofList entries

/-- The words in which the system refuses something. -/
def words : IO.Error → String
  | .otherError _ details | .resourceBusy _ details | .resourceVanished _ details
  | .unsupportedOperation _ details | .hardwareFault _ details
  | .unsatisfiedConstraints _ details | .illegalOperation _ details | .protocolError _ details
  | .timeExpired _ details | .alreadyExists _ _ details | .interrupted _ _ details
  | .noFileOrDirectory _ _ details | .invalidArgument _ _ details | .permissionDenied _ _ details
  | .resourceExhausted _ _ details | .inappropriateType _ _ details | .noSuchThing _ _ details
  | .userError details => details
  | .unexpectedEof => "Input/output error"

/-- Why the system refuses something. -/
def refusalOf (e : IO.Error) : Refusal := ⟨bytesOf (words e)⟩

/-- Opens a file for reading; a name that is no text leads nowhere. -/
def openHandle (path : Bytes) : IO (Except Refusal IO.FS.Handle) := do
  let some name := String.fromUTF8? ⟨path.toArray⟩ | return .error .notFound
  return (← (IO.FS.Handle.mk name .read).toBaseIO).mapError refusalOf

/-- Reads up to `wanted` bytes, and says why that did not go well if it did not. -/
def readUpTo (source : IO.FS.Stream) (wanted : Nat) (got : ByteArray) :
    IO (ByteArray × Option Refusal) :=
  if wanted = 0 then pure (got, none)
  else do
    match ← (source.read (min Stream.chunkSize wanted).toUSize).toBaseIO with
    | .error e => pure (got, some (refusalOf e))
    | .ok chunk =>
      if chunk.size = 0 then pure (got, none)
      else readUpTo source (wanted - chunk.size) (got ++ chunk)
termination_by wanted
decreasing_by omega

/-- A stream, as far as a read of up to `max` bytes can see it. -/
def readStream (source : IO.FS.Stream) (max : Nat) : IO Stream := do
  let (content, fault?) ← readUpTo source (max + 1) .empty
  return ⟨content.data.toList, fault?, none⟩

/-- What a path leads to. -/
def readNode (path : Bytes) : IO Node := do
  match ← openHandle path with
  | .error why => return .refused why
  | .ok handle =>
    match ← handle.readBinToEnd.toBaseIO with
    | .ok content => return .file content.data.toList
    | .error _ => return .directory

/-- The system this process runs on. -/
def system : System IO where
  environment := readEnvironment
  node := readNode
  stdin max := do readStream (← IO.getStdin) max
  openFile path max := do
    match ← openHandle path with
    | .error why => return .error why
    | .ok handle => return .ok (← readStream (.ofHandle handle) max)

end SweepRegex.Main

/-- Conducts a call with the arguments, prints what it has to say and ends with its status. -/
def main (arguments : List String) : IO UInt32 := do
  let outcome ←
    SweepRegex.conduct SweepRegex.Main.system (arguments.map SweepRegex.Main.bytesOf)
  (← IO.getStdout).write ⟨outcome.stdout.toArray⟩
  (← IO.getStderr).write ⟨outcome.stderr.toArray⟩
  return outcome.status.code.toUInt32
