import SweepRegex.Bytes

/-!
# Command line options

Arguments are read from left to right.  An option that takes a value takes the next argument,
whatever that looks like; given twice, the later value counts.  Two dashes alone make the next
argument the pattern, in place of one given before; at the end they mean nothing.
-/

namespace SweepRegex

/-- What the command line asks for.  An empty path stands for a path that is not given. -/
structure Options where
  settingsPath : Bytes := []
  inputPath : Bytes := []
  pattern : Option Bytes := none
  dump : Bool := false
  search : Bool := false
  help : Bool := false
deriving DecidableEq

/-- Why a command line is refused. -/
inductive UsageError where
  | missingValue (option : Bytes)
  | unknownOption (option : Bytes)
  | unexpectedArgument (argument : Bytes)
deriving DecidableEq

/-- What a single argument is, where no value is expected. -/
inductive Argument where
  | help
  | dump
  | search
  | settingsPath
  | inputPath
  | dashes
  | unknown
  | operand
deriving DecidableEq

/-- Reads a single argument. -/
def Argument.ofBytes (a : Bytes) : Argument :=
  if a = ascii "--help" ∨ a = ascii "-h" then .help
  else if a = ascii "--dump" then .dump
  else if a = ascii "--search" then .search
  else if a = ascii "--config" then .settingsPath
  else if a = ascii "--file" then .inputPath
  else if a = ascii "--" then .dashes
  else if (ascii "--").isPrefixOf a then .unknown
  else .operand

namespace Options

/-- Reads further arguments. -/
def extend (o : Options) : List Bytes → Except UsageError Options
  | [] => .ok o
  | a :: rest =>
    match Argument.ofBytes a with
    | .help => { o with help := true }.extend rest
    | .dump => { o with dump := true }.extend rest
    | .search => { o with search := true }.extend rest
    | .settingsPath =>
      match rest with
      | [] => .error (.missingValue a)
      | path :: rest => { o with settingsPath := path }.extend rest
    | .inputPath =>
      match rest with
      | [] => .error (.missingValue a)
      | path :: rest => { o with inputPath := path }.extend rest
    | .dashes =>
      match rest with
      | [] => .ok o
      | pattern :: rest => { o with pattern := some pattern }.extend rest
    | .unknown => .error (.unknownOption a)
    | .operand =>
      match o.pattern with
      | none => { o with pattern := some a }.extend rest
      | some _ => .error (.unexpectedArgument a)

/-- Reads a command line. -/
def parse (arguments : List Bytes) : Except UsageError Options := ({} : Options).extend arguments

/-- How the program is called. -/
def usage : Bytes := ascii <|
  "usage: relite [--config PATH] [--file PATH] [--dump] [--search] [PATTERN]\n" ++
  "\n" ++
  "Compile PATTERN (literals . * + | and grouping) and run it against the\n" ++
  "input read from stdin or --file. Matching starts at offset 0 unless\n" ++
  "--search is given, which tries every start offset.\n" ++
  "\n" ++
  "  --config PATH  read settings from PATH instead of the default config file\n" ++
  "  --file PATH    read input from PATH instead of stdin\n" ++
  "  --dump         print the compiled program before running it\n" ++
  "  --search       report the first offset where the pattern matches\n" ++
  "\n" ++
  "Exit status: 0 match, 1 no match, 2 error.\n"

end Options

end SweepRegex
