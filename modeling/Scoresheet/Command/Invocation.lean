import Scoresheet.Note
/-!
# The command line

One file of directives may be named. `--log` and `--setup` take a file each, `--batch` takes none,
`--verbose` may be repeated; `-l` and `-v` are short for the first and the last and may be joined.
`--help` and `--version`, or `-h` and `-V`, end the reading where they stand: what follows is not
looked at, and what was wrong before them is still an error. Behind `--` nothing is an option.
Whatever else is given is a usage error.
-/
namespace Scoresheet.Command

/-- What the program was asked to do. -/
structure Invocation where
  input : Option String
  log : Option String
  setup : Option String
  batch : Bool
  verbosity : Nat
deriving DecidableEq, Repr

/-- Why a command line is not run. -/
inductive Stop where
  | help
  | version
  | usageError
deriving DecidableEq, Repr

inductive ValueOption where
  | log
  | setup
deriving DecidableEq, Repr

/-- One argument by itself. -/
inductive Argument where
  | positional (text : String)
  | optionsEnd
  | batch
  | verbose (times : Nat)
  /-- An option with a value, which is attached or comes next, behind so many joined `v`. -/
  | valued (times : Nat) (option : ValueOption) (attached : Option String)
  | stop (reason : Stop)
deriving DecidableEq, Repr

namespace Argument

/-- Joined short options, after so many `v`. -/
def ofCluster (times : Nat) : List Char → Argument
  | [] => verbose times
  | 'v' :: rest => ofCluster (times + 1) rest
  | 'l' :: [] => valued times .log none
  | 'l' :: '=' :: value => valued times .log (some (String.ofList value))
  | 'l' :: value => valued times .log (some (String.ofList value))
  | 'h' :: _ => stop .help
  | 'V' :: _ => stop .version
  | _ => stop .usageError

/-- A long option without its dashes; an equals sign attaches a value. -/
def ofLong (body : List Char) : Argument :=
  let name := String.ofList (body.takeWhile (· != '='))
  let attached := (body.dropWhile (· != '=')).tail?.map String.ofList
  match name, attached with
  | "batch", none => batch
  | "verbose", none => verbose 1
  | "log", _ => valued 0 .log attached
  | "setup", _ => valued 0 .setup attached
  | "help", none => stop .help
  | "version", none => stop .version
  | _, _ => stop .usageError

/-- What an argument is, as long as options are looked for. A single dash is no option. -/
def ofText (text : String) : Argument :=
  match text.toList with
  | ['-', '-'] => optionsEnd
  | '-' :: '-' :: body => ofLong body
  | '-' :: c :: rest => ofCluster 0 (c :: rest)
  | _ => positional text

/-- Whether the argument behind an option can be its value. -/
def isValue (text : String) : Bool := ofText text == positional text

end Argument

namespace Invocation

def bare : Invocation := ⟨none, none, none, false, 0⟩

/-- Names the input file, which can be done once. -/
def withInput (inv : Invocation) (path : String) : Except Stop Invocation :=
  if path == "" || inv.input.isSome then .error .usageError
  else .ok { inv with input := some path }

/-- Gives an option its value, which can be done once. -/
def withValue (inv : Invocation) (option : ValueOption) (value : String) :
    Except Stop Invocation :=
  match option with
  | .log =>
    if value == "" || inv.log.isSome then .error .usageError
    else .ok { inv with log := some value }
  | .setup =>
    if value == "" || inv.setup.isSome then .error .usageError
    else .ok { inv with setup := some value }

def louder (inv : Invocation) (times : Nat) : Invocation :=
  { inv with verbosity := inv.verbosity + times }

def takeInputs (inv : Invocation) : List String → Except Stop Invocation
  | [] => .ok inv
  | path :: rest => inv.withInput path >>= fun inv => inv.takeInputs rest

/-- Takes arguments one after the other. -/
def take (inv : Invocation) : List String → Except Stop Invocation
  | [] => .ok inv
  | text :: rest =>
    match Argument.ofText text with
    | .positional path => inv.withInput path >>= fun inv => inv.take rest
    | .optionsEnd => inv.takeInputs rest
    | .batch => if inv.batch then .error .usageError else { inv with batch := true }.take rest
    | .verbose times => (inv.louder times).take rest
    | .valued times option (some value) =>
      (inv.louder times).withValue option value >>= fun inv => inv.take rest
    | .valued times option none =>
      match rest with
      | [] => .error .usageError
      | value :: rest =>
        if Argument.isValue value then
          (inv.louder times).withValue option value >>= fun inv => inv.take rest
        else .error .usageError
    | .stop reason => .error reason

def ofArguments (arguments : List String) : Except Stop Invocation := bare.take arguments

def leastLevel (inv : Invocation) : Level :=
  match inv.verbosity with
  | 0 => .warn
  | 1 => .debug
  | _ => .trace

end Invocation

/-- The texts that are printed in place of a run. -/
structure Manual where
  help : String
  version : String
  usage : String
deriving DecidableEq, Repr

namespace Stop

def exit : Stop → Nat
  | help | version => 0
  | usageError => 2

def shown (manual : Manual) : Stop → String
  | help => manual.help
  | version => manual.version
  | usageError => ""

def complaint (manual : Manual) : Stop → String
  | help | version => ""
  | usageError => manual.usage

end Stop

def synopsis : String := "Usage: chess-notation [OPTIONS] [INPUT]\n\n"

/-- What may stand on the command line, with a line for each option. -/
def options : String :=
  "Arguments:\n" ++
  "  [INPUT]  Directive file to translate. Without one the session starts interactively from " ++
  "the standard position\n\n" ++
  "Options:\n" ++
  "  -l, --log <LOG>      Write the game log to this file instead of stdout\n" ++
  "      --setup <SETUP>  Placement file used for interactive sessions started without input\n" ++
  "      --batch          Stop after the input file instead of continuing interactively\n" ++
  "  -v, --verbose...     Increase diagnostic output (-v debug, -vv trace)\n" ++
  "  -h, --help           Print help\n" ++
  "  -V, --version        Print version\n"

/-- What the program says about itself. -/
def manual : Manual where
  help := "Replays or plays chess from notation directives\n\n" ++ synopsis ++ options
  version := "chess-notation 0.1.0\n"
  usage := synopsis ++ "For more information, try '--help'.\n"

end Scoresheet.Command
