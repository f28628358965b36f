import Scoresheet.Command.ErrorOutput
import Scoresheet.Command.Plan
import Scoresheet.Session.Transcript
/-!
# Running the program on a table of files

The outcome of a command line, given all files and everything that the console will say: the exit
code, the three outputs, and the files afterwards. The log file is emptied before anything is read.
-/
namespace Scoresheet.Command

/-- What a run leaves behind. -/
structure Outcome where
  exit : Nat
  stdout : String
  errorOutput : ErrorOutput
  files : FileTable
deriving DecidableEq, Repr

def exitCode : Option Fault → Nat
  | none => 0
  | some _ => 1

def Invocation.sources (inv : Invocation) (files : FileTable) : Sources where
  input := inv.input.map fun path => (path, files.openFile path)
  setup := inv.setup.map fun path => (path, files.openFile path)

/-- What happens to an invocation, given the files as they are when the log has been created. -/
def Invocation.events (inv : Invocation) (files : FileTable) (stdin : List UInt8) : List Event :=
  plan inv.batch (inv.sources files) (Text.lines stdin)

/-- The outcome of events whose log goes to the console, or to a file. -/
def conclude (least : Level) (files : FileTable) (logPlace : Option Place) (events : List Event) :
    Outcome :=
  let done := Transcript.happening events
  let fault := Transcript.firstFault? events
  { exit := exitCode fault
    stdout :=
      match logPlace with
      | none => Transcript.sharedText done
      | some _ => Transcript.consoleText done
    errorOutput :=
      .ofNotes (Transcript.notes least done) ((fault.map Fault.report).getD "")
    files :=
      match logPlace with
      | none => files
      | some place => files.store place (Transcript.logText done).toUTF8.toList }

def Invocation.run (inv : Invocation) (files : FileTable) (stdin : List UInt8) : Outcome :=
  match inv.log with
  | none => conclude inv.leastLevel files none (inv.events files stdin)
  | some path =>
    match files.writable path with
    | .error error =>
      conclude inv.leastLevel files none [.fault (.logUncreatable path error)]
    | .ok place =>
      let emptied := files.store place []
      conclude inv.leastLevel emptied (some place) (inv.events emptied stdin)

/-- A command line that is not run opens no file, and there is no log. -/
def Stop.outcome (stop : Stop) (manual : Manual) (files : FileTable) : Outcome where
  exit := stop.exit
  stdout := stop.shown manual
  errorOutput := .ofNotes [] (stop.complaint manual)
  files := files

/-- Reads a command line and runs what it asks for. -/
def execute (manual : Manual) (arguments : List String) (files : FileTable) (stdin : List UInt8) :
    Outcome :=
  match Invocation.ofArguments arguments with
  | .ok inv => inv.run files stdin
  | .error stop => stop.outcome manual files

end Scoresheet.Command
