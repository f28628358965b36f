import Scoresheet.Command.Run
/-!
# The program

Performs the plan of an invocation on the real files, console and error output. A line from the
console is read when the dialogue waits for it.
-/
namespace Scoresheet

/-- Where the program writes, and which notes it shows. -/
structure Outlets where
  log : IO.FS.Stream
  console : IO.FS.Stream
  notes : IO.FS.Stream
  least : Level

/-- A refusal of the system. -/
def FileError.ofSystem : IO.Error → FileError
  | .noFileOrDirectory .. => .notFound
  | .inappropriateType _ 20 _ => .notDirectory
  | .inappropriateType _ 21 _ => .isDirectory
  | .invalidArgument _ 36 _ => .nameTooLong
  | error => .other error.toString

namespace Outlets

def writeNotes (o : Outlets) (e : Event) : IO Unit :=
  for n in e.notes do
    if n.reaches o.least then o.notes.putStr (ErrorOutput.ofNotes [n] "").text

/-- Performs events up to the first fault. -/
def perform (o : Outlets) : List Event → IO (Option Fault)
  | [] => return none
  | e :: es => do
    match e.fault? with
    | some fault => return some fault
    | none =>
      o.writeNotes e
      unless e.logText.isEmpty do o.log.putStr e.logText
      unless e.consoleText.isEmpty do
        o.console.putStr e.consoleText
        o.console.flush
      o.perform es

end Outlets

/-- Reads the bytes of a line; at the end of the input there is none. -/
partial def readLine (input : IO.FS.Stream) (read : Array UInt8) : IO (Option Text.Line) := do
  let bytes ← input.read 1
  match bytes.toList with
  | [] => return if read.isEmpty then none else some read.toList
  | byte :: _ =>
    if byte == Text.lineFeed then return some read.toList else readLine input (read.push byte)

/-- Carries a dialogue on until it is over, and gives the last game and the fault that ended it. -/
partial def converse (o : Outlets) (input : IO.FS.Stream) (g : Game) :
    Option Dialogue → IO (Game × Option Fault)
  | none => return (g, none)
  | some dialogue => do
    let stretch := dialogue.step (← readLine input #[])
    match ← o.perform stretch.events with
    | some fault => return (g, some fault)
    | none => converse o input (g.after stretch.events) stretch.next

def openFile (path : String) : IO Command.Opened := do
  match ← (IO.FS.Handle.mk path .read).toBaseIO with
  | .error error => return .refused (.ofSystem error)
  | .ok handle =>
    match ← handle.readBinToEnd.toBaseIO with
    | .error error => return .unreadable (.ofSystem error)
    | .ok bytes => return .content bytes.toList

def playOn (o : Outlets) (interactive : Bool) (g : Game) : IO (Game × Option Fault) := do
  if interactive then
    match ← o.perform g.interactionBegun.events with
    | some fault => return (g, some fault)
    | none => converse o (← IO.getStdin) g g.interactionBegun.next
  else return (g, ← o.perform g.board.logged)

def runWith (o : Outlets) (inv : Command.Invocation) : IO (Option Fault) := do
  let sources : Command.Sources :=
    { input := ← inv.input.mapM fun path => return (path, ← openFile path)
      setup := ← inv.setup.mapM fun path => return (path, ← openFile path) }
  let prepared := Command.prepare sources
  match ← o.perform prepared with
  | some fault => return some fault
  | none =>
    match ← playOn o (Command.isInteractive inv.batch sources) (Game.fresh.after prepared) with
    | (_, some fault) => return some fault
    | (game, none) => o.perform (Command.finish game)

def run (inv : Command.Invocation) : IO (Option Fault) := do
  let console ← IO.getStdout
  let notes ← IO.getStderr
  match inv.log with
  | none => runWith ⟨console, console, notes, inv.leastLevel⟩ inv
  | some path =>
    match ← (IO.FS.Handle.mk path .write).toBaseIO with
    | .error error => return some (.logUncreatable path (.ofSystem error))
    | .ok handle =>
      let log := IO.FS.Stream.ofHandle handle
      let fault ← runWith ⟨log, console, notes, inv.leastLevel⟩ inv
      log.flush
      return fault

end Scoresheet

/-- The program: exit code 0, 1 after a fault, 2 for a usage error. -/
def main (arguments : List String) : IO UInt32 := do
  match Scoresheet.Command.Invocation.ofArguments arguments with
  | .error stop =>
    (← IO.getStdout).putStr (stop.shown Scoresheet.Command.manual)
    (← IO.getStderr).putStr (stop.complaint Scoresheet.Command.manual)
    return stop.exit.toUInt32
  | .ok inv =>
    let fault ← Scoresheet.run inv
    if let some f := fault then (← IO.getStderr).putStr f.report
    return (Scoresheet.Command.exitCode fault).toUInt32
