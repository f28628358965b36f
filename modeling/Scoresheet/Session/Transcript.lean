import Scoresheet.Session.Event
/-!
# What a session leaves behind

When log and console take everything, a list of events leaves what its events up to the first
fault leave, one after the other.
-/
namespace Scoresheet

namespace Event

def logText : Event → String
  | log e => e.text ++ "\n"
  | _ => ""

/-- The text that goes to the console. -/
def consoleText : Event → String
  | say line => line ++ "\n"
  | prompt => promptText
  | _ => ""

/-- The notes that are taken; every line of the log is one. -/
def notes : Event → List Note
  | note n => [n]
  | log e => [⟨.trace, e.text⟩]
  | _ => []

def fault? : Event → Option Fault
  | fault f => some f
  | _ => none

end Event

namespace Transcript

/-- The events that happen: those before the first fault. -/
def happening (events : List Event) : List Event := events.takeWhile fun e => e.fault?.isNone

def firstFault? (events : List Event) : Option Fault := events.findSome? Event.fault?

def joined (text : Event → String) (events : List Event) : String :=
  String.join (events.map text)

def logText (events : List Event) : String := joined Event.logText events

/-- The text of the console when the log goes elsewhere. -/
def consoleText (events : List Event) : String := joined Event.consoleText events

/-- The text of the console when the log goes there as well. -/
def sharedText (events : List Event) : String :=
  joined (fun e => e.logText ++ e.consoleText) events

def notes (least : Level) (events : List Event) : List Note :=
  (events.flatMap Event.notes).filter fun n => n.reaches least

end Transcript

end Scoresheet
