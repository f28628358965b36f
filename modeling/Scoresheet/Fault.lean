/-!
# Faults

What ends a session early. A broken rule of chess is never a fault: it is logged and play goes on.
-/
namespace Scoresheet

/-- The refusals of the file system that can occur. -/
inductive FileError where
  | notFound
  | notDirectory
  | isDirectory
  | nameTooLong
  /-- Any other refusal, in the words of the system. -/
  | other (words : String)
deriving DecidableEq, Repr

def FileError.message : FileError → String
  | notFound => "No such file or directory (os error 2)"
  | notDirectory => "Not a directory (os error 20)"
  | isDirectory => "Is a directory (os error 21)"
  | nameTooLong => "File name too long (os error 36)"
  | other words => words

/-- What ends a session early. -/
inductive Fault where
  /-- The log or the console takes no more text. -/
  | sinkFull
  /-- A line from the console is not UTF-8. -/
  | notText
  /-- A file that was opened cannot be read. -/
  | unreadable (error : FileError)
  | setupUnopenable (path : String) (error : FileError)
  | logUncreatable (path : String) (error : FileError)
deriving DecidableEq, Repr

namespace Fault

def message : Fault → String
  | sinkFull => "sink is full"
  | notText => "stream did not contain valid UTF-8"
  | unreadable error => error.message
  | setupUnopenable path _ => "cannot open setup file " ++ path
  | logUncreatable path error => "cannot create log file " ++ path ++ ": " ++ error.message

def cause? : Fault → Option FileError
  | setupUnopenable _ error => some error
  | logUncreatable _ error => some error
  | _ => none

def report (f : Fault) : String :=
  "Error: " ++ f.message ++ "\n" ++
    match f.cause? with
    | none => ""
    | some error => "\nCaused by:\n    " ++ error.message ++ "\n"

end Fault

end Scoresheet
