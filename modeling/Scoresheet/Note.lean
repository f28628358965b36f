/-!
# Notes

Diagnostic records about what goes on, apart from the game log. The reader chooses from which level
on they are shown.
-/
namespace Scoresheet

/-- How much a note matters. -/
inductive Level where
  | trace
  | debug
  | info
  | warn
deriving DecidableEq, Repr

namespace Level

def weight : Level → Nat
  | trace => 0
  | debug => 1
  | info => 2
  | warn => 3

def label : Level → String
  | trace => "TRACE"
  | debug => "DEBUG"
  | info => "INFO"
  | warn => "WARN"

end Level

/-- A diagnostic record. -/
structure Note where
  level : Level
  text : String
deriving DecidableEq, Repr

/-- Whether a note is shown to a reader who asks for a level and everything above it. -/
def Note.reaches (n : Note) (least : Level) : Bool := least.weight ≤ n.level.weight

end Scoresheet
