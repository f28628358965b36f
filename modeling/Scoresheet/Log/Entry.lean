import Scoresheet.Token.Castle
import Scoresheet.Token.Movement
import Scoresheet.Token.Placement
/-!
# Entries of the game log

The log tells a session to its reader: every placement, every action whether accepted or not, and
the diagrams. An entry is one line; tokens stand in brackets as they were given.
-/
namespace Scoresheet

/-- One line of the game log. -/
inductive Entry where
  | opened
  | inputOpened (path : String)
  | inputMissing
  | inputUnopenable
  | placed (token : String) (p : Placement)
  | placementSkipped (token : String)
  | moved (token : String) (m : Movement) (c : Color) (captured : Option Chessman)
  | movementRefused (token : String) (m : Movement) (c : Color) (found : Option Chessman)
  | castled (token : String) (side : CastleSide) (c : Color)
  | castleRefused (token : String) (c : Color)
  | unrecognized (content : String)
  | unreadable (token : String) (error : TokenError)
  | diagramRow (row : String)
  | boardEmpty
  | stuck (c : Color)
  | closing
  /-- A line that someone else has written. -/
  | verbatim (line : String)
deriving DecidableEq, Repr

namespace Entry

def captureText : Option Chessman → String
  | none => ""
  | some man => " capturing the " ++ man.name

/-- The part of a refused movement's line that says what the first square holds. -/
def foundText : Option Chessman → String
  | none => "is empty"
  | some man => "holds a " ++ man.name

def text : Entry → String
  | opened => "Process: Log file Initialized."
  | inputOpened path => "Process: Successfully opened file [" ++ path ++ "]"
  | inputMissing =>
    "Process: You entered no filepath. The program will now revert to Interaction Mode."
  | inputUnopenable =>
    "Error: There was a problem with the file you entered. Reverting to Interaction Mode."
  | placed token p =>
    "Placement: Adding [" ++ token ++ "] " ++ p.toChessman.name ++ " on " ++ p.square.capitalName
  | placementSkipped token => "Warning: Skipping [" ++ token ++ "]. Movement has begun."
  | moved token m c captured =>
    "Movement: [" ++ token ++ "] " ++ (Chessman.mk c m.kind).name ++ " moves from " ++
      m.source.capitalName ++ " to " ++ m.target.capitalName ++ captureText captured
  | movementRefused token m c found =>
    "Error: [" ++ token ++ "] " ++ c.name ++ " cannot move a " ++ m.kind.name ++ " from " ++
      m.source.capitalName ++ " to " ++ m.target.capitalName ++ "; " ++
      m.source.capitalName ++ " " ++ foundText found ++ "."
  | castled token side c =>
    "Castle: [" ++ token ++ "] " ++ c.name ++ " castles " ++ side.name
  | castleRefused token c =>
    "Error: [" ++ token ++ "] This castle is impossible at this time for " ++ c.name ++ "."
  | unrecognized content => "Error: [" ++ content ++ "] is not a valid directive."
  | unreadable token error => "Error: [" ++ token ++ "] could not be read: " ++ error.message
  | diagramRow row => row
  | boardEmpty => "Process: The board is empty."
  | stuck c => "Process: " ++ c.name ++ " has no piece that can move."
  | closing => "Process: Closing Files."
  | verbatim line => line

end Entry

end Scoresheet
