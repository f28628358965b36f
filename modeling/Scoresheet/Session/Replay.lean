import Scoresheet.Board.Diagram
import Scoresheet.Board.Intent
import Scoresheet.Directive
import Scoresheet.Session.Event
import Scoresheet.Text.Line
/-!
# Replaying directives

Lines are taken one after the other. A placement is carried out until movement has begun. Every
action is played for the side whose turn it is, and then the turn passes, whether the action was
accepted, refused or could not even be read. An accepted action is followed by the diagram.
-/
namespace Scoresheet

def Board.logged (b : Board) : List Event := b.diagram.map fun row => .log (.diagramRow row)

namespace Game

def manAt (g : Game) (s : Square) : Option Chessman :=
  (g.board.occupant s).map fun p => p.toChessman

def place (g : Game) (token : String) : List Event :=
  match Placement.ofToken token with
  | .ok p => [.update { g with board := g.board.place p }, .log (.placed token p)]
  | .error e => [.log (.unreadable token e)]

/-- Reads a movement and plays it; the turn does not pass yet. -/
def playMovement (g : Game) (token : String) : List Event :=
  match Movement.ofToken token with
  | .error e => [.log (.unreadable token e)]
  | .ok m =>
    match g.board.move m g.turn with
    | .ok board =>
      .update { g with board } :: .log (.moved token m g.turn (g.manAt m.target)) :: board.logged
    | .error reason =>
      [.note reason.note, .log (.movementRefused token m g.turn (g.manAt m.source))]

/-- Reads a castle and plays it; the turn does not pass yet. -/
def playCastle (g : Game) (token : String) : List Event :=
  match CastleSide.ofToken token with
  | .error e => [.log (.unreadable token e)]
  | .ok side =>
    match g.board.castleRefusal? side g.turn with
    | some reason => [.note reason.note, .log (.castleRefused token g.turn)]
    | none =>
      let board := g.board.castle side g.turn
      .update { g with board } :: .log (.castled token side g.turn) :: board.logged

/-- Plays one action. Movement has begun before the action is even looked at. -/
def playAction (g : Game) (token : String) : List Event :=
  let begun := { g with begun := true }
  let played := if Directive.isCastle token then begun.playCastle token else begun.playMovement token
  .update begun :: played ++ [.update (begun.after played).passed]

def playActions (g : Game) : List String → List Event
  | [] => []
  | token :: tokens => g.playAction token ++ (g.after (g.playAction token)).playActions tokens

def playLine (g : Game) (line : String) : List Event :=
  match Directive.ofLine line with
  | .blank => []
  | .placement token => if g.begun then [.log (.placementSkipped token)] else g.place token
  | .movements tokens => g.playActions tokens
  | .castles tokens => g.playActions tokens
  | .unrecognized content => [.log (.unrecognized content)]

def trimmed (line : String) : String := String.ofList (Text.trim line.toList)

def playNumbered (g : Game) (number : Nat) (line : String) : List Event :=
  .note ⟨.debug, "line " ++ number.repr ++ ": " ++ trimmed line⟩ :: g.playLine line

/-- Carries out lines one after the other, counting from a number. -/
def replayFrom (g : Game) (number : Nat) : List String → List Event
  | [] => []
  | line :: lines =>
    g.playNumbered number line ++
      (g.after (g.playNumbered number line)).replayFrom (number + 1) lines

def replay (g : Game) (lines : List String) : List Event := g.replayFrom 1 lines

/-- Carries out one line of a setup file: only placements count, whether or not movement has
begun. Any other line that is not blank is reported whole. -/
def setUpLine (g : Game) (line : String) : List Event :=
  match Directive.ofLine line with
  | .placement token => g.place token
  | .blank => []
  | _ =>
    [.note ⟨.warn, "setup line is not a placement: " ++ trimmed line⟩,
      .log (.unrecognized (trimmed line))]

def setUpLines (g : Game) : List String → List Event
  | [] => []
  | line :: lines => g.setUpLine line ++ (g.after (g.setUpLine line)).setUpLines lines

/-- Carries out a setup file and counts the pieces. -/
def setUp (g : Game) (lines : List String) : List Event :=
  let placed := g.setUpLines lines
  placed ++
    [.note ⟨.info, "setup complete with " ++ (g.after placed).board.count.repr ++ " pieces"⟩]

end Game

end Scoresheet
