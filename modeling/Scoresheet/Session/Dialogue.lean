import Scoresheet.Session.Menu
import Scoresheet.Session.Replay
/-!
# Interactive play

A dialogue is interactive play that waits for a line from the console. Each line takes it one step
further: the menu asks again, the second menu opens, or a turn is played and the next one begins. It
ends when someone leaves, when the side to move has nothing to play, or by a fault; except after a
fault the log gets the diagram of the last board.
-/
namespace Scoresheet

/-- Interactive play that waits for a line. -/
inductive Dialogue where
  /-- The first menu of a turn is open. -/
  | choosingPiece (g : Game)
  /-- A piece is chosen, and the menu of its squares is open. -/
  | choosingTarget (g : Game) (p : Piece)
deriving DecidableEq, Repr

/-- What happens until the dialogue waits for the next line, or is over. -/
structure Stretch where
  events : List Event
  next : Option Dialogue

def Game.farewell (g : Game) : List Event := g.board.logged

namespace Game

def turnMenu (g : Game) : Menu TurnOption :=
  Scoresheet.turnMenu (g.board.movable g.turn) (g.board.castles g.turn)

def turnShown (g : Game) : List Event :=
  g.board.diagram.map .say ++ [.say (turnLine g.turn)]

def castleNotes (g : Game) : List Event :=
  (CastleSide.all.flatMap fun side => g.board.castleNotes side g.turn).map .note

def beginTurn (g : Game) : Stretch :=
  if g.board.isEmpty then ⟨.log .boardEmpty :: g.farewell, none⟩
  else if g.turnMenu.options.isEmpty then
    ⟨g.turnShown ++ g.castleNotes ++ .log (.stuck g.turn) :: g.farewell, none⟩
  else ⟨g.turnShown ++ g.castleNotes ++ g.turnMenu.shown, some (.choosingPiece g)⟩

/-- Plays an intent; the turn does not pass yet. The log gets the token that would replay it. -/
def playIntent (g : Game) (i : Intent) : List Event :=
  match i with
  | .castle side =>
    match g.board.intend i g.turn with
    | .ok board =>
      .update { g with board } :: .log (.castled side.token side g.turn) :: board.logged
    | .error reason => reason.notes.map .note ++ [.log (.castleRefused side.token g.turn)]
  | .move source target =>
    match g.board.movement? source target with
    | none => []
    | some m =>
      match g.board.intend i g.turn with
      | .ok board =>
        .update { g with board } :: .log (.moved m.token m g.turn (g.manAt target)) :: board.logged
      | .error reason =>
        reason.notes.map .note ++ [.log (.movementRefused m.token m g.turn (g.manAt source))]

/-- Plays a turn: the intent, and then movement has begun and the turn passes. -/
def playTurn (g : Game) (i : Intent) : List Event :=
  let played := g.playIntent i
  played ++ [.update { (g.after played).passed with begun := true }]

def turnFrom (g : Game) (i : Intent) : Stretch :=
  let played := g.playTurn i
  let following := (g.after played).beginTurn
  { following with events := played ++ following.events }

end Game

namespace Dialogue

def game : Dialogue → Game
  | choosingPiece g => g
  | choosingTarget g _ => g

def squareMenu (g : Game) (p : Piece) : Menu Square := targetMenu (g.board.reach p true)

/-- Takes a line for an open menu, given what follows from each option. -/
def answered {α : Type} (d : Dialogue) (m : Menu α) (line : Option Text.Line)
    (chosen : α → Stretch) : Stretch :=
  match m.reply line with
  | .leave => ⟨d.game.farewell, none⟩
  | .choose option => chosen option
  | .refuse => ⟨m.askedAgain, some d⟩
  | .garbled => ⟨[.fault .notText], none⟩

/-- What follows from the first choice of a turn: the squares of a piece are offered, or a castle is
played. -/
def optionTaken (g : Game) : TurnOption → Stretch
  | .piece _ p => ⟨(squareMenu g p).shown, some (.choosingTarget g p)⟩
  | .castle side => g.turnFrom (.castle side)

/-- Takes the next line from the console; no line is the end of the input. -/
def step (d : Dialogue) (line : Option Text.Line) : Stretch :=
  match d with
  | choosingPiece g => d.answered g.turnMenu line (optionTaken g)
  | choosingTarget g p =>
    d.answered (squareMenu g p) line fun target => g.turnFrom (.move p.square target)

def run (d : Dialogue) : List Text.Line → List Event
  | [] => (d.step none).events
  | line :: lines =>
    let stretch := d.step (some line)
    stretch.events ++
      match stretch.next with
      | none => []
      | some following => following.run lines

end Dialogue

namespace Game

def interactionBegun (g : Game) : Stretch :=
  { g.beginTurn with events := .note ⟨.info, "entering interactive mode"⟩ :: g.beginTurn.events }

/-- Plays interactively from a game with all the lines that the console will give. -/
def interact (g : Game) (input : List Text.Line) : List Event :=
  g.interactionBegun.events ++
    match g.interactionBegun.next with
    | none => []
    | some dialogue => dialogue.run input

end Game

end Scoresheet
