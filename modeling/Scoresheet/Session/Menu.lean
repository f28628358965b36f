import Scoresheet.Board.Castle
import Scoresheet.Session.Event
import Scoresheet.Text.Line
import Scoresheet.Text.Numeral
/-!
# Menus

A menu lists its options under the numbers from one on, with zero for leaving. A line that names no
option is refused and the menu asks again; a line that is not UTF-8 is a fault. The end of the input
counts as leaving.
-/
namespace Scoresheet

/-- A question with numbered options. -/
structure Menu (α : Type) where
  question : String
  options : List α
  label : α → String

/-- What a line from the console means to a menu. -/
inductive Reply (α : Type) where
  | leave
  | choose (option : α)
  | refuse
  | garbled
deriving DecidableEq, Repr

namespace Menu

variable {α : Type}

def lines (m : Menu α) : List String :=
  m.question :: "0. Quit" ::
    m.options.mapIdx fun i option => (i + 1).repr ++ ". " ++ m.label option

def shown (m : Menu α) : List Event := m.lines.map .say ++ [.prompt]

def askedAgain (m : Menu α) : List Event :=
  [.say ("Please enter a number from 0 to " ++ m.options.length.repr ++ "."), .prompt]

/-- What a text means to the menu. -/
def replyToText (m : Menu α) (text : String) : Reply α :=
  match Text.number? text with
  | none => .refuse
  | some 0 => .leave
  | some (n + 1) =>
    match m.options[n]? with
    | none => .refuse
    | some option => .choose option

/-- What a line means to the menu; no line is the end of the input. -/
def reply (m : Menu α) : Option Text.Line → Reply α
  | none => .leave
  | some line =>
    match Text.Utf8.decode? line with
    | none => .garbled
    | some text => m.replyToText text

/-- How asking ended: what happened, what was chosen, and the lines not yet read. -/
structure Answer (α : Type) where
  events : List Event
  choice : Option α
  rest : List Text.Line

/-- Reads lines until one decides. -/
def awaitAnswer (m : Menu α) : List Text.Line → Answer α
  | [] => ⟨[], none, []⟩
  | line :: rest =>
    match m.reply (some line) with
    | .leave => ⟨[], none, rest⟩
    | .choose option => ⟨[], some option, rest⟩
    | .garbled => ⟨[.fault .notText], none, rest⟩
    | .refuse =>
      let answer := m.awaitAnswer rest
      { answer with events := m.askedAgain ++ answer.events }

def ask (m : Menu α) (input : List Text.Line) : Answer α :=
  let answer := m.awaitAnswer input
  { answer with events := m.shown ++ answer.events }

end Menu

/-- An option of the first menu of a turn: a piece together with its place among the pieces offered,
or a castle. -/
inductive TurnOption where
  | piece (place : Nat) (p : Piece)
  | castle (side : CastleSide)
deriving DecidableEq, Repr

namespace TurnOption

def label : TurnOption → String
  | piece _ p => p.kind.name ++ " at " ++ p.square.capitalName
  | castle side => "Castle " ++ side.name ++ " (" ++ side.token ++ ")"

end TurnOption

def turnMenu (pieces : List Piece) (castles : List CastleSide) : Menu TurnOption where
  question := "Which piece would you like to move?"
  options := pieces.mapIdx .piece ++ castles.map .castle
  label := TurnOption.label

def targetMenu (squares : List Square) : Menu Square where
  question := "Where would you like to move it?"
  options := squares
  label := Square.capitalName

def turnLine (c : Color) : String := "It is " ++ c.name ++ "'s turn."

end Scoresheet
