import Scoresheet.Board.Basic
import Scoresheet.Fault
import Scoresheet.Log.Entry
import Scoresheet.Note
/-!
# Games and events

A game is what a session keeps: the board, the side to move, and whether movement has begun. What
happens in a session is a list of events, each with one effect. Planning what happens needs the game
alone; whether the log and the console take what is written is decided when the events are performed.
-/
namespace Scoresheet

/-- The state of play. -/
structure Game where
  board : Board
  turn : Color
  /-- From the first action on, pieces are no longer placed. -/
  begun : Bool
deriving DecidableEq, Repr

def Game.fresh : Game := ⟨Board.empty, .white, false⟩

/-- One effect of a session. -/
inductive Event where
  | note (n : Note)
  /-- A line goes to the game log. -/
  | log (e : Entry)
  /-- A line goes to the console. -/
  | say (line : String)
  /-- The console asks for a line. -/
  | prompt
  /-- The game becomes another. -/
  | update (g : Game)
  /-- Nothing after this happens. -/
  | fault (f : Fault)
deriving DecidableEq, Repr

def promptText : String := "> "

namespace Game

/-- The game after a list of events: the last one it became, or the one before. -/
def after (g : Game) : List Event → Game
  | [] => g
  | .update next :: events => next.after events
  | _ :: events => g.after events

def passed (g : Game) : Game := { g with turn := g.turn.opposite }

@[simp] theorem after_nil (g : Game) : g.after [] = g := rfl

@[simp] theorem after_update (g next : Game) (events : List Event) :
    g.after (.update next :: events) = next.after events := rfl

theorem after_append (g : Game) (es fs : List Event) : g.after (es ++ fs) = (g.after es).after fs := by
  induction es generalizing g with
  | nil => rfl
  | cons e es ih => cases e <;> exact ih _

end Game

end Scoresheet
