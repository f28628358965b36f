import Scoresheet.Board.Reach
import Scoresheet.Note
import Scoresheet.Token.Movement
/-!
# Playing a movement

A movement is played if the named piece of the side to move stands on the first square, the
capture mark agrees with what stands on the second, and the piece can go there. Otherwise the first
of these conditions that fails is the reason for which it is refused, and there is no new board.
-/
namespace Scoresheet

/-- Why a movement is refused. -/
inductive Refusal where
  | vacantSource (source : Square)
  | otherPiece (source : Square) (found expected : Chessman)
  | occupiedTarget (target : Square) (occupant : Chessman)
  | nothingToCapture (target : Square)
  | unreachable (man : Chessman) (target : Square)
deriving DecidableEq, Repr

namespace Refusal

def message : Refusal → String
  | vacantSource source => "no piece on " ++ source.name
  | otherPiece source found expected =>
    source.name ++ " is a " ++ found.name ++ ", expected a " ++ expected.name
  | occupiedTarget target occupant => target.name ++ " is occupied by a " ++ occupant.name
  | nothingToCapture target => "capture marked but " ++ target.name ++ " is empty"
  | unreachable man target => man.name ++ " cannot reach " ++ target.name

def note (r : Refusal) : Note := ⟨.debug, r.message⟩

end Refusal

namespace Board

/-- Compares the capture mark with what stands on the second square. -/
def targetRefusal? (b : Board) (m : Movement) (c : Color) : Option Refusal :=
  match b.occupant m.target with
  | some p =>
    if !m.capture || p.color == c then some (.occupiedTarget m.target p.toChessman) else none
  | none => if m.capture then some (.nothingToCapture m.target) else none

/-- The first condition of a movement that fails, if one does. -/
def refusal? (b : Board) (m : Movement) (c : Color) : Option Refusal :=
  match b.occupant m.source with
  | none => some (.vacantSource m.source)
  | some p =>
    if p.color != c || p.kind != m.kind then
      some (.otherPiece m.source p.toChessman ⟨c, m.kind⟩)
    else
      match b.targetRefusal? m c with
      | some r => some r
      | none =>
        if (b.reach p m.capture).contains m.target then none
        else some (.unreachable ⟨c, p.kind⟩ m.target)

/-- Plays a movement for a side. -/
def move (b : Board) (m : Movement) (c : Color) : Except Refusal Board :=
  match b.refusal? m c with
  | some r => .error r
  | none => .ok (b.relocate m.source m.target)

end Board

end Scoresheet
