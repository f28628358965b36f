import Scoresheet.Board.Castle
import Scoresheet.Board.Move
/-!
# Intents

What a side means to do, named by squares alone. The kind and the capture mark of the movement follow
from what stands on the two squares.
-/
namespace Scoresheet

/-- What a side means to do with its turn. -/
inductive Intent where
  | move (source target : Square)
  | castle (side : CastleSide)
deriving DecidableEq, Repr

/-- Why an intent is refused. -/
inductive IntentRefusal where
  | vacantSource
  | movement (reason : Refusal)
  | castle (reason : CastleRefusal)
deriving DecidableEq, Repr

/-- The notes that go with a refused intent. An empty first square needs no word. -/
def IntentRefusal.notes : IntentRefusal → List Note
  | vacantSource => []
  | movement reason => [reason.note]
  | castle reason => [reason.note]

namespace Board

def movement? (b : Board) (source target : Square) : Option Movement :=
  (b.occupant source).map fun p => ⟨p.kind, source, target, (b.occupant target).isSome⟩

/-- Plays an intent for a side. -/
def intend (b : Board) (i : Intent) (c : Color) : Except IntentRefusal Board :=
  match i with
  | .move source target =>
    match b.movement? source target with
    | none => .error .vacantSource
    | some m =>
      match b.move m c with
      | .ok after => .ok after
      | .error reason => .error (.movement reason)
  | .castle side =>
    match b.castleRefusal? side c with
    | none => .ok (b.castle side c)
    | some reason => .error (.castle reason)

end Board

end Scoresheet
