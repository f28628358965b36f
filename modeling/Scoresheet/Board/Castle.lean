import Scoresheet.Board.Basic
import Scoresheet.Note
import Scoresheet.Token.Castle
/-!
# Castling

King and rook have to stand on their home squares with nothing between them, and one of the two
must not have moved yet; that the other has moved does no harm. Executing a castle is separate from
judging it, and moves whatever stands on the two home squares.
-/
namespace Scoresheet

def kingFile : Fin 8 := ⟨4, by decide⟩

namespace CastleSide

def rookFile : CastleSide → Fin 8
  | king => ⟨7, by decide⟩
  | queen => ⟨0, by decide⟩

def kingTargetFile : CastleSide → Fin 8
  | king => ⟨6, by decide⟩
  | queen => ⟨2, by decide⟩

def rookTargetFile : CastleSide → Fin 8
  | king => ⟨5, by decide⟩
  | queen => ⟨3, by decide⟩

def pathFiles : CastleSide → List (Fin 8)
  | king => [⟨5, by decide⟩, ⟨6, by decide⟩]
  | queen => [⟨1, by decide⟩, ⟨2, by decide⟩, ⟨3, by decide⟩]

end CastleSide

namespace Color

def kingHome (c : Color) : Square := ⟨c.backRank, kingFile⟩

def rookHome (c : Color) (side : CastleSide) : Square := ⟨c.backRank, side.rookFile⟩

def kingCastled (c : Color) (side : CastleSide) : Square := ⟨c.backRank, side.kingTargetFile⟩

def rookCastled (c : Color) (side : CastleSide) : Square := ⟨c.backRank, side.rookTargetFile⟩

def castlePath (c : Color) (side : CastleSide) : List Square :=
  side.pathFiles.map fun file => ⟨c.backRank, file⟩

end Color

/-- What stands against a castle. -/
inductive CastleObstacle where
  | missing
  | wrongPieces
  | bothMoved
  | blocked
deriving DecidableEq, Repr

def CastleObstacle.message : CastleObstacle → String
  | missing => "king or rook missing"
  | wrongPieces => "home squares hold the wrong pieces"
  | bothMoved => "king and rook have both moved"
  | blocked => "path is not clear"

/-- A castle that is refused, and why. -/
structure CastleRefusal where
  color : Color
  side : CastleSide
  obstacle : CastleObstacle
deriving DecidableEq, Repr

def CastleRefusal.note (r : CastleRefusal) : Note :=
  ⟨.debug, r.color.name ++ " " ++ r.side.label ++ " castle: " ++ r.obstacle.message⟩

namespace Board

/-- The first obstacle to a castle, if there is one. -/
def castleObstacle? (b : Board) (side : CastleSide) (c : Color) : Option CastleObstacle :=
  match b.occupant c.kingHome, b.occupant (c.rookHome side) with
  | some king, some rook =>
    if king.toChessman != ⟨c, .king⟩ || rook.toChessman != ⟨c, .rook⟩ then some .wrongPieces
    else if king.moved && rook.moved then some .bothMoved
    else if (c.castlePath side).any fun s => (b.occupant s).isSome then some .blocked
    else none
  | _, _ => some .missing

def canCastle (b : Board) (side : CastleSide) (c : Color) : Bool :=
  (b.castleObstacle? side c).isNone

def castleRefusal? (b : Board) (side : CastleSide) (c : Color) : Option CastleRefusal :=
  (b.castleObstacle? side c).map fun obstacle => ⟨c, side, obstacle⟩

def castleNotes (b : Board) (side : CastleSide) (c : Color) : List Note :=
  ((b.castleRefusal? side c).map CastleRefusal.note).toList

/-- The castles open to a side, the king's first. -/
def castles (b : Board) (c : Color) : List CastleSide :=
  CastleSide.all.filter fun side => b.canCastle side c

/-- Whether something stands on both home squares, so that a castle can be executed. -/
def castleReady (b : Board) (side : CastleSide) (c : Color) : Bool :=
  (b.occupant c.kingHome).isSome && (b.occupant (c.rookHome side)).isSome

/-- Executes a castle without judging it: first the king's home square is left, then the rook's. An
empty home square leaves the board as it is. -/
def castle (b : Board) (side : CastleSide) (c : Color) : Board :=
  if b.castleReady side c then
    (b.relocate c.kingHome (c.kingCastled side)).relocate (c.rookHome side) (c.rookCastled side)
  else b

/-- The notes left by executing a castle: a warning if nothing could be done. -/
def castlingNotes (b : Board) (side : CastleSide) (c : Color) : List Note :=
  if b.castleReady side c then []
  else [⟨.warn, c.name ++ " " ++ side.label ++ " castle requested without king and rook in place"⟩]

end Board

end Scoresheet
