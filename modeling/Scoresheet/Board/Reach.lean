import Scoresheet.Board.Basic
/-!
# Where a piece can go

Every kind has its own rule: knights and kings step, bishops, rooks and queens slide until something
stands in their way, pawns go forward and take diagonally. Check is never considered. The squares come
in the order of the board, each of them once.
-/
namespace Scoresheet

abbrev Shift : Type := Int × Int

def knightShifts : List Shift :=
  [(2, 1), (2, -1), (-2, 1), (-2, -1), (1, 2), (1, -2), (-1, 2), (-1, -2)]

def straightShifts : List Shift := [(1, 0), (-1, 0), (0, 1), (0, -1)]

def diagonalShifts : List Shift := [(1, 1), (1, -1), (-1, 1), (-1, -1)]

def kingShifts : List Shift := straightShifts ++ diagonalShifts

/-- The squares one meets going from a square in one direction to the edge, nearest first. -/
def Square.ray (s : Square) (direction : Shift) : List Square :=
  (List.range 7).filterMap fun n : Nat =>
    s.offset? ((n + 1 : Int) * direction.1) ((n + 1 : Int) * direction.2)

namespace Board

/-- Whether a piece of the other side stands on a square. -/
def hasOpponent (b : Board) (c : Color) (s : Square) : Bool :=
  match b.occupant s with
  | none => false
  | some p => p.color != c

def isVacant (b : Board) (s : Square) : Bool := (b.occupant s).isNone

/-- Whether no piece of one's own stands on a square. -/
def admits (b : Board) (c : Color) (s : Square) : Bool := b.isVacant s || b.hasOpponent c s

/-- The part of a ray up to the first occupant, which is included if it can be taken. -/
def clearPart (b : Board) (c : Color) : List Square → List Square
  | [] => []
  | s :: ray =>
    if b.isVacant s then s :: b.clearPart c ray
    else if b.hasOpponent c s then [s] else []

def steps (b : Board) (c : Color) (s : Square) (shifts : List Shift) : List Square :=
  (shifts.filterMap fun shift => s.offset? shift.1 shift.2).filter (b.admits c)

def slides (b : Board) (c : Color) (s : Square) (directions : List Shift) : List Square :=
  directions.flatMap fun direction => b.clearPart c (s.ray direction)

/-- The empty squares before a pawn: one step, and from its home rank two if it has not moved. -/
def pawnAdvances (b : Board) (p : Piece) : List Square :=
  let single := (p.square.offset? p.color.forward 0).filter b.isVacant
  let double := (p.square.offset? (2 * p.color.forward) 0).filter b.isVacant
  match single with
  | none => []
  | some one =>
    if !p.moved && p.square.rank == p.color.pawnRank then one :: double.toList else [one]

def pawnCaptures (b : Board) (p : Piece) : List Square :=
  ([-1, 1].filterMap fun files => p.square.offset? p.color.forward files).filter
    (b.hasOpponent p.color)

/-- The squares that a piece can go to, in no particular order. Whether captures are
considered makes a difference only to a pawn. -/
def targets (b : Board) (p : Piece) (captures : Bool) : List Square :=
  match p.kind with
  | .pawn => b.pawnAdvances p ++ if captures then b.pawnCaptures p else []
  | .knight => b.steps p.color p.square knightShifts
  | .bishop => b.slides p.color p.square diagonalShifts
  | .rook => b.slides p.color p.square straightShifts
  | .queen => b.slides p.color p.square (straightShifts ++ diagonalShifts)
  | .king => b.steps p.color p.square kingShifts

/-- The squares that a piece can go to, in the order of the board. The piece need not stand on it. -/
def reach (b : Board) (p : Piece) (captures : Bool) : List Square :=
  let found := b.targets p captures
  Square.all.filter fun s => found.contains s

theorem mem_reach_iff {b : Board} {p : Piece} {captures : Bool} {s : Square} :
    s ∈ b.reach p captures ↔ s ∈ b.targets p captures := by
  simp [reach]

theorem pairwise_reach (b : Board) (p : Piece) (captures : Bool) :
    (b.reach p captures).Pairwise fun s t => s.index < t.index :=
  Square.pairwise_all.filter _

def movable (b : Board) (c : Color) : List Piece :=
  b.pieces.filter fun p => p.color == c && !(b.reach p true).isEmpty

end Board

end Scoresheet
