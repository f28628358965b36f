import Scoresheet.Square
/-!
# Colors, kinds and pieces

A chessman is a color and a kind; a placement puts one on a square; a piece is one that stands on a
square and remembers whether it has moved since it was placed.
-/
namespace Scoresheet

inductive Color where
  | white
  | black
deriving DecidableEq, Repr

namespace Color

def opposite : Color → Color
  | white => black
  | black => white

@[simp] theorem opposite_opposite (c : Color) : c.opposite.opposite = c := by cases c <;> rfl

def backRank : Color → Fin 8
  | white => 0
  | black => 7

def pawnRank : Color → Fin 8
  | white => 1
  | black => 6

def forward : Color → Int
  | white => 1
  | black => -1

def name : Color → String
  | white => "White"
  | black => "Black"

end Color

inductive PieceKind where
  | pawn
  | knight
  | bishop
  | rook
  | queen
  | king
deriving DecidableEq, Repr

namespace PieceKind

def all : List PieceKind := [pawn, knight, bishop, rook, queen, king]

@[simp] theorem mem_all (k : PieceKind) : k ∈ all := by cases k <;> decide

def letter : PieceKind → Char
  | pawn => 'P'
  | knight => 'N'
  | bishop => 'B'
  | rook => 'R'
  | queen => 'Q'
  | king => 'K'

/-- The kind with a given capital letter; small letters name none. -/
def ofLetter? (c : Char) : Option PieceKind := all.find? fun k => k.letter == c

@[simp] theorem ofLetter?_letter (k : PieceKind) : ofLetter? k.letter = some k := by
  cases k <;> decide

theorem ofLetter?_eq_some_iff {c : Char} {k : PieceKind} :
    ofLetter? c = some k ↔ c = k.letter := by
  constructor
  · intro h
    have := List.find?_some h
    simpa using (beq_iff_eq.mp this).symm
  · rintro rfl
    exact ofLetter?_letter k

def name : PieceKind → String
  | pawn => "Pawn"
  | knight => "Knight"
  | bishop => "Bishop"
  | rook => "Rook"
  | queen => "Queen"
  | king => "King"

end PieceKind

structure Chessman where
  color : Color
  kind : PieceKind
deriving DecidableEq, Repr

namespace Chessman

/-- The letter that the diagram shows: a capital for White, a small letter for Black. -/
def glyph (m : Chessman) : Char :=
  match m.color with
  | .white => m.kind.letter
  | .black => m.kind.letter.toLower

/-- Color and kind in words, such as `White Pawn`. -/
def name (m : Chessman) : String := m.color.name ++ " " ++ m.kind.name

end Chessman

structure Placement extends Chessman where
  square : Square
deriving DecidableEq, Repr

/-- A chessman with the square it stands on. The square belongs to the piece, so that one can be
considered that stands on no board. -/
structure Piece extends Chessman where
  square : Square
  moved : Bool
deriving DecidableEq, Repr

def Placement.piece (p : Placement) : Piece := { p with moved := false }

/-- The piece after it went to another square. Nothing resets the flag. -/
def Piece.movedTo (p : Piece) (target : Square) : Piece := { p with square := target, moved := true }

end Scoresheet
