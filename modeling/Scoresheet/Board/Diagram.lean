import Scoresheet.Board.Basic
/-!
# The diagram

Nine rows of text: the ranks from the eighth down to the first, then the letters of the files. What a
square shows is told by the pieces themselves, each of which knows its square.
-/
namespace Scoresheet.Board

/-- The chessman that a square shows: the last piece in the order of the board that says it
stands there. -/
def shown (b : Board) (s : Square) : Option Chessman :=
  (b.pieces.reverse.find? fun p => p.square == s).map fun p => p.toChessman

/-- The character of a square: the glyph of its chessman, or a space. -/
def shownChar (b : Board) (s : Square) : Char :=
  match b.shown s with
  | some man => man.glyph
  | none => ' '

/-- The row of a rank: its digit, then the squares from left to right, with bars between. -/
def rankRow (b : Board) (rank : Fin 8) : String :=
  String.ofList (Square.rankDigit rank :: '|' ::
    (List.finRange 8).flatMap fun file => [b.shownChar ⟨rank, file⟩, '|'])

def fileRow : String := "  A B C D E F G H "

def diagram (b : Board) : List String :=
  (List.finRange 8).reverse.map b.rankRow ++ [fileRow]

end Scoresheet.Board
