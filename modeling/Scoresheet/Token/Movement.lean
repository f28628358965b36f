import Scoresheet.Piece
import Scoresheet.Token.Error
/-!
# Movement tokens

A movement is written as a piece letter, a square, a separator and a square, such as `Nb8xd7`. No
letter means a pawn; the separator may be missing; `x` marks a capture. The color is not written:
it is the side to move. A capital at the front is always taken for the piece letter.
-/
namespace Scoresheet

/-- A piece of some kind goes from one square to another. -/
structure Movement where
  kind : PieceKind
  source : Square
  target : Square
  capture : Bool
deriving DecidableEq, Repr

namespace Movement

def captureMark : Char := 'x'

def quietMark : Char := '-'

/-- Where the first square begins: behind a capital, or at the front. -/
def squareStart : List Char → Nat
  | [] => 0
  | c :: _ => if c.isUpper then 1 else 0

/-- Whether so many characters can be two squares, with or without a separator between them. -/
def spansTwoSquares : List Char → Bool
  | [_, _, _, _] => true
  | [_, _, separator, _, _] => separator == quietMark || separator == captureMark
  | _ => false

/-- The characters of a token that has the length of a movement. -/
def shapedChars (token : String) : Except TokenError (List Char) := do
  let cs ← Token.someChars token
  if spansTwoSquares (cs.drop (squareStart cs)) then return cs
  else .error (.wrongLength token)

def sourceOf (token : String) : Except TokenError Square := do
  let cs ← shapedChars token
  Token.squareAt token cs (squareStart cs)

def targetOf (token : String) : Except TokenError Square := do
  let cs ← shapedChars token
  Token.squareAt token cs (cs.length - 2)

/-- The kind that the front of a movement token names. -/
def kindOf (token : String) : Except TokenError PieceKind := do
  let cs ← Token.someChars token
  match cs.head? with
  | none => return .pawn
  | some letter =>
    if letter.isUpper then
      match PieceKind.ofLetter? letter with
      | some kind => return kind
      | none => .error (.unknownPiece token letter)
    else return .pawn

def marksCapture (token : String) : Bool := token.toList.contains captureMark

/-- Reads a movement token: the letter first, then the squares from the left. -/
def ofToken (token : String) : Except TokenError Movement := do
  let kind ← kindOf token
  let source ← sourceOf token
  let target ← targetOf token
  return ⟨kind, source, target, marksCapture token⟩

/-- The letter at the front of a written movement: none for a pawn. -/
def letterChars : PieceKind → List Char
  | .pawn => []
  | kind => [kind.letter]

def chars (m : Movement) : List Char :=
  letterChars m.kind ++ m.source.chars ++
    [if m.capture then captureMark else quietMark] ++ m.target.chars

/-- The one way in which a movement is written to the log, such as `Nb1-c3`. -/
def token (m : Movement) : String := String.ofList m.chars

end Movement

end Scoresheet
