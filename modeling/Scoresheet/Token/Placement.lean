import Scoresheet.Piece
import Scoresheet.Token.Error
/-!
# Placement tokens

A placement is written as a piece letter, a color marker and a square, such as `Kle1`: `l` for
light, `d` for dark. Letter, marker and file may have either case.
-/
namespace Scoresheet.Placement

/-- The color that a marker names. -/
def colorOf? (marker : Char) : Option Color :=
  if marker.toLower = 'l' then some .white
  else if marker.toLower = 'd' then some .black
  else none

/-- Reads a placement token. A refused letter is reported as written, a refused marker in
its small form. -/
def ofToken (token : String) : Except TokenError Placement := do
  let cs ← Token.someChars token
  match cs with
  | [letter, marker, _, _] =>
    match PieceKind.ofLetter? letter.toUpper with
    | none => .error (.unknownPiece token letter)
    | some kind =>
      match colorOf? marker with
      | none => .error (.unknownColor token marker.toLower)
      | some color => do
        let square ← Token.squareAt token cs 2
        return ⟨⟨color, kind⟩, square⟩
  | _ => .error (.wrongLength token)

end Scoresheet.Placement
