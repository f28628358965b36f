import Scoresheet.Square
import Scoresheet.Text.Blank
/-!
# What can be wrong with a token

The causes for which a directive token is refused, and the parts of reading that all tokens share.
Offsets count the characters of the token without the blanks around it; the token itself is kept
as it was given.
-/
namespace Scoresheet

/-- Why a token cannot be read. -/
inductive TokenError where
  | empty
  | wrongLength (token : String)
  | noFile (token : String) (offset : Nat)
  | noRank (token : String) (offset : Nat)
  | unknownPiece (token : String) (letter : Char)
  | unknownColor (token : String) (marker : Char)
  | notCastle (token : String)
deriving DecidableEq, Repr

def TokenError.message : TokenError → String
  | empty => "empty token"
  | wrongLength token => "token [" ++ token ++ "] has the wrong length"
  | noFile token offset =>
    "token [" ++ token ++ "] has no valid file at offset " ++ offset.repr
  | noRank token offset =>
    "token [" ++ token ++ "] has no valid rank at offset " ++ offset.repr
  | unknownPiece token letter =>
    "unknown piece letter '" ++ letter.toString ++ "' in [" ++ token ++ "]"
  | unknownColor token marker =>
    "unknown color marker '" ++ marker.toString ++ "' in [" ++ token ++ "]"
  | notCastle token => "[" ++ token ++ "] is not a castle"

namespace Token

def chars (token : String) : List Char := Text.trim token.toList

def someChars (token : String) : Except TokenError (List Char) :=
  if (chars token).isEmpty then .error .empty else .ok (chars token)

/-- The square written at an offset. The file is looked at before the rank. -/
def squareAt (token : String) (cs : List Char) (offset : Nat) : Except TokenError Square :=
  match cs[offset]?.bind Square.fileOf?, cs[offset + 1]?.bind Square.rankOf? with
  | some file, some rank => .ok ⟨rank, file⟩
  | none, _ => .error (.noFile token offset)
  | some _, none => .error (.noRank token (offset + 1))

end Token

end Scoresheet
