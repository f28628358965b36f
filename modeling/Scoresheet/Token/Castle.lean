import Scoresheet.Token.Error
/-!
# Castle tokens

`O-O` castles on the king's side, `O-O-O` on the queen's side.
-/
namespace Scoresheet

/-- The side of the board on which a king castles. -/
inductive CastleSide where
  | king
  | queen
deriving DecidableEq, Repr

namespace CastleSide

def all : List CastleSide := [king, queen]

def token : CastleSide → String
  | king => "O-O"
  | queen => "O-O-O"

def name : CastleSide → String
  | king => "king side"
  | queen => "queen side"

def label : CastleSide → String
  | king => "KingSide"
  | queen => "QueenSide"

/-- Reads a castle token, blanks around it allowed. -/
def ofToken (token : String) : Except TokenError CastleSide :=
  if Token.chars token = king.token.toList then .ok king
  else if Token.chars token = queen.token.toList then .ok queen
  else .error (.notCastle token)

@[simp] theorem ofToken_token (side : CastleSide) : ofToken side.token = .ok side := by
  cases side <;> rfl

end CastleSide

end Scoresheet
