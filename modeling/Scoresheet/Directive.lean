import Scoresheet.Text.Blank
/-!
# Directives

An input line is sorted by the shape of its tokens alone: a placement, one or two actions, nothing,
or none of these. The rules of chess play no part in it, and whether a token with the right shape
can be read is decided where it is read.
-/
namespace Scoresheet

/-- What a line asks for. -/
inductive Directive where
  /-- A blank line or a comment. -/
  | blank
  /-- One piece to be put on the board. -/
  | placement (token : String)
  /-- One or two movements. -/
  | movements (tokens : List String)
  /-- One or two actions with a castle among them. -/
  | castles (tokens : List String)
  /-- Any other line, without comment and surrounding blanks. -/
  | unrecognized (content : String)
deriving DecidableEq, Repr

namespace Directive

/-- A comment begins with two of these. -/
def commentMark : String := "//"

/-- The part of a line before the first comment mark. -/
def beforeComment : List Char → List Char
  | [] => []
  | c :: cs =>
    if c == '/' && cs.head? == some '/' then [] else c :: beforeComment cs

def stripComment (line : String) : String := String.ofList (beforeComment line.toList)

def isPieceLetter (c : Char) : Bool := "KQBNRP".toList.contains c

def isAnyPieceLetter (c : Char) : Bool := "KQBNRPkqbnrp".toList.contains c

def isColorMarker (c : Char) : Bool := "ldLD".toList.contains c

def isFile (c : Char) : Bool := "abcdefghABCDEFGH".toList.contains c

def isRank (c : Char) : Bool := "12345678".toList.contains c

def isSeparator (c : Char) : Bool := "-x".toList.contains c

/-- Piece letter, color marker, file and rank. -/
def hasPlacementShape : List Char → Bool
  | [piece, color, file, rank] =>
    isAnyPieceLetter piece && isColorMarker color && isFile file && isRank rank
  | _ => false

/-- Two squares, with or without a separator between them. -/
def hasSpanShape : List Char → Bool
  | [f, r, f', r'] => isFile f && isRank r && isFile f' && isRank r'
  | [f, r, separator, f', r'] =>
    isFile f && isRank r && isSeparator separator && isFile f' && isRank r'
  | _ => false

/-- Two squares, with or without a piece letter in front. A capital at the front may be the file of
the first square as well. -/
def hasMovementShape (cs : List Char) : Bool :=
  hasSpanShape cs ||
    match cs with
    | [] => false
    | letter :: rest => isPieceLetter letter && hasSpanShape rest

def hasCastleShape (cs : List Char) : Bool :=
  cs == "O-O".toList || cs == "O-O-O".toList

def isPlacement (token : String) : Bool := hasPlacementShape token.toList

def isMovement (token : String) : Bool := hasMovementShape token.toList

def isCastle (token : String) : Bool := hasCastleShape token.toList

def isAction (token : String) : Bool := isMovement token || isCastle token

/-- One action for each side fits on a line. -/
def mostActions : Nat := 2

/-- Tokens that are no placement: actions, if there are few enough and each of them is one. -/
def ofActions (content : String) (tokens : List String) : Directive :=
  if tokens.length ≤ mostActions && tokens.all isAction then
    if tokens.any isCastle then .castles tokens else .movements tokens
  else .unrecognized content

def ofTokens (content : String) : List String → Directive
  | [token] => if isPlacement token then .placement token else ofActions content [token]
  | tokens => ofActions content tokens

def ofLine (line : String) : Directive :=
  let content := Text.trim (beforeComment line.toList)
  if content.isEmpty then .blank
  else ofTokens (String.ofList content) ((Text.words content).map String.ofList)

end Directive

end Scoresheet
