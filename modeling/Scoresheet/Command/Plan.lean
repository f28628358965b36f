import Scoresheet.Board.Opening
import Scoresheet.Command.FileTable
import Scoresheet.Command.Invocation
import Scoresheet.Session.Dialogue
/-!
# What the program does

The log is opened first. Then comes the input file, if one was named and can be opened; otherwise a
position is set up, and play is interactive in any case. At the end the log is closed.
-/
namespace Scoresheet.Command

/-- The files that an invocation names, as far as opening them went. -/
structure Sources where
  input : Option (String × Opened)
  setup : Option (String × Opened)
deriving DecidableEq, Repr

def finish (g : Game) : List Event :=
  [.log .closing,
    .note ⟨.info, "session finished with " ++ g.board.count.repr ++ " pieces on the board"⟩]

/-- Sets up the position for a session without input: the named file, or the opening position. -/
def setUp (g : Game) : Option (String × Opened) → List Event
  | none => g.setUp Opening.lines
  | some (path, .refused error) => [.fault (.setupUnopenable path error)]
  | some (_, .unreadable error) => [.fault (.unreadable error)]
  | some (_, .content bytes) => g.setUp (Text.textLines bytes)

def replay (g : Game) : Opened → List Event
  | .content bytes => g.replay (Text.textLines bytes)
  | .unreadable error => [.fault (.unreadable error)]
  | .refused _ => []

def Sources.hasInput (s : Sources) : Bool :=
  match s.input with
  | none => false
  | some (_, .refused _) => false
  | some _ => true

/-- Everything before interactive play. -/
def prepare (s : Sources) : List Event :=
  .log .opened ::
    match s.input with
    | none => .log .inputMissing :: setUp Game.fresh s.setup
    | some (path, .refused error) =>
      .note ⟨.warn, "cannot open " ++ path ++ ": " ++ error.message⟩ :: .log .inputUnopenable ::
        setUp Game.fresh s.setup
    | some (path, opened) => .log (.inputOpened path) :: replay Game.fresh opened

/-- Whether play goes on interactively: a batch run stops after its input. -/
def isInteractive (batch : Bool) (s : Sources) : Bool := !batch || !s.hasInput

/-- What follows the preparation: interactive play with the console's lines, or the diagram alone. -/
def playOn (interactive : Bool) (g : Game) (console : List Text.Line) : List Event :=
  if interactive then g.interact console else g.board.logged

/-- Everything that happens. -/
def plan (batch : Bool) (s : Sources) (console : List Text.Line) : List Event :=
  let prepared := prepare s
  let game := Game.fresh.after prepared
  let played := playOn (isInteractive batch s) game console
  prepared ++ played ++ finish (game.after played)

end Scoresheet.Command
