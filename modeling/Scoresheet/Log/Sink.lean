/-!
# Sinks

A sink takes text until it holds as many line feeds as it has room for; from then on it refuses
every piece of text that is not empty. A piece is taken whole or not at all. A line goes out as two
pieces, its text and its line feed.
-/
namespace Scoresheet

/-- A place that text is written to. -/
structure Sink where
  /-- The line feeds that it still takes, if their number is limited. -/
  room : Option Nat
  /-- The pieces that it has taken, the latest first. -/
  taken : List String
deriving DecidableEq, Repr

namespace Sink

def fresh (room : Option Nat) : Sink := ⟨room, []⟩

def text (s : Sink) : String := String.join s.taken.reverse

def lineFeeds (piece : String) : Nat := piece.toList.count '\n'

def accepts (s : Sink) (piece : String) : Bool := piece == "" || s.room != some 0

/-- Takes a piece of text, or leaves the sink as it is. -/
def write (s : Sink) (piece : String) : Sink :=
  if s.accepts piece then ⟨s.room.map (· - lineFeeds piece), piece :: s.taken⟩ else s

def acceptsLine (s : Sink) (line : String) : Bool :=
  s.accepts line && (s.write line).accepts "\n"

/-- Takes a line. If its text is refused, its line feed is not tried. -/
def writeLine (s : Sink) (line : String) : Sink :=
  if s.accepts line then (s.write line).write "\n" else s

def drained (s : Sink) : Sink := { s with taken := [] }

@[simp] theorem text_fresh (room : Option Nat) : (fresh room).text = "" := rfl

@[simp] theorem text_drained (s : Sink) : s.drained.text = "" := rfl

theorem text_write (s : Sink) (piece : String) :
    (s.write piece).text = if s.accepts piece then s.text ++ piece else s.text := by
  unfold write
  split <;> simp [text]

theorem text_writeLine_of_acceptsLine {s : Sink} {line : String} (h : s.acceptsLine line = true) :
    (s.writeLine line).text = s.text ++ line ++ "\n" := by
  obtain ⟨h₁, h₂⟩ := Bool.and_eq_true_iff.mp h
  simp [writeLine, h₁, text_write, h₂]

end Sink

end Scoresheet
