import Scoresheet.Text.Blank
import Scoresheet.Text.Utf8
/-!
# Lines

A byte string is cut at its line feeds; what follows the last one is a line only if it is not
empty. A line of a directive file is read leniently, a line from the console strictly.
-/
namespace Scoresheet.Text

/-- The bytes of one line, without its line feed. -/
abbrev Line : Type := List UInt8

def lineFeed : UInt8 := 0x0A

/-- Drops a last piece that is empty: nothing stands behind the final separator. -/
def dropEmptyEnd {α : Type} (found : List (List α)) : List (List α) :=
  match found.getLast? with
  | some [] => found.dropLast
  | _ => found

def lines (bytes : List UInt8) : List Line :=
  dropEmptyEnd (pieces (· == lineFeed) bytes)

/-- A line of a directive file as text, without the carriage returns at its end. -/
def Line.text (line : Line) : String :=
  String.ofList (dropEndWhile (· == '\r') (Utf8.lossy line).toList)

/-- The lines of a byte string, read leniently. -/
def textLines (bytes : List UInt8) : List String := (lines bytes).map Line.text

@[simp] theorem lines_nil : lines [] = [] := rfl

end Scoresheet.Text
