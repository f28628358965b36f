import Scoresheet.Note
import Scoresheet.Text.Blank
import Scoresheet.Text.Visible
/-!
# The error output

First come the notes, each a head and the visible part of a text that ends with a line feed; the
report of a fault is last. Lines of a note after its first are indented, so that they are not taken
for notes. A terminal string that a note leaves open swallows its line feed: whatever is printed
next goes on with the same line. Notes of one visible line are read back as they were given, and
what remains is the report.
-/
namespace Scoresheet

/-- What the error output is made of. -/
inductive ErrorSymbol where
  /-- What stands before the text of a note. -/
  | head (level : Level)
  | char (c : Char)
deriving DecidableEq, Repr

namespace ErrorSymbol

def text : ErrorSymbol → List Char
  | head level => ("[" ++ level.label ++ "] ").toList
  | char c => [c]

def isLineFeed : ErrorSymbol → Bool
  | head _ => false
  | char c => c == '\n'

end ErrorSymbol

namespace Note

def indentation : List Char := [' ', ' ', ' ', ' ']

def indented (cs : List Char) : List Char :=
  cs.flatMap fun c => if c == '\n' then c :: indentation else [c]

def visibleText (n : Note) : List Char := Text.visible (indented n.text.toList ++ ['\n'])

def symbols (n : Note) : List ErrorSymbol := .head n.level :: n.visibleText.map .char

/-- Whether a note has one line, all of it visible. -/
def IsPlain (n : Note) : Prop :=
  ∀ c ∈ n.text.toList, (c == '\n') = false ∧ Text.isVisible c = true

end Note

abbrev ErrorLine : Type := List ErrorSymbol

namespace ErrorLine

def text (line : ErrorLine) : List Char := line.flatMap ErrorSymbol.text

/-- The note that a line shows: it begins with a head, and everything after that is its text. -/
def note? : ErrorLine → Option Note
  | .head level :: rest => some ⟨level, String.ofList (ErrorLine.text rest)⟩
  | _ => none

/-- The text of the lines that show no note. Every line but the last ends with a line feed. -/
def remainder : List ErrorLine → List Char
  | [] => []
  | [line] => if (note? line).isSome then [] else text line
  | line :: more =>
    if (note? line).isSome then remainder more else text line ++ '\n' :: remainder more

end ErrorLine

/-- Everything that is printed on the error output. -/
structure ErrorOutput where
  symbols : List ErrorSymbol
deriving DecidableEq, Repr

namespace ErrorOutput

def ofNotes (notes : List Note) (report : String) : ErrorOutput :=
  ⟨notes.flatMap Note.symbols ++ report.toList.map .char⟩

def text (o : ErrorOutput) : String := String.ofList (ErrorLine.text o.symbols)

/-- The lines, the last of which is what follows the last line feed. -/
def lines (o : ErrorOutput) : List ErrorLine := Text.pieces ErrorSymbol.isLineFeed o.symbols

/-- The notes, each as the line shows it that begins with its head. -/
def notes (o : ErrorOutput) : List Note := o.lines.filterMap ErrorLine.note?

def remainder (o : ErrorOutput) : String := String.ofList (ErrorLine.remainder o.lines)

end ErrorOutput

theorem Note.visibleText_of_isPlain {n : Note} (h : n.IsPlain) :
    n.visibleText = n.text.toList ++ ['\n'] := by
  have hLine : ∀ cs : List Char, (∀ c ∈ cs, (c == '\n') = false) → indented cs = cs := by
    intro cs hcs
    unfold indented
    induction cs with
    | nil => rfl
    | cons c cs ih =>
      rw [List.flatMap_cons, hcs c (by simp), ih fun d hd => hcs d (by simp [hd])]
      rfl
  rw [visibleText, hLine _ fun c hc => (h c hc).1]
  apply Text.visible_eq_self
  intro c hc
  rcases List.mem_append.mp hc with hc | hc
  · exact (h c hc).2
  · rw [List.mem_singleton.mp hc]
    rfl

theorem ErrorLine.text_map_char (cs : List Char) : text (cs.map .char) = cs := by
  induction cs with
  | nil => rfl
  | cons c cs ih => simpa [text, ErrorSymbol.text] using ih

namespace ErrorOutput

theorem lines_map_char (cs : List Char) :
    lines ⟨cs.map .char⟩ = (Text.pieces (· == '\n') cs).map (List.map .char) := by
  unfold lines
  induction cs with
  | nil => rfl
  | cons c cs ih =>
    obtain ⟨p, ps, hp⟩ := List.exists_cons_of_ne_nil (Text.pieces_ne_nil (· == '\n') cs)
    have hc : (ErrorSymbol.char c).isLineFeed = (c == '\n') := rfl
    rw [List.map_cons, Text.pieces_cons, Text.pieces_cons, ih, hc, hp]
    split <;> simp

theorem lines_symbols_append {n : Note} (h : n.IsPlain) (rest : List ErrorSymbol) :
    lines ⟨n.symbols ++ rest⟩ = (.head n.level :: n.text.toList.map .char) :: lines ⟨rest⟩ := by
  unfold lines
  rw [Note.symbols, Note.visibleText_of_isPlain h, List.map_append, ← List.cons_append,
    List.append_assoc]
  rw [show (['\n'].map ErrorSymbol.char ++ rest) = ErrorSymbol.char '\n' :: rest from rfl,
    Text.pieces_append_separator _ _ _ _ rfl, Text.pieces_of_no_separator]
  · rfl
  · intro s hs
    rcases List.mem_cons.mp hs with rfl | hs
    · rfl
    · obtain ⟨c, hc, rfl⟩ := List.mem_map.mp hs
      simpa [ErrorSymbol.isLineFeed] using (h c hc).1

end ErrorOutput

theorem ErrorLine.note?_map_char (cs : List Char) : note? (cs.map .char) = none := by
  cases cs <;> rfl

theorem ErrorLine.remainder_map_char (cs : List Char) :
    remainder ((Text.pieces (· == '\n') cs).map (List.map .char)) = cs := by
  induction cs with
  | nil => rfl
  | cons c cs ih =>
    obtain ⟨p, ps, hp⟩ := List.exists_cons_of_ne_nil (Text.pieces_ne_nil (· == '\n') cs)
    rw [hp] at ih
    rw [Text.pieces_cons, hp]
    split
    · rename_i hc
      rw [List.map_cons, List.map_cons, remainder, note?_map_char]
      · simpa [text, ← List.map_cons, beq_iff_eq.mp hc] using ih
      · simp
    · have step : ∀ more : List ErrorLine,
          remainder ((c :: p).map .char :: more) = c :: remainder (p.map .char :: more) := by
        intro more
        cases more <;> simp only [remainder, note?_map_char, text_map_char] <;> simp
      exact (step _).trans (congrArg _ ih)

namespace ErrorOutput

/-- Plain notes are read back. -/
theorem notes_ofNotes {ns : List Note} (h : ∀ n ∈ ns, n.IsPlain) (report : String) :
    (ofNotes ns report).notes = ns := by
  unfold notes ofNotes
  induction ns with
  | nil =>
    rw [List.flatMap_nil, List.nil_append, lines_map_char]
    simp [ErrorLine.note?_map_char]
  | cons n ns ih =>
    rw [List.flatMap_cons, List.append_assoc, lines_symbols_append (h n (by simp)),
      List.filterMap_cons, ih fun m hm => h m (by simp [hm])]
    simp [ErrorLine.note?, ErrorLine.text_map_char]

/-- Beside plain notes the report remains. -/
theorem remainder_ofNotes {ns : List Note} (h : ∀ n ∈ ns, n.IsPlain) (report : String) :
    (ofNotes ns report).remainder = report := by
  unfold remainder ofNotes
  induction ns with
  | nil =>
    rw [List.flatMap_nil, List.nil_append, lines_map_char, ErrorLine.remainder_map_char]
    simp
  | cons n ns ih =>
    rw [List.flatMap_cons, List.append_assoc, lines_symbols_append (h n (by simp))]
    rw [ErrorLine.remainder]
    · simpa [ErrorLine.note?] using ih fun m hm => h m (by simp [hm])
    · exact Text.pieces_ne_nil _ _

end ErrorOutput

end Scoresheet
