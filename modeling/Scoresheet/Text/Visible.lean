/-!
# The visible part of a text

A text may hold terminal sequences: an escape character and what belongs to it. Its visible part is
the text without these and without control characters; of the controls it keeps tab, line feed,
form feed and carriage return. Strings swallow these as well. In any other sequence they suspend
it: what follows is visible until a character that is not resumes the sequence, or one beyond ASCII
ends it.
-/
namespace Scoresheet.Text

/-- How a character matters to a terminal. -/
inductive CharKind where
  /-- The character that begins a sequence. -/
  | escape
  /-- A character that breaks a sequence off. -/
  | cancel
  /-- Tab, line feed, form feed and carriage return. -/
  | spacing
  /-- Any other control character of ASCII. -/
  | control
  | graphic
  | nonAscii
deriving DecidableEq, Repr

/-- The kind of a character. Beyond ASCII there are no controls. -/
def charKind (c : Char) : CharKind :=
  if c == '\x1b' then .escape
  else if c == '\x18' || c == '\x1a' then .cancel
  else if c == '\t' || c == '\n' || c == '\x0c' || c == '\r' then .spacing
  else if c.toNat < 0x20 || c.toNat == 0x7F then .control
  else if c.toNat < 0x7F then .graphic
  else .nonAscii

/-- A terminal sequence that is not complete. -/
inductive TerminalSequence where
  /-- An escape character alone. -/
  | escape
  /-- An escape character with intermediate characters. -/
  | intermediate
  /-- A control sequence, which a final character completes. -/
  | control
  /-- A system command, which a bell completes. -/
  | command
  /-- A device string of which nothing is known. -/
  | device
  /-- A device string with parameters. -/
  | deviceParameters
  /-- A device string with intermediate characters. -/
  | deviceIntermediate
  /-- A string, which its terminator completes. -/
  | string
deriving DecidableEq, Repr

namespace TerminalSequence

def isIntermediate (c : Char) : Bool := 0x20 ≤ c.toNat && c.toNat ≤ 0x2F

/-- The sequence with one more graphic character; none if that completes it. -/
def extend? : TerminalSequence → Char → Option TerminalSequence
  | escape, '[' => some control
  | escape, ']' => some command
  | escape, 'P' => some device
  | escape, 'X' => some string
  | escape, '^' => some string
  | escape, '_' => some string
  | escape, c => if isIntermediate c then some intermediate else none
  | intermediate, c => if isIntermediate c then some intermediate else none
  | control, c => if c.toNat < 0x40 then some control else none
  | command, _ => some command
  | device, c =>
    if isIntermediate c then some deviceIntermediate
    else if c.toNat < 0x40 then some deviceParameters
    else some string
  | deviceParameters, c =>
    if isIntermediate c then some deviceIntermediate
    else if c.toNat < 0x3C then some deviceParameters
    else some string
  | deviceIntermediate, c => if isIntermediate c then some deviceIntermediate else some string
  | string, _ => some string

/-- Whether a spacing control is carried out in the middle of the sequence. Strings swallow it. -/
def isSuspendable : TerminalSequence → Bool
  | escape => true
  | intermediate => true
  | control => true
  | _ => false

def stringTerminator : UInt8 := 0x9C

/-- Whether a character beyond ASCII completes the sequence: the terminator of a string is looked for
in the bytes of the character. -/
def isEndedBy (s : TerminalSequence) (c : Char) : Bool :=
  s == string && (String.singleton c).toUTF8.toList.contains stringTerminator

end TerminalSequence

/-- How far a text has been read. -/
inductive Reading where
  | text
  | inside (s : TerminalSequence)
  /-- Visible text in the middle of a sequence. -/
  | suspended (s : TerminalSequence)
deriving DecidableEq, Repr

namespace Reading

def ofSequence? : Option TerminalSequence → Reading
  | none => text
  | some s => inside s

/-- Reads on over a control character, which is never visible. -/
def control : Reading → Char → Reading
  | text, _ => text
  | inside .command, c => if c == '\x07' then text else inside .command
  | inside s, _ => inside s
  | suspended s, _ => inside s

/-- Reads one character, and says whether it is visible. -/
def step (r : Reading) (c : Char) : Reading × Bool :=
  match charKind c, r with
  | .escape, _ => (inside .escape, false)
  | .cancel, _ => (text, false)
  | .control, r => (r.control c, false)
  | .spacing, inside s => if s.isSuspendable then (suspended s, true) else (inside s, false)
  | .spacing, r => (r, true)
  | .graphic, inside s => (ofSequence? (s.extend? c), false)
  | .graphic, r => (r, true)
  | .nonAscii, inside s => (if s.isEndedBy c then text else inside s, false)
  | .nonAscii, _ => (text, true)

def visible : Reading → List Char → List Char
  | _, [] => []
  | r, c :: cs => if (r.step c).2 then c :: visible (r.step c).1 cs else visible (r.step c).1 cs

end Reading

def visible (cs : List Char) : List Char := Reading.text.visible cs

/-- The kinds of characters that a text without sequences keeps. -/
def isVisible (c : Char) : Bool :=
  match charKind c with
  | .spacing => true
  | .graphic => true
  | .nonAscii => true
  | _ => false

theorem step_text_of_isVisible {c : Char} (h : isVisible c = true) :
    Reading.text.step c = (.text, true) := by
  unfold isVisible at h
  unfold Reading.step
  split at h <;> simp_all

theorem isVisible_of_step {r : Reading} {c : Char} (h : (r.step c).2 = true) :
    isVisible c = true := by
  unfold Reading.step at h
  unfold isVisible
  split at h <;> simp_all

/-- Only characters of visible kinds are kept. -/
theorem isVisible_of_mem_visible {r : Reading} {cs : List Char} {c : Char}
    (h : c ∈ r.visible cs) : isVisible c = true := by
  induction cs generalizing r with
  | nil => simp [Reading.visible] at h
  | cons d ds ih =>
    rw [Reading.visible] at h
    split at h
    · rcases List.mem_cons.mp h with rfl | h
      · exact isVisible_of_step ‹_›
      · exact ih h
    · exact ih h

theorem visible_eq_self {cs : List Char} (h : ∀ c ∈ cs, isVisible c = true) : visible cs = cs := by
  unfold visible
  induction cs with
  | nil => rfl
  | cons c cs ih =>
    rw [Reading.visible, step_text_of_isVisible (h c (by simp))]
    simpa using ih fun d hd => h d (by simp [hd])

/-- What is left of a text has nothing more to lose. -/
theorem visible_visible (cs : List Char) : visible (visible cs) = visible cs :=
  visible_eq_self fun _ h => isVisible_of_mem_visible h

end Scoresheet.Text
