/-!
# Reading UTF-8

One pass over the bytes yields the characters in order, and nothing in place of each maximal
prefix of a character that breaks off. The two readings of a byte string differ in what they make
of such a place: `lossy` puts the replacement character there, `decode?` gives up.
-/
namespace Scoresheet.Text

/-- A character that has begun: the bits read so far, the bytes still missing, and the range in which
the next one has to lie. -/
structure Pending where
  bits : Nat
  missing : Nat
  low : UInt8
  high : UInt8
deriving DecidableEq, Repr

/-- What one byte yields: finished places of the text, and the character it leaves open. -/
abbrev Progress : Type := List (Option Char) × Option Pending

namespace Utf8

/-- A byte where a character may begin. The narrowed ranges exclude overlong forms, surrogates and
code points past the last plane. -/
def start (b : UInt8) : Progress :=
  if b ≤ 0x7F then ([some (Char.ofNat b.toNat)], none)
  else if b < 0xC2 then ([none], none)
  else if b ≤ 0xDF then ([], some ⟨b.toNat - 0xC0, 1, 0x80, 0xBF⟩)
  else if b = 0xE0 then ([], some ⟨0, 2, 0xA0, 0xBF⟩)
  else if b = 0xED then ([], some ⟨0xD, 2, 0x80, 0x9F⟩)
  else if b ≤ 0xEF then ([], some ⟨b.toNat - 0xE0, 2, 0x80, 0xBF⟩)
  else if b = 0xF0 then ([], some ⟨0, 3, 0x90, 0xBF⟩)
  else if b ≤ 0xF3 then ([], some ⟨b.toNat - 0xF0, 3, 0x80, 0xBF⟩)
  else if b = 0xF4 then ([], some ⟨4, 3, 0x80, 0x8F⟩)
  else ([none], none)

/-- One byte, after an open character or none. A byte that cannot continue the open character breaks
it off and is looked at afresh. -/
def feed : Option Pending → UInt8 → Progress
  | none, b => start b
  | some p, b =>
    if p.low ≤ b && b ≤ p.high then
      let bits := 64 * p.bits + (b.toNat - 0x80)
      if p.missing ≤ 1 then ([some (Char.ofNat bits)], none)
      else ([], some ⟨bits, p.missing - 1, 0x80, 0xBF⟩)
    else (none :: (start b).1, (start b).2)

/-- Reads on from an open character; one still open at the end is broken off. -/
def scanFrom : Option Pending → List UInt8 → List (Option Char)
  | none, [] => []
  | some _, [] => [none]
  | p, b :: bs => (feed p b).1 ++ scanFrom (feed p b).2 bs

/-- The places of a byte string: its characters, and none for each that is broken. -/
def scan (bytes : List UInt8) : List (Option Char) := scanFrom none bytes

/-- The text with U+FFFD for each broken character. -/
def lossy (bytes : List UInt8) : String :=
  String.ofList ((scan bytes).map fun c => c.getD '\ufffd')

/-- The text, if no character is broken. -/
def decode? (bytes : List UInt8) : Option String :=
  if (scan bytes).all Option.isSome then some (String.ofList ((scan bytes).filterMap id)) else none

/-- An ASCII byte ends whatever was open and stands for itself. -/
theorem feed_ascii (p : Pending) (b : UInt8) (hb : b ≤ 0x7F) (hp : 0x80 ≤ p.low) :
    feed (some p) b = ([none, some (Char.ofNat b.toNat)], none) := by
  have h : ¬ (p.low ≤ b) := by
    simp only [UInt8.le_iff_toNat_le] at *
    have h1 : (0x7F : UInt8).toNat = 127 := rfl
    have h2 : (0x80 : UInt8).toNat = 128 := rfl
    omega
  simp [feed, h, start, hb]

end Utf8

end Scoresheet.Text
