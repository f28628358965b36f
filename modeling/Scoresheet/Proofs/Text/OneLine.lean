import Scoresheet.Proofs.Text.Ascii
import Scoresheet.Proofs.Text.Blankness
/-!
# Text that stays on its line

No byte string that is cut at its line feeds can bring one back by the way its lines are read: only
the byte of a line feed is read as one.
-/
namespace Scoresheet

def OnOneLine (text : String) : Prop := '\n' ∉ text.toList

instance (text : String) : Decidable (OnOneLine text) :=
  inferInstanceAs (Decidable ('\n' ∉ text.toList))

@[simp] theorem onOneLine_append {s t : String} :
    OnOneLine (s ++ t) ↔ OnOneLine s ∧ OnOneLine t := by
  simp [OnOneLine, not_or]

theorem onOneLine_repr (n : Nat) : OnOneLine n.repr := by
  rw [OnOneLine, Nat.toList_repr]
  intro h
  have hdigit := Nat.isDigit_of_mem_toDigits (by decide) (by decide) h
  exact absurd hdigit (by decide)

namespace Text

variable {cs : List Char} {c : Char} {text : String}

theorem onOneLine_of_blankFree (h : BlankFree text.toList) : OnOneLine text := by
  intro hc
  exact absurd (h '\n' hc) (by decide)

private theorem mem_of_mem_dropEndWhile {p : Char → Bool} (h : c ∈ dropEndWhile p cs) : c ∈ cs := by
  have hsub := List.dropWhile_subset p (List.mem_reverse.mp h)
  exact List.mem_reverse.mp hsub

theorem mem_of_mem_trim (h : c ∈ trim cs) : c ∈ cs :=
  List.dropWhile_subset isBlank (mem_of_mem_dropEndWhile h)

theorem Utf8.isByteOf_lineFeed : Utf8.IsByteOf lineFeed '\n' := by decide

private theorem Utf8.onOneLine_lossy {bytes : List UInt8} (h : lineFeed ∉ bytes) :
    OnOneLine (lossy bytes) :=
  isByteOf_lineFeed.not_mem_lossyChars h

theorem lineFeed_not_mem_of_mem_lines {bytes : List UInt8} {line : Line} (h : line ∈ lines bytes) :
    lineFeed ∉ line := by
  have hpiece : line ∈ pieces (· == lineFeed) bytes := by
    unfold lines dropEmptyEnd at h
    split at h
    · exact List.dropLast_subset _ h
    · exact h
  intro hfeed
  exact absurd (pieces_separator_free hpiece lineFeed hfeed) (by decide)

theorem onOneLine_of_mem_textLines {bytes : List UInt8} {line : String}
    (h : line ∈ textLines bytes) : OnOneLine line := by
  obtain ⟨raw, hraw, rfl⟩ := List.mem_map.mp h
  have hread := Utf8.onOneLine_lossy (lineFeed_not_mem_of_mem_lines hraw)
  rw [OnOneLine, Line.text, String.toList_ofList]
  intro hc
  exact hread (mem_of_mem_dropEndWhile hc)

end Text

end Scoresheet
