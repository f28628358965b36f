import Scoresheet.Proofs.Token.Framing
import Scoresheet.Proofs.Token.Recognition
/-!
# Written tokens

The token that is written for a movement or a castle is read back as what it was written for, and a
line with nothing else on it asks for just that.
-/
namespace Scoresheet

namespace Movement

def alphabet : List Char := "PNBRQKabcdefgh12345678-x".toList

private theorem mem_alphabet_of_mem_chars (m : Movement) : ∀ c ∈ m.chars, c ∈ alphabet := by
  have hletter (kind : PieceKind) :
      ((letterChars kind).all fun c => alphabet.contains c) = true := by
    cases kind <;> decide
  have hfile : ∀ file, Square.fileLetter file ∈ alphabet := by decide
  have hrank : ∀ rank, Square.rankDigit rank ∈ alphabet := by decide
  have hmark : ∀ capture : Bool,
      (if capture then captureMark else quietMark) ∈ alphabet := by decide
  intro c hc
  simp only [chars, Square.chars, List.mem_append, List.mem_cons, List.not_mem_nil, or_false] at hc
  rcases hc with ((hc | rfl | rfl) | rfl) | rfl | rfl
  · exact List.contains_iff_mem.mp (List.all_eq_true.mp (hletter m.kind) c hc)
  · exact hfile _
  · exact hrank _
  · exact hmark _
  · exact hfile _
  · exact hrank _

theorem not_mem_chars {c : Char} (h : c ∉ alphabet) (m : Movement) : c ∉ m.chars :=
  fun hc => h (m.mem_alphabet_of_mem_chars c hc)

private theorem blankFree_chars (m : Movement) : Text.BlankFree m.chars := by
  have hall : Text.BlankFree alphabet := by decide
  intro c hc
  exact hall c (m.mem_alphabet_of_mem_chars c hc)

@[simp] theorem toList_token (m : Movement) : m.token.toList = m.chars := String.toList_ofList

/-- A written movement is read back. -/
@[simp] theorem ofToken_token (m : Movement) : ofToken m.token = .ok m := by
  have hc : Token.chars m.token = m.chars := by
    rw [Token.chars, toList_token, Text.trim_of_blankFree m.blankFree_chars]
  exact Spelling.ofToken_eq_ok_iff.mpr
    ⟨Spelling.written m, (Spelling.chars_written m).trans hc.symm, Spelling.means_written m⟩

end Movement

namespace Directive

private theorem ofLine_of_single {token : String} (hb : Text.BlankFree token.toList)
    (hs : '/' ∉ token.toList) (hne : token.toList ≠ []) :
    ofLine token = ofTokens token [token] := by
  simp [ofLine, beforeComment_of_not_mem hs, Text.trim_of_blankFree hb,
    Text.words_of_blankFree hb hne, hne]

private theorem isMovement_token (m : Movement) : isMovement m.token = true := by
  have hb : Text.BlankFree m.token.toList := by simpa using m.blankFree_chars
  exact ((readable_iff hb).mp ⟨m, Movement.ofToken_token m⟩).1

theorem isCastle_token (m : Movement) : isCastle m.token = false := by
  have hO : 'O' ∉ m.chars := Movement.not_mem_chars (by decide) m
  rw [isCastle, hasCastleShape, Movement.toList_token, Bool.or_eq_false_iff]
  constructor <;>
    · apply beq_false_of_ne
      intro h
      simp [h] at hO

private theorem isPlacement_token (m : Movement) : isPlacement m.token = false := by
  rw [isPlacement, Movement.toList_token]
  obtain ⟨kind, source, target, capture⟩ := m
  cases kind <;> rfl

theorem ofLine_movement (m : Movement) : ofLine m.token = .movements [m.token] := by
  have hb : Text.BlankFree m.token.toList := by simpa using m.blankFree_chars
  have hs : '/' ∉ m.token.toList := by simpa using Movement.not_mem_chars (by decide) m
  have hne : m.token.toList ≠ [] := by simp [Movement.chars]
  rw [ofLine_of_single hb hs hne]
  simp [ofTokens, ofActions, mostActions, isAction, isPlacement_token, isMovement_token,
    isCastle_token]

theorem ofLine_castle (side : CastleSide) : ofLine side.token = .castles [side.token] := by
  cases side <;> rfl

end Directive

end Scoresheet
