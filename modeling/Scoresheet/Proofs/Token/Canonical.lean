import Scoresheet.Proofs.Token.Grammar
import Scoresheet.Proofs.Token.Writing
/-!
# One form for each movement

A movement can be spelled in many ways: files in either case, a letter for the pawn, a separator or
none. The one in which it is written is read back, alone on a line or among blanks, and stands for all
of them: whatever is read is written in the small form of its spelling.
-/
namespace Scoresheet

namespace Spelling

open Square

/-- A spelling without what makes no difference: the letter of a pawn is left out, files are small, and
a separator that is missing is put in. -/
def canonical (w : Spelling) : Spelling where
  letter := w.letter.filter fun c => c != PieceKind.pawn.letter
  sourceFile := w.sourceFile.toLower
  sourceRank := w.sourceRank
  mark := some (w.mark.getD Movement.quietMark)
  targetFile := w.targetFile.toLower
  targetRank := w.targetRank

variable {w : Spelling} {m : Movement} {token : String}

private theorem fileLetter_of_ofChars? {file rank : Char} {s : Square}
    (h : ofChars? file rank = some s) :
    fileLetter s.file = file.toLower ∧ rankDigit s.rank = rank := by
  obtain ⟨hfile, hrank⟩ := ofChars?_eq_some_iff.mp h
  exact ⟨(fileOf?_eq_some_iff.mp hfile).symm, (rankOf?_eq_some_iff.mp hrank).symm⟩

private theorem Means.letter_written (h : w.Means m) : (written m).letter = w.canonical.letter := by
  have hkind := h.kind
  rw [kind?] at hkind
  cases hl : w.letter with
  | none =>
    have hpawn : m.kind = .pawn := by simpa [hl, eq_comm] using hkind
    simp [written, canonical, hl, hpawn, Movement.letterChars]
  | some c =>
    have hc : c = m.kind.letter := by simpa [hl, PieceKind.ofLetter?_eq_some_iff] using hkind
    rw [written, canonical, hl, hc]
    cases m.kind <;> rfl

private theorem Means.mark_written (h : w.Means m) : (written m).mark = w.canonical.mark := by
  have hcapture := h.capture
  cases hmark : w.mark with
  | none =>
    have hquiet : m.capture = false := by simpa [hmark] using hcapture
    simp [written, canonical, hmark, hquiet]
  | some c =>
    rcases h.marked c hmark with rfl | rfl
    · have hquiet : m.capture = false := by
        simpa [hmark, Movement.quietMark, Movement.captureMark] using hcapture
      simp [written, canonical, hmark, hquiet]
    · have htakes : m.capture = true := hcapture.mpr hmark
      simp [written, canonical, hmark, htakes]

/-- Whatever a spelling was, the movement that it means is written in its canonical form. -/
theorem Means.written_eq (h : w.Means m) : written m = w.canonical := by
  obtain ⟨hsourceFile, hsourceRank⟩ := fileLetter_of_ofChars? h.source
  obtain ⟨htargetFile, htargetRank⟩ := fileLetter_of_ofChars? h.target
  have hletter := h.letter_written
  have hmark := h.mark_written
  simp_all [written, canonical]

private theorem Means.token_eq (h : w.Means m) : m.token = String.ofList w.canonical.chars := by
  rw [Movement.token, ← chars_written, h.written_eq]

end Spelling

namespace Movement

open Text (AllBlank)

variable {m n : Movement} {before behind token other : String}

private theorem token_inj : m.token = n.token ↔ m = n := by
  constructor
  · intro h
    have hread : ofToken m.token = .ok n := h ▸ ofToken_token n
    exact Except.ok.inj ((ofToken_token m).symm.trans hread)
  · intro h
    rw [h]

private theorem ofToken_padded (hbefore : AllBlank before.toList) (hbehind : AllBlank behind.toList)
    (h : ofToken token = .ok m) : ofToken (before ++ token ++ behind) = .ok m := by
  have hchars : Token.chars (before ++ token ++ behind) = Token.chars token := by
    rw [Token.chars, Token.chars, String.toList_append, String.toList_append,
      Text.trim_append_of_blank hbehind, Text.trim_blank_append hbefore]
  rw [Spelling.ofToken_eq_ok_iff] at h ⊢
  rwa [hchars]

private theorem ofLine_padded_token (hbefore : AllBlank before.toList)
    (hbehind : AllBlank behind.toList)
    (m : Movement) : Directive.ofLine (before ++ m.token ++ behind) = .movements [m.token] := by
  have hslash : '/' ∉ m.token.toList := by
    rw [toList_token]
    exact not_mem_chars (by decide) m
  rw [Directive.ofLine_padded hbefore hbehind hslash, Directive.ofLine_movement]

/-- Writing a movement and reading it are inverse. Among any blanks a written movement is read back, and
a line with nothing else asks for just that movement. A token that can be read is written in the
canonical form of its spelling, which is read as the same movement, and two of them are written alike
exactly if they are read alike. -/
theorem writing_inverse_to_reading :
    (∀ (m : Movement) (before behind : String), AllBlank before.toList → AllBlank behind.toList →
      ofToken (before ++ m.token ++ behind) = .ok m ∧
      Directive.ofLine (before ++ m.token ++ behind) = .movements [m.token]) ∧
    ∀ token m, ofToken token = .ok m →
      ofToken m.token = .ok m ∧
      (∀ w : Spelling, w.Spells token → m.token = String.ofList w.canonical.chars) ∧
      ∀ other n, ofToken other = .ok n → (m.token = n.token ↔ ofToken token = ofToken other) := by
  refine ⟨?_, ?_⟩
  · intro m before behind hbefore hbehind
    exact ⟨ofToken_padded hbefore hbehind m.ofToken_token, m.ofLine_padded_token hbefore hbehind⟩
  · intro token m htoken
    refine ⟨m.ofToken_token, ?_, ?_⟩
    · intro w hw
      obtain ⟨w', hw', hnames⟩ := Spelling.ofToken_eq_ok_iff_spells.mp htoken
      rw [hw.eq hw']
      exact (Spelling.means_iff.mpr ⟨hw'.1, hnames⟩).token_eq
    · intro other n hother
      rw [htoken, hother, token_inj, Except.ok.injEq]

/-- With the pawn's letter the files may be capitals. -/
theorem pawn_step_in_two_spellings :
    let m : Movement := ⟨.pawn, ⟨1, 4⟩, ⟨3, 4⟩, false⟩
    m.token = "e2-e4" ∧ ofToken ("\u00A0\n" ++ m.token ++ "\u3000") = .ok m ∧
      Directive.ofLine ("\u00A0\n" ++ m.token ++ "\u3000") = .movements ["e2-e4"] ∧
      ofToken "PE2E4" = ofToken "e2e4" := by
  intro m
  obtain ⟨hpadded, hread⟩ := writing_inverse_to_reading
  obtain ⟨htoken, hline⟩ := hpadded m "\u00A0\n" "\u3000" (by decide) (by decide)
  have hcapitals : ofToken "PE2E4" = .ok m := by rfl
  have hsmall : ofToken "e2e4" = .ok m := by rfl
  obtain ⟨_, _, halike⟩ := hread _ m hcapitals
  exact ⟨by decide +kernel, htoken, hline, (halike _ m hsmall).mp rfl⟩

end Movement

end Scoresheet
