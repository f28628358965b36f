import Scoresheet.Proofs.Fallible
import Scoresheet.Proofs.Text.Blankness
import Scoresheet.Proofs.Token.Letters
import Scoresheet.Token.Movement
/-!
# How movements are spelled

The grammar of movement tokens. A spelling names the characters of a token by the parts they play,
and a token is read as a movement exactly if it has a spelling that means it. A movement that is
written to the log has one, so it is read back as what it was.
-/
namespace Scoresheet

/-- The characters of a movement token by their parts. -/
structure Spelling where
  letter : Option Char
  sourceFile : Char
  sourceRank : Char
  mark : Option Char
  targetFile : Char
  targetRank : Char
deriving DecidableEq, Repr

namespace Spelling

open Square Fallible

def span (w : Spelling) : List Char :=
  w.sourceFile :: w.sourceRank :: (w.mark.toList ++ [w.targetFile, w.targetRank])

def chars (w : Spelling) : List Char := w.letter.toList ++ w.span

/-- The kind that the letter names; no letter means a pawn. -/
def kind? (w : Spelling) : Option PieceKind :=
  match w.letter with
  | none => some .pawn
  | some letter => PieceKind.ofLetter? letter

/-- Whether a character between the squares, if there is one, is a separator. -/
def Marked (w : Spelling) : Prop :=
  ∀ c, w.mark = some c → c = Movement.quietMark ∨ c = Movement.captureMark

/-- Whether the parts are told apart as reading does it: a capital at the front is the letter. -/
structure Framed (w : Spelling) : Prop where
  letter : ∀ c, w.letter = some c → c.isUpper = true
  small : w.letter = none → w.sourceFile.isUpper = false
  marked : w.Marked

/-- Whether a spelling is that of a movement. -/
structure Means (w : Spelling) (m : Movement) : Prop where
  small : w.letter = none → w.sourceFile.isUpper = false
  kind : w.kind? = some m.kind
  source : ofChars? w.sourceFile w.sourceRank = some m.source
  marked : w.Marked
  capture : m.capture = true ↔ w.mark = some Movement.captureMark
  target : ofChars? w.targetFile w.targetRank = some m.target

variable {w : Spelling} {m : Movement} {token : String}

private theorem Means.framed (h : w.Means m) : w.Framed where
  letter := by
    intro c hc
    have hk := h.kind
    rw [kind?, hc] at hk
    rw [PieceKind.ofLetter?_eq_some_iff.mp hk]
    exact PieceKind.isUpper_letter m.kind
  small := h.small
  marked := h.marked

private theorem spansTwoSquares_iff {cs : List Char} :
    Movement.spansTwoSquares cs = true ↔
      ∃ w : Spelling, w.letter = none ∧ w.span = cs ∧ w.Marked := by
  constructor
  · intro h
    unfold Movement.spansTwoSquares at h
    split at h
    · next f r f' r' => exact ⟨⟨none, f, r, none, f', r'⟩, rfl, rfl, by simp [Marked]⟩
    · next f r mark f' r' =>
      refine ⟨⟨none, f, r, some mark, f', r'⟩, rfl, rfl, ?_⟩
      rintro c hc
      obtain rfl := Option.some.inj hc
      simpa using h
    · cases h
  · rintro ⟨⟨_, f, r, mark, f', r'⟩, _, rfl, hm⟩
    cases mark with
    | none => rfl
    | some c => simpa [span, Movement.spansTwoSquares] using hm c rfl

private theorem Framed.squareStart_chars (h : w.Framed) :
    Movement.squareStart w.chars = w.letter.toList.length := by
  rcases hl : w.letter with _ | c
  · simp [chars, hl, span, Movement.squareStart, h.small hl]
  · simp [chars, hl, Movement.squareStart, h.letter c hl]

private theorem spansTwoSquares_drop_iff {cs : List Char} :
    Movement.spansTwoSquares (cs.drop (Movement.squareStart cs)) = true ↔
      ∃ w : Spelling, w.chars = cs ∧ w.Framed := by
  constructor
  · intro h
    obtain ⟨⟨_, f, r, mark, f', r'⟩, rfl, hs, hm⟩ := spansTwoSquares_iff.mp h
    cases cs with
    | nil => simp [span] at hs
    | cons c cs =>
      by_cases hu : c.isUpper = true
      · refine ⟨⟨some c, f, r, mark, f', r'⟩, ?_, ?_, by simp, hm⟩
        · simpa [chars, span, Movement.squareStart, hu] using hs
        · rintro d hd
          rwa [← Option.some.inj hd]
      · have hs' : f :: r :: (mark.toList ++ [f', r']) = c :: cs := by
          simpa [span, Movement.squareStart, hu] using hs
        refine ⟨⟨none, f, r, mark, f', r'⟩, hs', by simp, ?_, hm⟩
        intro _
        rw [(List.cons.inj hs').1]
        exact Bool.eq_false_iff.mpr hu
  · rintro ⟨w, rfl, hw⟩
    rw [hw.squareStart_chars, chars, List.drop_left, spansTwoSquares_iff]
    exact ⟨{ w with letter := none }, rfl, rfl, hw.marked⟩

theorem someChars_eq_ok_iff {cs : List Char} :
    Token.someChars token = .ok cs ↔ Token.chars token = cs ∧ cs ≠ [] := by
  unfold Token.someChars
  cases hc : Token.chars token with
  | nil =>
    constructor
    · simp
    · rintro ⟨rfl, hne⟩
      exact (hne rfl).elim
  | cons c rest =>
    constructor
    · intro h
      rw [← Except.ok.inj h]
      simp
    · rintro ⟨rfl, _⟩
      rfl

private theorem shapedChars_eq_ok_iff {cs : List Char} :
    Movement.shapedChars token = .ok cs ↔
      Token.chars token = cs ∧ ∃ w : Spelling, w.chars = cs ∧ w.Framed := by
  rw [← spansTwoSquares_drop_iff, Movement.shapedChars]
  simp only [bind_eq_ok, someChars_eq_ok_iff]
  constructor
  · rintro ⟨found, ⟨hf, _⟩, h⟩
    split at h
    · next hs =>
      obtain rfl := pure_eq_ok.mp h
      exact ⟨hf, hs⟩
    · cases h
  · rintro ⟨hf, hs⟩
    refine ⟨cs, ⟨hf, ?_⟩, ?_⟩
    · rintro rfl
      cases hs
    · rw [if_pos hs]
      rfl

theorem squareAt_eq_ok_iff (token : String) (before behind : List Char) {file rank : Char}
    {s : Square} :
    Token.squareAt token (before ++ file :: rank :: behind) before.length = .ok s ↔
      ofChars? file rank = some s := by
  have hf : (before ++ file :: rank :: behind)[before.length]? = some file := by simp
  have hr : (before ++ file :: rank :: behind)[before.length + 1]? = some rank := by
    rw [List.getElem?_append_right (by omega)]
    simp
  rw [Token.squareAt, hf, hr, ofChars?]
  cases hf : fileOf? file <;> cases hr : rankOf? rank <;> simp [hf, hr]

section Framed

variable (hw : w.Framed) (hc : w.chars = Token.chars token)
include hw hc

private theorem Framed.shapedChars_eq : Movement.shapedChars token = .ok w.chars :=
  shapedChars_eq_ok_iff.mpr ⟨hc.symm, w, rfl, hw⟩

private theorem Framed.kindOf_eq_ok_iff {kind : PieceKind} :
    Movement.kindOf token = .ok kind ↔ w.kind? = some kind := by
  have hs : Token.someChars token = .ok w.chars := by
    apply someChars_eq_ok_iff.mpr
    refine ⟨hc.symm, ?_⟩
    simp [chars, span]
  rw [Movement.kindOf, hs, kind?]
  rcases hl : w.letter with _ | c
  · have hh : w.chars.head? = some w.sourceFile := by simp [chars, hl, span]
    simp [hh, hw.small hl]
  · have hh : w.chars.head? = some c := by simp [chars, hl]
    simp only [bind_eq_ok, Except.ok.injEq, exists_eq_left', hh, hw.letter c hl, if_true]
    cases PieceKind.ofLetter? c <;> simp

private theorem Framed.sourceOf_eq_ok_iff {s : Square} :
    Movement.sourceOf token = .ok s ↔ ofChars? w.sourceFile w.sourceRank = some s := by
  rw [← squareAt_eq_ok_iff token w.letter.toList (w.mark.toList ++ [w.targetFile, w.targetRank]),
    Movement.sourceOf, hw.shapedChars_eq hc]
  change Token.squareAt token w.chars (Movement.squareStart w.chars) = .ok s ↔ _
  rw [hw.squareStart_chars]
  rfl

private theorem Framed.targetOf_eq_ok_iff {s : Square} :
    Movement.targetOf token = .ok s ↔ ofChars? w.targetFile w.targetRank = some s := by
  let before := w.letter.toList ++ w.sourceFile :: w.sourceRank :: w.mark.toList
  have hchars : w.chars = before ++ [w.targetFile, w.targetRank] := by
    simp [chars, span, before]
  have hlen : w.chars.length - 2 = before.length := by simp [hchars]
  rw [← squareAt_eq_ok_iff token before [], Movement.targetOf, hw.shapedChars_eq hc]
  change Token.squareAt token w.chars (w.chars.length - 2) = .ok s ↔ _
  rw [hlen, hchars]

end Framed

private theorem ne_captureMark_of_ofChars? {file rank : Char} {s : Square}
    (h : ofChars? file rank = some s) :
    file ≠ Movement.captureMark ∧ rank ≠ Movement.captureMark := by
  obtain ⟨hf, hr⟩ := ofChars?_eq_some_iff.mp h
  constructor
  · rintro rfl
    simp [show fileOf? Movement.captureMark = none by decide] at hf
  · rintro rfl
    simp [show rankOf? Movement.captureMark = none by decide] at hr

/-- The capture mark can only stand between the squares. -/
theorem marksCapture_iff {kind : PieceKind} {source target : Square} (hk : w.kind? = some kind)
    (hs : ofChars? w.sourceFile w.sourceRank = some source)
    (ht : ofChars? w.targetFile w.targetRank = some target) (hc : w.chars = Token.chars token) :
    Movement.marksCapture token = true ↔ w.mark = some Movement.captureMark := by
  have hletter : Movement.captureMark ∉ w.letter.toList := by
    intro h
    rw [kind?, Option.mem_toList.mp h] at hk
    simp [show PieceKind.ofLetter? Movement.captureMark = none by decide] at hk
  obtain ⟨hsf, hsr⟩ := ne_captureMark_of_ofChars? hs
  obtain ⟨htf, htr⟩ := ne_captureMark_of_ofChars? ht
  rw [Movement.marksCapture, List.contains_iff_mem,
    ← Text.mem_trim_iff (by decide : Text.isBlank Movement.captureMark = false)]
  change Movement.captureMark ∈ Token.chars token ↔ _
  rw [← hc]
  simp [chars, span, hletter, hsf.symm, hsr.symm, htf.symm, htr.symm]

/-- A token is read as a movement exactly if it has, between blanks, a spelling of the movement. -/
theorem ofToken_eq_ok_iff :
    Movement.ofToken token = .ok m ↔ ∃ w : Spelling, w.chars = Token.chars token ∧ w.Means m := by
  unfold Movement.ofToken
  simp only [bind_eq_ok, pure_eq_ok]
  constructor
  · rintro ⟨kind, hk, source, hs, target, ht, rfl⟩
    obtain ⟨cs, hcs, _⟩ := bind_eq_ok.mp hs
    obtain ⟨hc, w, hw, hf⟩ := shapedChars_eq_ok_iff.mp hcs
    have hc' : w.chars = Token.chars token := hw.trans hc.symm
    have hk' := (hf.kindOf_eq_ok_iff hc').mp hk
    have hs' := (hf.sourceOf_eq_ok_iff hc').mp hs
    have ht' := (hf.targetOf_eq_ok_iff hc').mp ht
    exact ⟨w, hc', hf.small, hk', hs', hf.marked, marksCapture_iff hk' hs' ht' hc', ht'⟩
  · rintro ⟨w, hc, hm⟩
    have hf := hm.framed
    -- the mark is looked for in the whole token, and found nowhere else
    have hx : Movement.marksCapture token = m.capture := by
      rw [Bool.eq_iff_iff, hm.capture]
      exact marksCapture_iff hm.kind hm.source hm.target hc
    refine ⟨m.kind, (hf.kindOf_eq_ok_iff hc).mpr hm.kind,
      m.source, (hf.sourceOf_eq_ok_iff hc).mpr hm.source,
      m.target, (hf.targetOf_eq_ok_iff hc).mpr hm.target, ?_⟩
    rw [hx]

/-- The spelling in which a movement is written to the log. -/
def written (m : Movement) : Spelling where
  letter := (Movement.letterChars m.kind).head?
  sourceFile := fileLetter m.source.file
  sourceRank := rankDigit m.source.rank
  mark := some (if m.capture then Movement.captureMark else Movement.quietMark)
  targetFile := fileLetter m.target.file
  targetRank := rankDigit m.target.rank

theorem chars_written (m : Movement) : (written m).chars = m.chars := by
  obtain ⟨kind, source, target, capture⟩ := m
  cases kind <;> rfl

theorem means_written (m : Movement) : (written m).Means m where
  small := by
    intro _
    exact isUpper_fileLetter m.source.file
  kind := by
    obtain ⟨kind, source, target, capture⟩ := m
    cases kind <;> rfl
  source := ofChars?_eq_some_iff.mpr ⟨fileOf?_fileLetter _, rankOf?_rankDigit _⟩
  marked := by
    intro c hc
    rw [← Option.some.inj hc]
    cases m.capture <;> simp
  capture := by
    cases h : m.capture <;> simp [written, h, Movement.captureMark, Movement.quietMark]
  target := ofChars?_eq_some_iff.mpr ⟨fileOf?_fileLetter _, rankOf?_rankDigit _⟩

end Spelling

end Scoresheet
