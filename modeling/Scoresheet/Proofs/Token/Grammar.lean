import Mathlib.Logic.ExistsUnique
import Scoresheet.Proofs.Token.Recognition
/-!
# The grammar of movements

A movement token is a piece letter or nothing, a square, a separator or nothing, and a square, with
blanks around it. The checks of the reader, which go by length and position, accept these tokens and no
others. The grammar is unambiguous, so each part has one meaning: a capital in front is the letter, and
a first file without a letter before it is small.
-/
namespace Scoresheet

private theorem PieceKind.letter_inj {k l : PieceKind} : k.letter = l.letter ↔ k = l := by
  constructor
  · intro h
    have hk : ofLetter? k.letter = some k := ofLetter?_letter k
    rw [h, ofLetter?_letter] at hk
    exact (Option.some.inj hk).symm
  · intro h
    rw [h]

namespace Spelling

open Square Fallible

/-- Whether a spelling is of the grammar. -/
structure Grammatical (w : Spelling) : Prop extends w.Shaped where
  small : w.letter = none → w.sourceFile.isUpper = false

/-- Whether a token is, between blanks, a spelling of the grammar. -/
def Spells (w : Spelling) (token : String) : Prop :=
  w.Grammatical ∧ Text.trim token.toList = w.chars

/-- Whether the parts of a spelling name those of a movement. -/
structure Names (w : Spelling) (m : Movement) : Prop where
  pawn : w.letter = none → m.kind = .pawn
  kind : ∀ c, w.letter = some c → c = m.kind.letter
  source : ofName? (String.ofList [w.sourceFile, w.sourceRank]) = some m.source
  capture : m.capture = true ↔ w.mark = some 'x'
  target : ofName? (String.ofList [w.targetFile, w.targetRank]) = some m.target

variable {w w' : Spelling} {m n : Movement} {token : String}

private theorem ofName?_pair (file rank : Char) :
    ofName? (String.ofList [file, rank]) = ofChars? file rank := by
  simp [ofName?]

private theorem kind?_eq_some_iff {kind : PieceKind} :
    w.kind? = some kind ↔ (w.letter = none → kind = .pawn) ∧
      ∀ c, w.letter = some c → c = kind.letter := by
  rw [kind?]
  cases w.letter with
  | none => simp [eq_comm]
  | some c => simp [PieceKind.ofLetter?_eq_some_iff]

/-- What reading goes by is the grammar and what its parts name. -/
theorem means_iff : w.Means m ↔ w.Grammatical ∧ w.Names m := by
  constructor
  · intro h
    obtain ⟨hshaped, hsmall⟩ := exists_means_iff.mp ⟨m, h⟩
    obtain ⟨hpawn, hkind⟩ := kind?_eq_some_iff.mp h.kind
    refine ⟨⟨hshaped, hsmall⟩, hpawn, hkind, ?_, h.capture, ?_⟩
    · rw [ofName?_pair, h.source]
    · rw [ofName?_pair, h.target]
  · rintro ⟨hw, hm⟩
    have hsource := hm.source
    have htarget := hm.target
    rw [ofName?_pair] at hsource htarget
    exact ⟨hw.small, kind?_eq_some_iff.mpr ⟨hm.pawn, hm.kind⟩, hsource, hw.marked, hm.capture, htarget⟩

private theorem eq_of_span_eq (hletter : w.letter = w'.letter) (h : w.span = w'.span) : w = w' := by
  obtain ⟨letter, file, rank, mark, file', rank'⟩ := w
  obtain ⟨other, _, _, mark', _, _⟩ := w'
  cases mark <;> cases mark' <;> simp_all [span]

/-- A text has at most one well-shaped spelling. -/
theorem Shaped.eq_of_chars_eq (hw : w.Shaped) (hw' : w'.Shaped) (h : w.chars = w'.chars) :
    w = w' := by
  cases hl : w.letter with
  | none =>
    have hl' := hw.letter_eq_none hw' h hl
    apply eq_of_span_eq (hl.trans hl'.symm)
    simpa [chars, hl, hl'] using h
  | some c =>
    cases hl' : w'.letter with
    | none =>
      have hnone := hw'.letter_eq_none hw h.symm hl'
      simp [hnone] at hl
    | some c' =>
      have hparts : c = c' ∧ w.span = w'.span := by simpa [chars, hl, hl'] using h
      exact eq_of_span_eq (by rw [hl, hl', hparts.1]) hparts.2

theorem Spells.eq (hw : w.Spells token) (hw' : w'.Spells token) : w = w' :=
  hw.1.toShaped.eq_of_chars_eq hw'.1.toShaped (hw.2.symm.trans hw'.2)

theorem Names.eq (hm : w.Names m) (hn : w.Names n) : m = n := by
  have hkind : m.kind = n.kind := by
    cases hl : w.letter with
    | none => rw [hm.pawn hl, hn.pawn hl]
    | some c => exact PieceKind.letter_inj.mp ((hm.kind c hl).symm.trans (hn.kind c hl))
  have hsource : m.source = n.source := Option.some.inj (hm.source.symm.trans hn.source)
  have htarget : m.target = n.target := Option.some.inj (hm.target.symm.trans hn.target)
  have hcapture : m.capture = n.capture := Bool.eq_iff_iff.mpr (hm.capture.trans hn.capture.symm)
  obtain ⟨kind, source, target, capture⟩ := m
  simp_all

private theorem Grammatical.existsUnique_names (h : w.Grammatical) : ∃! m, w.Names m := by
  obtain ⟨m, hm⟩ := exists_means_iff.mpr ⟨h.toShaped, h.small⟩
  exact ⟨m, (means_iff.mp hm).2, fun n hn => hn.eq (means_iff.mp hm).2⟩

theorem ofToken_eq_ok_iff_spells :
    Movement.ofToken token = .ok m ↔ ∃ w : Spelling, w.Spells token ∧ w.Names m := by
  rw [ofToken_eq_ok_iff]
  constructor
  · rintro ⟨w, hchars, hw⟩
    obtain ⟨hgrammar, hnames⟩ := means_iff.mp hw
    exact ⟨w, ⟨hgrammar, hchars.symm⟩, hnames⟩
  · rintro ⟨w, ⟨hgrammar, hchars⟩, hnames⟩
    exact ⟨w, hchars.symm, means_iff.mpr ⟨hgrammar, hnames⟩⟩

private theorem parts_of_ofToken (h : Movement.ofToken token = .ok m) :
    Movement.kindOf token = .ok m.kind ∧ Movement.sourceOf token = .ok m.source ∧
      Movement.targetOf token = .ok m.target ∧ Movement.marksCapture token = m.capture := by
  simp only [Movement.ofToken, bind_eq_ok, pure_eq_ok] at h
  obtain ⟨kind, hkind, source, hsource, target, htarget, rfl⟩ := h
  exact ⟨hkind, hsource, htarget, rfl⟩

/-- A token is read as a movement exactly if it is spelled by the grammar and the movement is the one
that the parts of the spelling name. There is at most one such spelling, and it always names a movement.
Read one by one, the parts of an accepted token are those of its movement. -/
theorem movement_grammar (token : String) :
    (∀ m, Movement.ofToken token = .ok m ↔ ∃ w : Spelling, w.Spells token ∧ w.Names m) ∧
    (∀ w w' : Spelling, w.Spells token → w'.Spells token → w = w') ∧
    (∀ w : Spelling, w.Spells token → ∃! m, w.Names m) ∧
    ∀ m, Movement.ofToken token = .ok m →
      Movement.kindOf token = .ok m.kind ∧ Movement.sourceOf token = .ok m.source ∧
      Movement.targetOf token = .ok m.target ∧ Movement.marksCapture token = m.capture := by
  refine ⟨?_, ?_, ?_, ?_⟩
  · intro m
    exact ofToken_eq_ok_iff_spells
  · intro w w' hw hw'
    exact hw.eq hw'
  · intro w hw
    exact hw.1.existsUnique_names
  · intro m hm
    exact parts_of_ofToken hm

/-- A bishop's letter before a capital file, and blanks outside ASCII. -/
theorem bishop_takes_on_c3 :
    let token := "\u3000BB1xC3\u2029"
    let w : Spelling := ⟨some 'B', 'B', '1', some 'x', 'C', '3'⟩
    let m : Movement := ⟨.bishop, ⟨0, 1⟩, ⟨2, 2⟩, true⟩
    w.Spells token ∧ w.Names m ∧ Movement.ofToken token = .ok m ∧
      Movement.kindOf token = .ok .bishop ∧ Movement.marksCapture token = true := by
  intro token w m
  have hw : w.Spells token := by
    refine ⟨⟨⟨?_, by decide, by decide, ?_, by decide, by decide⟩, by simp [w]⟩, by decide +kernel⟩
    · simp [w, Directive.isPieceLetter]
    · simp [w, Marked, Movement.captureMark]
  have hkindOf : ∀ c, w.letter = some c → c = m.kind.letter := by
    intro c hc
    exact (Option.some.inj hc).symm
  have hm : w.Names m :=
    ⟨by simp [w], hkindOf, by decide +kernel, by simp [w, m], by decide +kernel⟩
  obtain ⟨hread, _, _, hparts⟩ := movement_grammar token
  have hok : Movement.ofToken token = .ok m := (hread m).mpr ⟨w, hw, hm⟩
  obtain ⟨hkind, _, _, hmark⟩ := hparts m hok
  exact ⟨hw, hm, hok, hkind, hmark⟩

end Spelling

end Scoresheet
