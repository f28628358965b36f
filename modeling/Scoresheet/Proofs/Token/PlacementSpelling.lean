import Scoresheet.Proofs.Token.Spelling
import Scoresheet.Token.Placement
/-!
# The grammar of placements

A placement token is a piece letter, a color marker and a square, with blanks around it. Letter,
marker and file may be small or capital, and every way to write one of them has the shape by which
lines are sorted. So what has the shape of a placement is one, and nothing else is.
-/
namespace Scoresheet

open Square

/-- Whether a marker is that of a side: `l` for light and `d` for dark, in either case. -/
def Color.MarkedBy (marker : Char) : Color → Prop
  | .white => marker = 'l' ∨ marker = 'L'
  | .black => marker = 'd' ∨ marker = 'D'

/-- Whether four characters spell a placement. -/
structure Placement.SpelledBy (letter marker file rank : Char) (p : Placement) : Prop where
  letter : letter = p.kind.letter ∨ letter = p.kind.letter.toLower
  marker : p.color.MarkedBy marker
  square : ofName? (String.ofList [file, rank]) = some p.square

namespace Placement

open Directive Fallible Spelling

variable {token : String} {letter marker file rank : Char} {p : Placement}

private theorem ofLetter?_toUpper_eq_some_iff {kind : PieceKind} :
    PieceKind.ofLetter? letter.toUpper = some kind ↔
      letter = kind.letter ∨ letter = kind.letter.toLower := by
  rw [PieceKind.ofLetter?_eq_some_iff, toUpper_eq_iff (PieceKind.isUpper_letter kind)]

private theorem colorOf?_eq_some_iff {c : Color} :
    colorOf? marker = some c ↔ c.MarkedBy marker := by
  have hlight : marker.toLower = 'l' ↔ marker = 'L' ∨ marker = 'l' :=
    toLower_eq_iff (d := 'L') (by decide)
  have hdark : marker.toLower = 'd' ↔ marker = 'D' ∨ marker = 'd' :=
    toLower_eq_iff (d := 'D') (by decide)
  rw [colorOf?]
  cases c with
  | white =>
    rw [Color.MarkedBy, or_comm, ← hlight]
    by_cases h : marker.toLower = 'l' <;> simp [h]
  | black =>
    rw [Color.MarkedBy, or_comm, ← hdark]
    by_cases h : marker.toLower = 'l' <;> simp [h]

theorem isAnyPieceLetter_iff :
    isAnyPieceLetter letter = true ↔ ∃ kind, PieceKind.ofLetter? letter.toUpper = some kind := by
  apply contains_iff_names (by decide)
  intro c kind h
  rcases ofLetter?_toUpper_eq_some_iff.mp h with rfl | rfl <;> cases kind <;> decide

theorem isColorMarker_iff : isColorMarker marker = true ↔ ∃ c, colorOf? marker = some c := by
  apply contains_iff_names (by decide)
  intro m c h
  cases c <;> rcases colorOf?_eq_some_iff.mp h with rfl | rfl <;> decide

private theorem ofName?_eq_some_iff {s : Square} :
    ofName? (String.ofList [file, rank]) = some s ↔
      fileOf? file = some s.file ∧ rankOf? rank = some s.rank := by
  rw [← ofChars?_eq_some_iff]
  simp [ofName?]

/-- What spells some placement has its shape. -/
theorem exists_spelledBy_iff : (∃ p, SpelledBy letter marker file rank p) ↔
    hasPlacementShape [letter, marker, file, rank] = true := by
  simp only [hasPlacementShape, Bool.and_eq_true, isAnyPieceLetter_iff, isColorMarker_iff,
    isFile_iff, isRank_iff, ofLetter?_toUpper_eq_some_iff, colorOf?_eq_some_iff]
  constructor
  · rintro ⟨p, hletter, hmarker, hsquare⟩
    obtain ⟨hfile, hrank⟩ := ofName?_eq_some_iff.mp hsquare
    exact ⟨⟨⟨⟨_, hletter⟩, _, hmarker⟩, _, hfile⟩, _, hrank⟩
  · rintro ⟨⟨⟨⟨kind, hletter⟩, c, hmarker⟩, f, hfile⟩, r, hrank⟩
    exact ⟨⟨⟨c, kind⟩, ⟨r, f⟩⟩, hletter, hmarker, ofName?_eq_some_iff.mpr ⟨hfile, hrank⟩⟩

private theorem hasPlacementShape_iff {cs : List Char} :
    hasPlacementShape cs = true ↔ ∃ letter marker file rank p,
      cs = [letter, marker, file, rank] ∧ SpelledBy letter marker file rank p := by
  constructor
  · intro h
    have hfour : ∃ letter marker file rank, cs = [letter, marker, file, rank] := by
      unfold hasPlacementShape at h
      split at h
      · exact ⟨_, _, _, _, rfl⟩
      · cases h
    obtain ⟨letter, marker, file, rank, rfl⟩ := hfour
    obtain ⟨p, hp⟩ := exists_spelledBy_iff.mpr h
    exact ⟨letter, marker, file, rank, p, rfl, hp⟩
  · rintro ⟨letter, marker, file, rank, p, rfl, hp⟩
    exact exists_spelledBy_iff.mp ⟨p, hp⟩

/-- A token is read as the placement that its four characters spell. -/
theorem ofToken_eq_ok_iff : ofToken token = .ok p ↔ ∃ letter marker file rank,
    Token.chars token = [letter, marker, file, rank] ∧ SpelledBy letter marker file rank p := by
  have hsquare (letter marker file rank : Char) (s : Square) :
      Token.squareAt token [letter, marker, file, rank] 2 = .ok s ↔
        ofName? (String.ofList [file, rank]) = some s := by
    rw [ofName?_eq_some_iff, ← ofChars?_eq_some_iff]
    exact squareAt_eq_ok_iff token [letter, marker] []
  simp only [ofToken, bind_eq_ok, someChars_eq_ok_iff]
  constructor
  · rintro ⟨cs, ⟨hcs, -⟩, h⟩
    split at h
    · next letter marker file rank =>
      split at h
      · cases h
      · next kind hkind =>
        split at h
        · cases h
        · next c hc =>
          obtain ⟨s, hs, hp⟩ := bind_eq_ok.mp h
          obtain rfl := pure_eq_ok.mp hp
          exact ⟨letter, marker, file, rank, hcs, ofLetter?_toUpper_eq_some_iff.mp hkind,
            colorOf?_eq_some_iff.mp hc, (hsquare _ _ _ _ s).mp hs⟩
    · cases h
  · rintro ⟨letter, marker, file, rank, hcs, hp⟩
    have hkind := ofLetter?_toUpper_eq_some_iff.mpr hp.letter
    have hc := colorOf?_eq_some_iff.mpr hp.marker
    refine ⟨_, ⟨hcs, by simp⟩, ?_⟩
    simp only [hkind, hc]
    exact bind_eq_ok.mpr ⟨p.square, (hsquare _ _ _ _ _).mpr hp.square, rfl⟩

theorem exists_ofToken_iff :
    (∃ p, ofToken token = .ok p) ↔ hasPlacementShape (Token.chars token) = true := by
  simp only [ofToken_eq_ok_iff, hasPlacementShape_iff]
  constructor
  · rintro ⟨p, letter, marker, file, rank, h⟩
    exact ⟨letter, marker, file, rank, p, h⟩
  · rintro ⟨letter, marker, file, rank, p, h⟩
    exact ⟨p, letter, marker, file, rank, h⟩

end Placement

end Scoresheet
