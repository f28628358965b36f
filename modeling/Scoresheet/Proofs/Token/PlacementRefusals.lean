import Scoresheet.Proofs.Token.FirstWrong
import Scoresheet.Proofs.Token.PlacementSpelling
/-!
# What is wrong with a placement

Of the four characters of a placement the letter is looked at first, then the marker, the file and
the rank, and the first that is wrong is reported. A letter is reported as it is written, a marker in
its small form, so a capital marker is not the character that the report shows.
-/
namespace Scoresheet.Placement

open Directive Fallible

/-- Whether an error reports what is first wrong with a placement token, with a wrong marker shown
in some form. -/
def WrongWith (shown : Char → Char) (token : String) (e : TokenError) : Prop :=
  let cs := Token.chars token
  match e with
  | .empty => cs = []
  | .wrongLength t => t = token ∧ cs ≠ [] ∧ cs.length ≠ 4
  | .unknownPiece t letter =>
    t = token ∧ ∃ marker file rank, cs = [letter, marker, file, rank] ∧
      isAnyPieceLetter letter = false
  | .unknownColor t m =>
    t = token ∧ ∃ letter marker file rank, cs = [letter, marker, file, rank] ∧
      isAnyPieceLetter letter = true ∧ isColorMarker marker = false ∧ m = shown marker
  | .noFile t offset =>
    t = token ∧ offset = 2 ∧ ∃ letter marker file rank, cs = [letter, marker, file, rank] ∧
      isAnyPieceLetter letter = true ∧ isColorMarker marker = true ∧ isFile file = false
  | .noRank t offset =>
    t = token ∧ offset = 3 ∧ ∃ letter marker file rank, cs = [letter, marker, file, rank] ∧
      isAnyPieceLetter letter = true ∧ isColorMarker marker = true ∧ isFile file = true ∧
      isRank rank = false
  | .notCastle _ => False

/-- Whether the marker is what is first wrong with a placement token, and a capital. -/
def CapitalMarker (token : String) : Prop :=
  ∃ letter marker file rank, Token.chars token = [letter, marker, file, rank] ∧
    isAnyPieceLetter letter = true ∧ isColorMarker marker = false ∧ marker.isUpper = true

variable {token : String} {letter marker file rank : Char} {e : TokenError}

private theorem ofToken_of_four (hcs : Token.chars token = [letter, marker, file, rank]) :
    ofToken token =
      match PieceKind.ofLetter? letter.toUpper with
      | none => .error (.unknownPiece token letter)
      | some kind =>
        match colorOf? marker with
        | none => .error (.unknownColor token marker.toLower)
        | some color =>
          (Token.squareAt token [letter, marker, file, rank] 2).map (Placement.mk ⟨color, kind⟩) := by
  rw [ofToken, Token.someChars_of_ne_nil (by simp [hcs]), hcs]
  cases hkind : PieceKind.ofLetter? letter.toUpper <;> cases hcolor : colorOf? marker <;>
    cases hs : Token.squareAt token [letter, marker, file, rank] 2 <;>
    simp [bind, Except.bind, Except.map, hkind, hcolor, hs]

private theorem ofToken_of_square {part : SquarePart} {offset : Nat}
    (hcs : Token.chars token = [letter, marker, file, rank])
    (hletter : isAnyPieceLetter letter = true) (hmarker : isColorMarker marker = true)
    (h : Token.firstWrong? [letter, marker, file, rank] (Token.squarePlaces 2) =
      some (offset, part)) :
    ofToken token = .error (part.error token offset) := by
  obtain ⟨kind, hkind⟩ := isAnyPieceLetter_iff.mp hletter
  obtain ⟨color, hcolor⟩ := isColorMarker_iff.mp hmarker
  rw [ofToken_of_four hcs, hkind, hcolor, Token.squareAt_of_firstWrong? token h]
  rfl

theorem ofToken_of_wrongWith (h : WrongWith Char.toLower token e) : ofToken token = .error e := by
  cases e with
  | empty =>
    have hnil : Token.chars token = [] := h
    rw [ofToken, Token.someChars, hnil]
    rfl
  | wrongLength t =>
    obtain ⟨rfl, hne, hfour⟩ := h
    rw [ofToken, Token.someChars_of_ne_nil hne]
    simp only [bind, Except.bind]
    split
    · next hcs => simp [hcs] at hfour
    · rfl
  | unknownPiece t letter =>
    obtain ⟨rfl, marker, file, rank, hcs, hletter⟩ := h
    rw [ofToken_of_four hcs, eq_none_of_iff isAnyPieceLetter_iff hletter]
  | unknownColor t m =>
    obtain ⟨rfl, letter, marker, file, rank, hcs, hletter, hmarker, rfl⟩ := h
    obtain ⟨kind, hkind⟩ := isAnyPieceLetter_iff.mp hletter
    rw [ofToken_of_four hcs, hkind, eq_none_of_iff isColorMarker_iff hmarker]
  | noFile t offset =>
    obtain ⟨rfl, rfl, letter, marker, file, rank, hcs, hletter, hmarker, hfile⟩ := h
    have hwrong : Token.firstWrong? [letter, marker, file, rank] (Token.squarePlaces 2) =
        some (2, .file) := by
      simp [Token.firstWrong?, Token.squarePlaces, SquarePart.allows, hfile]
    exact ofToken_of_square hcs hletter hmarker hwrong
  | noRank t offset =>
    obtain ⟨rfl, rfl, letter, marker, file, rank, hcs, hletter, hmarker, hfile, hrank⟩ := h
    have hwrong : Token.firstWrong? [letter, marker, file, rank] (Token.squarePlaces 2) =
        some (3, .rank) := by
      simp [Token.firstWrong?, Token.squarePlaces, SquarePart.allows, hfile, hrank]
    exact ofToken_of_square hcs hletter hmarker hwrong
  | notCastle t => exact h.elim

theorem exists_wrongWith_or_ofToken (token : String) :
    (∃ e, WrongWith Char.toLower token e) ∨ ∃ p, ofToken token = .ok p := by
  match hcs : Token.chars token with
  | [] => exact .inl ⟨.empty, hcs⟩
  | [letter, marker, file, rank] =>
    cases hletter : isAnyPieceLetter letter with
    | false => exact .inl ⟨.unknownPiece token letter, rfl, marker, file, rank, hcs, hletter⟩
    | true =>
      cases hmarker : isColorMarker marker with
      | false =>
        exact .inl ⟨.unknownColor token marker.toLower, rfl, letter, marker, file, rank, hcs,
          hletter, hmarker, rfl⟩
      | true =>
        cases hfile : isFile file with
        | false =>
          exact .inl ⟨.noFile token 2, rfl, rfl, letter, marker, file, rank, hcs, hletter,
            hmarker, hfile⟩
        | true =>
          cases hrank : isRank rank with
          | false =>
            exact .inl ⟨.noRank token 3, rfl, rfl, letter, marker, file, rank, hcs, hletter,
              hmarker, hfile, hrank⟩
          | true =>
            have hshape : hasPlacementShape (Token.chars token) = true := by
              simp [hcs, hasPlacementShape, hletter, hmarker, hfile, hrank]
            exact .inr (exists_ofToken_iff.mpr hshape)
  | [_] | [_, _] | [_, _, _] | _ :: _ :: _ :: _ :: _ :: _ =>
    exact .inl ⟨.wrongLength token, rfl, by simp [hcs], by simp [hcs]⟩

private theorem CapitalMarker.not_reported_as_written (h : CapitalMarker token) :
    ∃ e, WrongWith id token e ∧ ¬ WrongWith Char.toLower token e := by
  obtain ⟨letter, marker, file, rank, hcs, hletter, hmarker, hupper⟩ := h
  refine ⟨.unknownColor token marker,
    ⟨rfl, letter, marker, file, rank, hcs, hletter, hmarker, rfl⟩, ?_⟩
  intro hsmall
  obtain ⟨-, _, found, _, _, hfound, -, -, hm⟩ := hsmall
  obtain rfl : marker = found := by
    rw [hcs] at hfound
    simp only [List.cons.injEq] at hfound
    exact hfound.2.1
  have hn := Square.toNat_toLower_of_isUpper hupper
  rw [← hm] at hn
  omega

private theorem WrongWith.shown_alike {shown other : Char → Char} (h : WrongWith shown token e)
    (halike : ∀ letter marker file rank, Token.chars token = [letter, marker, file, rank] →
      isAnyPieceLetter letter = true → isColorMarker marker = false →
        shown marker = other marker) : WrongWith other token e := by
  cases e with
  | unknownColor t m =>
    obtain ⟨ht, letter, marker, file, rank, hcs, hletter, hmarker, hm⟩ := h
    exact ⟨ht, letter, marker, file, rank, hcs, hletter, hmarker,
      hm.trans (halike letter marker file rank hcs hletter hmarker)⟩
  | _ => exact h

private theorem wrongWith_as_written (h : ¬ CapitalMarker token) (e : TokenError) :
    WrongWith Char.toLower token e ↔ WrongWith id token e := by
  have hsmall (letter marker file rank : Char)
      (hcs : Token.chars token = [letter, marker, file, rank])
      (hletter : isAnyPieceLetter letter = true) (hmarker : isColorMarker marker = false) :
      marker.toLower = id marker := by
    apply Square.toLower_of_not_isUpper
    rw [Bool.eq_false_iff]
    intro hupper
    exact h ⟨letter, marker, file, rank, hcs, hletter, hmarker, hupper⟩
  constructor
  · intro hw
    exact hw.shown_alike hsmall
  · intro hw
    apply hw.shown_alike
    intro letter marker file rank hcs hletter hmarker
    exact (hsmall letter marker file rank hcs hletter hmarker).symm

/-- A refused placement is answered with its first wrong character, a marker in its small form. So
the answer shows the character that is there unless this is a capital marker. -/
theorem marker_blamed_in_small_form (token : String) :
    (∀ e, ofToken token = .error e ↔ WrongWith Char.toLower token e) ∧
    ((∀ e, ofToken token = .error e ↔ WrongWith id token e) ↔ ¬ CapitalMarker token) := by
  have herror (e : TokenError) : ofToken token = .error e ↔ WrongWith Char.toLower token e :=
    eq_error_iff_of_total (fun _ => ofToken_of_wrongWith) (exists_wrongWith_or_ofToken token) e
  refine ⟨herror, ?_⟩
  simp only [herror]
  constructor
  · intro hwritten hcapital
    obtain ⟨e, he, hnot⟩ := hcapital.not_reported_as_written
    exact hnot ((hwritten e).mpr he)
  · exact wrongWith_as_written

/-- The character that this answer shows is none of the token's. -/
theorem capital_marker_not_shown :
    ofToken "KXe1" = .error (.unknownColor "KXe1" 'x') ∧ 'x' ∉ Token.chars "KXe1" ∧
    ¬ ∀ token e, ofToken token = .error e ↔ WrongWith id token e := by
  have hread : ofToken "KXe1" = .error (.unknownColor "KXe1" 'x') := rfl
  refine ⟨hread, by decide, ?_⟩
  intro hwritten
  have hwrong := (hwritten "KXe1" (.unknownColor "KXe1" 'x')).mp hread
  obtain ⟨-, _, marker, _, _, hcs, -, -, hm⟩ := hwrong
  have hchars : Token.chars "KXe1" = ['K', 'X', 'e', '1'] := by decide
  simp only [hchars, List.cons.injEq] at hcs
  rw [← hcs.2.1] at hm
  exact absurd hm (by decide)

end Scoresheet.Placement
