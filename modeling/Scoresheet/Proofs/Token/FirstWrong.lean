import Scoresheet.Proofs.Token.Quoting
import Scoresheet.Proofs.Token.Spelling
/-!
# What is wrong with a movement

A movement token is looked at from the left: its letter, its length, then the squares character by
character, each of which has to be a file or a rank. What is reported is the first thing that is
wrong, a character by its offset among those between the blanks.
-/
namespace Scoresheet

open Fallible

/-- What a character of a square has to be. -/
inductive SquarePart where
  | file
  | rank
deriving DecidableEq, Repr

namespace SquarePart

def allows : SquarePart → Char → Bool
  | file => Directive.isFile
  | rank => Directive.isRank

def error (token : String) (offset : Nat) : SquarePart → TokenError
  | file => .noFile token offset
  | rank => .noRank token offset

end SquarePart

namespace Token

def squarePlaces (offset : Nat) : List (Nat × SquarePart) := [(offset, .file), (offset + 1, .rank)]

/-- The first of several places that does not have the character it should. -/
def firstWrong? (cs : List Char) (places : List (Nat × SquarePart)) : Option (Nat × SquarePart) :=
  places.find? fun place => !(cs[place.1]?.any place.2.allows)

variable {token : String} {cs : List Char} {offset found : Nat} {part : SquarePart}

private theorem any_eq_isSome_bind {α : Type} {allows : Char → Bool} {read : Char → Option α}
    (h : ∀ c, allows c = (read c).isSome) (c? : Option Char) :
    c?.any allows = (c?.bind read).isSome := by
  cases c? with
  | none => rfl
  | some c => exact h c

private theorem any_isFile (c? : Option Char) :
    c?.any Directive.isFile = (c?.bind Square.fileOf?).isSome :=
  any_eq_isSome_bind (fun _ => Directive.eq_isSome_of_iff Directive.isFile_iff) c?

private theorem any_isRank (c? : Option Char) :
    c?.any Directive.isRank = (c?.bind Square.rankOf?).isSome :=
  any_eq_isSome_bind (fun _ => Directive.eq_isSome_of_iff Directive.isRank_iff) c?

private theorem firstWrong?_squarePlaces (cs : List Char) (offset : Nat) :
    firstWrong? cs (squarePlaces offset) =
      match cs[offset]?.bind Square.fileOf?, cs[offset + 1]?.bind Square.rankOf? with
      | some _, some _ => none
      | none, _ => some (offset, .file)
      | some _, none => some (offset + 1, .rank) := by
  simp only [firstWrong?, squarePlaces, List.find?_cons, List.find?_nil, SquarePart.allows,
    any_isFile, any_isRank]
  cases cs[offset]?.bind Square.fileOf? <;> cases cs[offset + 1]?.bind Square.rankOf? <;> rfl

theorem squareAt_of_firstWrong? (token : String)
    (h : firstWrong? cs (squarePlaces offset) = some (found, part)) :
    squareAt token cs offset = .error (part.error token found) := by
  rw [firstWrong?_squarePlaces] at h
  split at h
  · cases h
  · next hfile =>
    obtain ⟨rfl, rfl⟩ : offset = found ∧ SquarePart.file = part := by simpa using h
    rw [squareAt, hfile]
    rfl
  · next hfile hrank =>
    obtain ⟨rfl, rfl⟩ : offset + 1 = found ∧ SquarePart.rank = part := by simpa using h
    rw [squareAt, hfile, hrank]
    rfl

private theorem firstWrong?_append (cs : List Char) (places more : List (Nat × SquarePart)) :
    firstWrong? cs (places ++ more) = (firstWrong? cs places).or (firstWrong? cs more) :=
  List.find?_append

private theorem exists_squareAt (token : String) (h : firstWrong? cs (squarePlaces offset) = none) :
    ∃ s, squareAt token cs offset = .ok s := by
  rw [firstWrong?_squarePlaces] at h
  split at h
  · next file rank hfile hrank => exact ⟨⟨rank, file⟩, by rw [squareAt, hfile, hrank]⟩
  · cases h
  · cases h

theorem someChars_of_ne_nil (h : chars token ≠ []) : someChars token = .ok (chars token) :=
  Spelling.someChars_eq_ok_iff.mpr ⟨rfl, h⟩

end Token

namespace Movement

open Token (firstWrong? squarePlaces someChars_of_ne_nil)

/-- Whether a capital in front, if there is one, is the letter of a kind. -/
def LetterFits (cs : List Char) : Prop :=
  ∀ c, cs.head? = some c → c.isUpper = true → Directive.isPieceLetter c = true

/-- Whether the characters behind the letter are as many as two squares have, or one more with a
separator in the middle. -/
def LengthFits (cs : List Char) : Prop :=
  let start := squareStart cs
  cs.length - start = 4 ∨
    cs.length - start = 5 ∧ (cs[start + 2]? = some '-' ∨ cs[start + 2]? = some 'x')

/-- The places of two squares, of which the first begins behind the letter and the second ends the
token. -/
def placesOf (cs : List Char) : List (Nat × SquarePart) :=
  [(squareStart cs, .file), (squareStart cs + 1, .rank),
    (cs.length - 2, .file), (cs.length - 1, .rank)]

/-- Whether an error reports what is first wrong with a movement token. -/
def WrongWith (token : String) (e : TokenError) : Prop :=
  let cs := Token.chars token
  match e with
  | .empty => cs = []
  | .unknownPiece t letter =>
    t = token ∧ cs.head? = some letter ∧ letter.isUpper = true ∧
      Directive.isPieceLetter letter = false
  | .wrongLength t => t = token ∧ cs ≠ [] ∧ LetterFits cs ∧ ¬ LengthFits cs
  | .noFile t offset =>
    t = token ∧ LetterFits cs ∧ LengthFits cs ∧ firstWrong? cs (placesOf cs) = some (offset, .file)
  | .noRank t offset =>
    t = token ∧ LetterFits cs ∧ LengthFits cs ∧ firstWrong? cs (placesOf cs) = some (offset, .rank)
  | .unknownColor _ _ => False
  | .notCastle _ => False

variable {token : String} {cs : List Char} {e : TokenError}

private theorem spansTwoSquares_iff_length {ds : List Char} : spansTwoSquares ds = true ↔
    ds.length = 4 ∨ ds.length = 5 ∧ (ds[2]? = some '-' ∨ ds[2]? = some 'x') := by
  rcases ds with _ | ⟨a, _ | ⟨b, _ | ⟨c, _ | ⟨d, _ | ⟨e, _ | ⟨f, rest⟩⟩⟩⟩⟩⟩ <;>
    simp [spansTwoSquares, quietMark, captureMark]

theorem spansTwoSquares_iff_lengthFits :
    spansTwoSquares (cs.drop (squareStart cs)) = true ↔ LengthFits cs := by
  rw [spansTwoSquares_iff_length, List.length_drop, List.getElem?_drop, LengthFits]

private theorem LengthFits.ne_nil (h : LengthFits cs) : cs ≠ [] := by
  rintro rfl
  simp [LengthFits] at h

private theorem LengthFits.placesOf_eq (h : LengthFits cs) :
    placesOf cs = squarePlaces (squareStart cs) ++ squarePlaces (cs.length - 2) := by
  have hlast : cs.length - 2 + 1 = cs.length - 1 := by
    rcases h with h | ⟨h, -⟩ <;> omega
  simp [placesOf, squarePlaces, hlast]

private theorem kindOf_of_letter {letter : Char} (hc : (Token.chars token).head? = some letter)
    (hupper : letter.isUpper = true) (hno : Directive.isPieceLetter letter = false) :
    kindOf token = .error (.unknownPiece token letter) := by
  have hne : Token.chars token ≠ [] := by
    intro hnil
    simp [hnil] at hc
  have hnone : PieceKind.ofLetter? letter = none :=
    Directive.eq_none_of_iff Directive.isPieceLetter_iff hno
  rw [kindOf, someChars_of_ne_nil hne]
  simp [bind, Except.bind, hc, hupper, hnone]

private theorem exists_kindOf (hne : Token.chars token ≠ []) (h : LetterFits (Token.chars token)) :
    ∃ kind, kindOf token = .ok kind := by
  rw [kindOf, someChars_of_ne_nil hne]
  obtain ⟨letter, rest, hcs⟩ := List.exists_cons_of_ne_nil hne
  have hc : (Token.chars token).head? = some letter := by rw [hcs, List.head?_cons]
  by_cases hupper : letter.isUpper = true
  · obtain ⟨kind, hkind⟩ := Directive.isPieceLetter_iff.mp (h letter hc hupper)
    exact ⟨kind, by simp [bind, Except.bind, hc, hupper, hkind]⟩
  · exact ⟨.pawn, by simp [bind, Except.bind, hc, hupper]⟩

theorem shapedChars_of_lengthFits (h : LengthFits (Token.chars token)) :
    shapedChars token = .ok (Token.chars token) := by
  rw [shapedChars, someChars_of_ne_nil h.ne_nil]
  simp [bind, Except.bind, spansTwoSquares_iff_lengthFits.mpr h]

theorem shapedChars_of_not_lengthFits (hne : Token.chars token ≠ [])
    (h : ¬ LengthFits (Token.chars token)) : shapedChars token = .error (.wrongLength token) := by
  rw [← spansTwoSquares_iff_lengthFits, Bool.not_eq_true] at h
  rw [shapedChars, someChars_of_ne_nil hne]
  simp [bind, Except.bind, h]

/-- Once letter and length fit, only the squares are left to be read. -/
theorem ofToken_of_fits {kind : PieceKind} (hkind : kindOf token = .ok kind)
    (h : LengthFits (Token.chars token)) : ofToken token = (do
      let source ← Token.squareAt token (Token.chars token) (squareStart (Token.chars token))
      let target ← Token.squareAt token (Token.chars token) ((Token.chars token).length - 2)
      return ⟨kind, source, target, marksCapture token⟩) := by
  rw [ofToken, hkind, sourceOf, targetOf, shapedChars_of_lengthFits h]
  rfl

private theorem ofToken_of_firstWrong? {offset : Nat} {part : SquarePart}
    (hletter : LetterFits (Token.chars token)) (hlength : LengthFits (Token.chars token))
    (h : firstWrong? (Token.chars token) (placesOf (Token.chars token)) = some (offset, part)) :
    ofToken token = .error (part.error token offset) := by
  obtain ⟨kind, hkind⟩ := exists_kindOf hlength.ne_nil hletter
  rw [hlength.placesOf_eq, Token.firstWrong?_append] at h
  rw [ofToken_of_fits hkind hlength]
  cases hsource : firstWrong? (Token.chars token) (squarePlaces (squareStart (Token.chars token))) with
  | some place =>
    obtain rfl : place = (offset, part) := by simpa [hsource] using h
    rw [Token.squareAt_of_firstWrong? token hsource]
    rfl
  | none =>
    obtain ⟨source, hs⟩ := Token.exists_squareAt token hsource
    rw [hsource, Option.none_or] at h
    rw [hs, Token.squareAt_of_firstWrong? token h]
    rfl

private theorem exists_ofToken {token : String}
    (hletter : LetterFits (Token.chars token)) (hlength : LengthFits (Token.chars token))
    (h : firstWrong? (Token.chars token) (placesOf (Token.chars token)) = none) :
    ∃ m, ofToken token = .ok m := by
  obtain ⟨kind, hkind⟩ := exists_kindOf hlength.ne_nil hletter
  rw [hlength.placesOf_eq, Token.firstWrong?_append, Option.or_eq_none_iff] at h
  obtain ⟨source, hs⟩ := Token.exists_squareAt token h.1
  obtain ⟨target, ht⟩ := Token.exists_squareAt token h.2
  rw [ofToken_of_fits hkind hlength, hs, ht]
  exact ⟨_, rfl⟩

theorem ofToken_of_wrongWith (h : WrongWith token e) : ofToken token = .error e := by
  cases e with
  | empty =>
    have hnil : Token.chars token = [] := h
    rw [ofToken, kindOf, Token.someChars, hnil]
    rfl
  | unknownPiece t letter =>
    obtain ⟨rfl, hc, hupper, hno⟩ := h
    rw [ofToken, kindOf_of_letter hc hupper hno]
    rfl
  | wrongLength t =>
    obtain ⟨rfl, hne, hletter, hlength⟩ := h
    obtain ⟨kind, hkind⟩ := exists_kindOf hne hletter
    rw [ofToken, hkind, sourceOf, shapedChars_of_not_lengthFits hne hlength]
    rfl
  | noFile t offset =>
    obtain ⟨rfl, hletter, hlength, hwrong⟩ := h
    exact ofToken_of_firstWrong? hletter hlength hwrong
  | noRank t offset =>
    obtain ⟨rfl, hletter, hlength, hwrong⟩ := h
    exact ofToken_of_firstWrong? hletter hlength hwrong
  | unknownColor t marker => exact h.elim
  | notCastle t => exact h.elim

theorem exists_wrongWith_or_ofToken (token : String) :
    (∃ e, WrongWith token e) ∨ ∃ m, ofToken token = .ok m := by
  by_cases hnil : Token.chars token = []
  · exact .inl ⟨.empty, hnil⟩
  by_cases hletter : LetterFits (Token.chars token)
  · by_cases hlength : LengthFits (Token.chars token)
    · cases hwrong : firstWrong? (Token.chars token) (placesOf (Token.chars token)) with
      | none => exact .inr (exists_ofToken hletter hlength hwrong)
      | some place =>
        obtain ⟨offset, part⟩ := place
        cases part with
        | file => exact .inl ⟨.noFile token offset, rfl, hletter, hlength, hwrong⟩
        | rank => exact .inl ⟨.noRank token offset, rfl, hletter, hlength, hwrong⟩
    · exact .inl ⟨.wrongLength token, rfl, hnil, hletter, hlength⟩
  · have hbad : ∃ letter, (Token.chars token).head? = some letter ∧ letter.isUpper = true ∧
        Directive.isPieceLetter letter = false := by simpa [LetterFits] using hletter
    obtain ⟨letter, hc, hupper, hno⟩ := hbad
    exact .inl ⟨.unknownPiece token letter, rfl, hc, hupper, hno⟩

/-- A movement token that cannot be read is answered with what is first wrong with it, looked at from
the left: there is nothing but blanks, or a capital in front that names no kind, or the length is not
that of two squares, or a character is no file or no rank where one has to be. The answer keeps the
token as it was given, and a token with nothing wrong is read. -/
theorem first_wrong_reported (token : String) :
    (∀ e, ofToken token = .error e ↔ WrongWith token e) ∧
    ((∃ m, ofToken token = .ok m) ↔ ∀ e, ¬ WrongWith token e) ∧
    ∀ e, ofToken token = .error e → e.Quotes token ∧
      (∀ t marker, e ≠ .unknownColor t marker) ∧ ∀ t, e ≠ .notCastle t := by
  have herror (e : TokenError) : ofToken token = .error e ↔ WrongWith token e :=
    eq_error_iff_of_total (fun _ => ofToken_of_wrongWith) (exists_wrongWith_or_ofToken token) e
  refine ⟨herror, ?_, ?_⟩
  · constructor
    · rintro ⟨m, hm⟩ e he
      rw [ofToken_of_wrongWith he] at hm
      cases hm
    · intro hnone
      rcases exists_wrongWith_or_ofToken token with ⟨e, he⟩ | hread
      · exact absurd he (hnone e)
      · exact hread
  · intro e he
    have hwrong := (herror e).mp he
    refine ⟨quotes_of_ofToken he, ?_, ?_⟩
    · rintro t marker rfl
      exact hwrong
    · rintro t rfl
      exact hwrong

end Movement

end Scoresheet
