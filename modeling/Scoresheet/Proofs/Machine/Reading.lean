import Mathlib.Data.List.Basic
import Scoresheet.Proofs.Machine.Width
import Scoresheet.Proofs.Token.FirstWrong
/-!
# Reading tokens on a machine

A reader looks up characters by their places and computes coordinates from their codes. That none of
this traps rests on what was done before: the length is compared before a place near the end is looked
up, and a code is cut down to a byte only after it was found in a range of eight.
-/
namespace Scoresheet.Machine

open Movement (LengthFits captureMark quietMark)
open Token (someChars_of_ne_nil)

/-- Which square of a movement token is meant. -/
inductive Half where
  | source
  | target
deriving DecidableEq, Repr

def squareOf? (rank file : UInt8) : Option Square := Square.at? rank.toNat file.toNat

def squareStart (cs : List Char) : Run Nat := do
  let first ← charAt cs 0
  return if first.isUpper then 1 else 0

/-- Compares the number of characters with what two squares need. -/
def checkShape (token : String) (cs : List Char) : Run Unit := do
  let start ← squareStart cs
  let span ← minus cs.length start
  if span = 4 then return
  else if span = 5 then
    let separator ← charAt cs (← plus start 2)
    if separator = quietMark ∨ separator = captureMark then return
    else .error (.refused (.wrongLength token))
  else .error (.refused (.wrongLength token))

/-- The square at an offset. The last step refuses coordinates beyond the board. -/
def squareAt (token : String) (cs : List Char) (offset : Nat) : Run Square := do
  let file ← orHalt ((cs[offset]?.map Char.toLower).filter fun c => 'a' ≤ c ∧ c ≤ 'h')
    (.refused (.noFile token offset))
  let next ← plus offset 1
  let rank ← orHalt (cs[next]?.filter fun c => '1' ≤ c ∧ c ≤ '8') (.refused (.noRank token next))
  let rankByte ← byte (rank.toUInt8.toNat - '1'.toUInt8.toNat)
  let fileByte ← byte (file.toUInt8.toNat - 'a'.toUInt8.toNat)
  orHalt (squareOf? rankByte fileByte) (.refused (.wrongLength token))

def square (token : String) (half : Half) : Run Square := do
  let cs ← answer (Token.someChars token)
  checkShape token cs
  let offset ← match half with
    | .source => squareStart cs
    | .target => minus cs.length 2
  squareAt token cs offset

def kind (token : String) : Run PieceKind := do
  let cs ← answer (Token.someChars token)
  let letter ← charAt cs 0
  if letter.isUpper then
    orHalt (PieceKind.ofLetter? letter) (.refused (.unknownPiece token letter))
  else return .pawn

def movement (token : String) : Run Movement := do
  let kind ← kind token
  let source ← square token .source
  let target ← square token .target
  return ⟨kind, source, target, Movement.marksCapture token⟩

def placement (token : String) : Run Placement := do
  let cs ← answer (Token.someChars token)
  if cs.length ≠ 4 then .error (.refused (.wrongLength token))
  else
    let letter ← charAt cs 0
    let kind ← orHalt (PieceKind.ofLetter? letter.toUpper) (.refused (.unknownPiece token letter))
    let marker ← charAt cs 1
    let color ← orHalt (Placement.colorOf? marker) (.refused (.unknownColor token marker.toLower))
    let square ← squareAt token cs 2
    return ⟨⟨color, kind⟩, square⟩

variable {token : String} {cs : List Char} {offset : Nat}

section Squares

/-- Whether the letters of eight ranks or files follow one another, within a byte. -/
structure EightFrom (first last : Char) (letter : Fin 8 → Char) : Prop where
  code : ∀ n, (letter n).toNat = first.toNat + n.val
  last_eq : last.toNat = first.toNat + 7
  lt_byte : first.toNat + 7 < 256

private theorem eightFrom_fileLetter : EightFrom 'a' 'h' Square.fileLetter :=
  ⟨Square.toNat_fileLetter, rfl, by decide⟩

private theorem eightFrom_rankDigit :
    EightFrom '1' '8' Square.rankDigit := ⟨by decide, rfl, by decide⟩

/-- A character in the range is one of the letters, so that comparing it with both ends is enough. -/
theorem EightFrom.filter_eq {first last : Char} {letter : Fin 8 → Char}
    (h : EightFrom first last letter) (c? : Option Char) :
    (c?.filter fun c => first ≤ c ∧ c ≤ last) =
      (c?.bind fun c => (List.finRange 8).find? fun n => letter n == c).map letter := by
  cases c? with
  | none => rfl
  | some c =>
    have hrange : (first ≤ c ∧ c ≤ last) ↔ first.toNat ≤ c.toNat ∧ c.toNat ≤ first.toNat + 7 := by
      rw [← h.last_eq]
      exact and_congr UInt32.le_iff_toNat_le UInt32.le_iff_toNat_le
    cases hfound : (List.finRange 8).find? fun n => letter n == c with
    | some n =>
      obtain rfl : letter n = c := by simpa using List.find?_some hfound
      have hcode := h.code n
      have hin : first ≤ letter n ∧ letter n ≤ last := hrange.mpr (by omega)
      simp [hfound, hin]
    | none =>
      have hout : ¬ (first ≤ c ∧ c ≤ last) := by
        intro hin
        obtain ⟨hlow, hhigh⟩ := hrange.mp hin
        let n : Fin 8 := ⟨c.toNat - first.toNat, by omega⟩
        have hletter : letter n = c := by
          apply Char.toNat_inj.mp
          rw [h.code]
          exact Nat.add_sub_of_le hlow
        exact List.find?_eq_none.mp hfound n (List.mem_finRange n) (beq_iff_eq.mpr hletter)
      simpa [hfound] using hout

private theorem EightFrom.byte_eq {first last : Char} {letter : Fin 8 → Char}
    (h : EightFrom first last letter) (n : Fin 8) :
    byte ((letter n).toUInt8.toNat - first.toUInt8.toNat) = .ok (.ofNat n.val) := by
  have hbyte := h.lt_byte
  have hcut {c : Char} (hc : c.toNat < 256) : c.toUInt8.toNat = c.toNat := by
    rw [Char.toUInt8, UInt32.toNat_toUInt8, Char.toNat_val]
    exact Nat.mod_eq_of_lt hc
  have hcode := h.code n
  have hnumber : ((letter n).toUInt8.toNat : Int) - first.toUInt8.toNat = n.val := by
    rw [hcut (by omega), hcut (by omega)]
    omega
  rw [hnumber, byte_natCast (by omega)]

private theorem filter_file (c? : Option Char) :
    ((c?.map Char.toLower).filter fun c => 'a' ≤ c ∧ c ≤ 'h') =
      (c?.bind Square.fileOf?).map Square.fileLetter := by
  rw [eightFrom_fileLetter.filter_eq]
  cases c? <;> rfl

private theorem filter_rank (c? : Option Char) :
    (c?.filter fun c => '1' ≤ c ∧ c ≤ '8') = (c?.bind Square.rankOf?).map Square.rankDigit :=
  eightFrom_rankDigit.filter_eq c?

theorem squareOf?_ofNat (s : Square) :
    squareOf? (.ofNat s.rank.val) (.ofNat s.file.val) = some s := by
  have hbyte : ∀ n : Fin 8, ((UInt8.ofNat n.val).toNat : Int) = n.val := by decide
  rw [squareOf?, Square.at?_eq_some_iff]
  exact ⟨hbyte s.rank, hbyte s.file⟩

/-- Coordinates are computed from characters only after these were found to name them. -/
theorem squareAt_eq (token : String) (cs : List Char) (h : offset + 1 < UInt64.size) :
    squareAt token cs offset = answer (Token.squareAt token cs offset) := by
  rw [squareAt, Token.squareAt, filter_file, plus, check_of h]
  cases cs[offset]?.bind Square.fileOf? with
  | none => rfl
  | some file =>
    simp only [Option.map_some, orHalt_some, ok_bind, filter_rank]
    cases cs[offset + 1]?.bind Square.rankOf? with
    | none => rfl
    | some rank =>
      simp only [Option.map_some, orHalt_some, ok_bind, eightFrom_rankDigit.byte_eq,
        eightFrom_fileLetter.byte_eq]
      rw [squareOf?_ofNat ⟨rank, file⟩]
      rfl

/-- The refusal in the last step is never given: both characters were looked at before. -/
theorem squareAt_ne_wrongLength (token : String) (cs : List Char) (offset : Nat) (t : String) :
    squareAt token cs offset ≠ .error (.refused (.wrongLength t)) := by
  by_cases h : offset + 1 < UInt64.size
  · rw [squareAt_eq token cs h, Token.squareAt]
    split <;> simp
  · rw [squareAt, filter_file, plus, check, if_neg h]
    cases cs[offset]?.bind Square.fileOf? <;> simp

end Squares

section Shapes

private theorem squareStart_eq (h : cs ≠ []) : squareStart cs = .ok (Movement.squareStart cs) := by
  obtain ⟨first, rest, rfl⟩ := List.exists_cons_of_ne_nil h
  rfl

-- Without characters there is no first one; readers refuse an empty token before they look.
example : squareStart [] = .error (.trapped .pastEnd) := rfl

private theorem squareStart_le (cs : List Char) :
    Movement.squareStart cs ≤ 1 ∧ Movement.squareStart cs ≤ cs.length := by
  cases cs with
  | nil => exact ⟨Nat.zero_le 1, Nat.le_refl 0⟩
  | cons first rest =>
    rw [Movement.squareStart, List.length_cons]
    split <;> omega

instance (cs : List Char) : Decidable (LengthFits cs) :=
  decidable_of_iff _ Movement.spansTwoSquares_iff_lengthFits

/-- The length is compared without the letter in front, and the separator looked up behind it. -/
theorem checkShape_eq (token : String) (h : cs ≠ []) :
    checkShape token cs =
      if LengthFits cs then .ok () else .error (.refused (.wrongLength token)) := by
  obtain ⟨hone, hlength⟩ := squareStart_le cs
  rw [checkShape, squareStart_eq h, ok_bind, minus, check_of hlength, ok_bind]
  by_cases hfour : cs.length - Movement.squareStart cs = 4
  · rw [if_pos hfour, if_pos (.inl hfour)]
    rfl
  by_cases hfive : cs.length - Movement.squareStart cs = 5
  · have hplace : Movement.squareStart cs + 2 < cs.length := by omega
    have hwidth : Movement.squareStart cs + 2 < UInt64.size := lt_size (by omega)
    rw [if_neg hfour, if_pos hfive, plus, check_of hwidth, ok_bind, charAt,
      List.getElem?_eq_getElem hplace, orHalt_some, ok_bind]
    have hseparator : LengthFits cs ↔
        cs[Movement.squareStart cs + 2] = quietMark ∨
          cs[Movement.squareStart cs + 2] = captureMark := by
      simp [LengthFits, hfive, hplace, quietMark, captureMark]
    simp only [hseparator]
    rfl
  · have hno : ¬ LengthFits cs := fun hfits => hfits.elim hfour fun hlong => hfive hlong.1
    rw [if_neg hfour, if_neg hfive, if_neg hno]

end Shapes

section Readers

private theorem someChars_of_nil (h : Token.chars token = []) :
    Token.someChars token = .error .empty := by
  rw [Token.someChars, h]
  rfl

/-- A square is read without a trap, for in a token of the right length its offset leaves room for two
characters. -/
theorem square_eq (token : String) (half : Half) :
    square token half = answer (match half with
      | .source => Movement.sourceOf token
      | .target => Movement.targetOf token) := by
  by_cases hnil : Token.chars token = []
  · cases half <;>
      simp only [square, Movement.sourceOf, Movement.targetOf, Movement.shapedChars,
        someChars_of_nil hnil] <;> rfl
  by_cases hfits : LengthFits (Token.chars token)
  · obtain ⟨hone, -⟩ := squareStart_le (Token.chars token)
    have hlong : 2 ≤ (Token.chars token).length := by rcases hfits with h | ⟨h, -⟩ <;> omega
    have hshort : (Token.chars token).length ≤ 6 := by rcases hfits with h | ⟨h, -⟩ <;> omega
    rw [square, someChars_of_ne_nil hnil, answer_ok, ok_bind, checkShape_eq token hnil, if_pos hfits,
      ok_bind]
    cases half with
    | source =>
      rw [Movement.sourceOf, Movement.shapedChars_of_lengthFits hfits]
      simp only [squareStart_eq hnil, ok_bind]
      exact squareAt_eq token _ (lt_size (by omega))
    | target =>
      rw [Movement.targetOf, Movement.shapedChars_of_lengthFits hfits]
      simp only [minus, check_of hlong, ok_bind]
      exact squareAt_eq token _ (lt_size (by omega))
  · rw [square, someChars_of_ne_nil hnil, answer_ok, ok_bind, checkShape_eq token hnil, if_neg hfits]
    cases half <;>
      simp only [Movement.sourceOf, Movement.targetOf,
        Movement.shapedChars_of_not_lengthFits hnil hfits] <;> rfl

theorem kind_eq (token : String) : kind token = answer (Movement.kindOf token) := by
  rw [kind, Movement.kindOf, answer_bind]
  by_cases hnil : Token.chars token = []
  · rw [someChars_of_nil hnil]
    rfl
  · rw [someChars_of_ne_nil hnil, answer_ok, ok_bind, ok_bind]
    obtain ⟨letter, rest, hcs⟩ := List.exists_cons_of_ne_nil hnil
    rw [hcs]
    cases hupper : letter.isUpper with
    | false => simp [charAt, hupper]
    | true =>
      cases hkind : PieceKind.ofLetter? letter with
      | none => simp [charAt, hupper, hkind]
      | some kind =>
        simp only [charAt, List.getElem?_cons_zero, List.head?_cons, orHalt_some, ok_bind, hupper,
          hkind, if_true]
        rfl

theorem movement_eq (token : String) : movement token = answer (Movement.ofToken token) := by
  simp only [movement, Movement.ofToken, kind_eq, square_eq, answer_bind, answer_pure]

theorem placement_eq (token : String) : placement token = answer (Placement.ofToken token) := by
  rw [placement, Placement.ofToken, answer_bind]
  congr 1
  funext cs
  by_cases hfour : cs.length = 4
  · obtain ⟨letter, marker, file, rank, rfl⟩ := List.length_eq_four.mp hfour
    have hletter : charAt [letter, marker, file, rank] 0 = .ok letter := rfl
    have hmarker : charAt [letter, marker, file, rank] 1 = .ok marker := rfl
    rw [if_neg (by simp), hletter, ok_bind]
    cases hkind : PieceKind.ofLetter? letter.toUpper with
    | none => simp [hkind]
    | some kind =>
      rw [orHalt_some, ok_bind, hmarker, ok_bind]
      cases hcolor : Placement.colorOf? marker with
      | none => simp [hkind, hcolor]
      | some color =>
        have hsquare : squareAt token [letter, marker, file, rank] 2 =
            answer (Token.squareAt token [letter, marker, file, rank] 2) :=
          squareAt_eq token _ (by decide)
        simp [hkind, hcolor, hsquare, answer_bind, -bind_pure_comp]
  · rw [if_pos hfour]
    split
    · simp at hfour
    · rfl

end Readers

end Scoresheet.Machine
