import Scoresheet.Proofs.Board.Material
import Scoresheet.Proofs.Board.Sliding
/-!
# The rule of castling

A castle is open if king and rook stand at home, one of them unmoved, with nothing between them.
Executing it is another matter: whatever stands on the two home squares goes to the two others, and if
one of them is empty nothing happens. A castle that is judged first, by intent or by token, is executed
only if it is open, and then nothing is lost.
-/
namespace Scoresheet

namespace Square

variable {s t u : Square}

private theorem between_iff_of_rank (h : s.rank = t.rank) :
    s.Between t u ↔ u.rank = s.rank ∧
      min s.file.val t.file.val < u.file.val ∧ u.file.val < max s.file.val t.file.val := by
  have hrank : s.rank.val = t.rank.val := congrArg Fin.val h
  constructor
  · intro hu
    have hs := hu.ne_left
    have ht := hu.ne_right
    have hranks := hu.ranks
    have hfiles := hu.files
    rw [ne_eq, eq_iff, ranksTo, filesTo] at hs ht
    rw [Fin.ext_iff]
    omega
  · rintro ⟨hu, hfiles⟩
    rw [Fin.ext_iff] at hu
    refine ⟨?_, ?_, ?_, by omega, by omega⟩
    · rw [ne_eq, eq_iff, ranksTo, filesTo]
      omega
    · rw [ne_eq, eq_iff, ranksTo, filesTo]
      omega
    · simp [ranksTo, hu, hrank]

end Square

namespace Color

/-- The squares that have to be empty are those strictly between king and rook. -/
theorem mem_castlePath_iff {c : Color} {side : CastleSide} {s : Square} :
    s ∈ c.castlePath side ↔ c.kingHome.Between (c.rookHome side) s := by
  have hfiles : ∀ file, file ∈ side.pathFiles ↔
      min kingFile.val side.rookFile.val < file.val ∧
        file.val < max kingFile.val side.rookFile.val := by
    cases side <;> decide
  have hrank : c.kingHome.rank = (c.rookHome side).rank := rfl
  have hmem : s ∈ c.castlePath side ↔ s.rank = c.backRank ∧ s.file ∈ side.pathFiles := by
    obtain ⟨rank, file⟩ := s
    simp [castlePath, and_comm, eq_comm]
  rw [Square.between_iff_of_rank hrank, hmem, hfiles]
  rfl

private theorem names_castleSquares (c : Color) (side : CastleSide) :
    (c.castleSquares side).map Square.name =
      match c, side with
      | .white, .king => ["e1", "h1", "g1", "f1"]
      | .white, .queen => ["e1", "a1", "c1", "d1"]
      | .black, .king => ["e8", "h8", "g8", "f8"]
      | .black, .queen => ["e8", "a8", "c8", "d8"] := by
  cases c <;> cases side <;> rfl

end Color

namespace Board

open Fallible

/-- Whether king and rook stand so that a side may castle. -/
structure CastleOpen (b : Board) (side : CastleSide) (c : Color) (king rook : Piece) : Prop where
  kingHome : b.occupant c.kingHome = some king
  isKing : king.toChessman = ⟨c, .king⟩
  rookHome : b.occupant (c.rookHome side) = some rook
  isRook : rook.toChessman = ⟨c, .rook⟩
  unmoved : king.moved = false ∨ rook.moved = false
  clear : ∀ s, c.kingHome.Between (c.rookHome side) s → b.occupant s = none

def judgeCastle (b : Board) (token : String) (c : Color) : Except TokenError Bool := do
  let side ← CastleSide.ofToken token
  return b.canCastle side c

/-- Judges the castle that a token asks for and executes it if it is open. -/
def castleJudged (b : Board) (token : String) (c : Color) : Except TokenError (Bool × Board) := do
  let isOpen ← b.judgeCastle token c
  return (isOpen, if isOpen then b.after (.castleToken token c) else b)

variable {b : Board} {side : CastleSide} {c : Color} {king rook : Piece}

private theorem canCastle_iff_castleOpen :
    b.canCastle side c = true ↔ ∃ king rook, b.CastleOpen side c king rook := by
  simp only [canCastle_iff, Color.mem_castlePath_iff]
  constructor
  · rintro ⟨king, rook, hk, hr, ⟨hking, hrook⟩, hmoved, hclear⟩
    exact ⟨king, rook, hk, hking, hr, hrook, hmoved, hclear⟩
  · rintro ⟨king, rook, hk, hking, hr, hrook, hmoved, hclear⟩
    exact ⟨king, rook, hk, hr, ⟨hking, hrook⟩, hmoved, hclear⟩

private theorem isOk_intend_castle : (b.intend (.castle side) c).isOk = b.canCastle side c := by
  rw [intend, castleRefusal?, canCastle]
  cases b.castleObstacle? side c <;> rfl

private theorem after_intend_castle :
    b.after (.intend (.castle side) c) = if b.canCastle side c then b.castle side c else b := by
  rw [after, attempt, intend, castleRefusal?, canCastle]
  cases b.castleObstacle? side c <;> rfl

private theorem after_castleToken {token : String} (h : CastleSide.ofToken token = .ok side) :
    b.after (.castleToken token c) = b.castle side c := by
  rw [after, attempt, h]
  rfl

/-- Judging a token and then executing it comes to the intent that it stands for. -/
theorem castleJudged_eq {token : String} (h : CastleSide.ofToken token = .ok side) :
    b.castleJudged token c =
      .ok ((b.intend (.castle side) c).isOk, b.after (.intend (.castle side) c)) := by
  rw [castleJudged, judgeCastle, h, isOk_intend_castle, after_intend_castle, after_castleToken h]
  rfl

private theorem castle_of_vacant
    (h : b.occupant c.kingHome = none ∨ b.occupant (c.rookHome side) = none) :
    b.castle side c = b := by
  apply castle_of_not_castleReady
  rcases h with h | h <;> simp [castleReady, h]

private theorem count_castle (h : b.canCastle side c = true) :
    (b.castle side c).count = b.count := by
  rw [← card_material, ← card_material, material_castle h]

/-- A castle is open exactly if the king stands on e1 or e8 and the rook on its corner, one of them
unmoved, and nothing stands between them. Executing it, open or not, does nothing if one of the two
squares is empty; otherwise it takes what stands on them to the c-file and the d-file, or to the g-file
and the f-file, as pieces that have moved, and leaves the other squares alone. An open castle loses
nothing. To mean a castle is to judge its token and execute it if it is open. -/
theorem castling_complete_and_exact (b : Board) (side : CastleSide) (c : Color) :
    (c.castleSquares side).map Square.name =
      (match c, side with
      | .white, .king => ["e1", "h1", "g1", "f1"]
      | .white, .queen => ["e1", "a1", "c1", "d1"]
      | .black, .king => ["e8", "h8", "g8", "f8"]
      | .black, .queen => ["e8", "a8", "c8", "d8"]) ∧
    (b.canCastle side c = true ↔ ∃ king rook, b.CastleOpen side c king rook) ∧
    (b.occupant c.kingHome = none ∨ b.occupant (c.rookHome side) = none → b.castle side c = b) ∧
    (∀ king rook, b.occupant c.kingHome = some king → b.occupant (c.rookHome side) = some rook →
      b.CastledTo side c king rook (b.castle side c)) ∧
    (b.canCastle side c = true →
      (b.castle side c).material = b.material ∧ (b.castle side c).count = b.count) ∧
    b.castleJudged side.token c =
      .ok ((b.intend (.castle side) c).isOk, b.after (.intend (.castle side) c)) := by
  refine ⟨c.names_castleSquares side, canCastle_iff_castleOpen, castle_of_vacant, ?_, ?_, ?_⟩
  · intro king rook hk hr
    exact castledTo_castle hk hr
  · intro h
    exact ⟨material_castle h, count_castle h⟩
  · exact castleJudged_eq (CastleSide.ofToken_token side)

/-- A king that has walked to e8 castles with a rook that has not moved. -/
theorem black_castles_after_walking_home :
    let b := empty.afterAll [.placeToken "kdd8", .placeToken "rda8", .placeToken "Nlc1",
      .moveToken "Kd8-e8" .black]
    let next := b.castle .queen .black
    b.canCastle .queen .black = true ∧ b.castle .king .black = b ∧
      next.occupant ⟨7, 2⟩ = some ⟨⟨.black, .king⟩, ⟨7, 2⟩, true⟩ ∧
      next.occupant ⟨7, 3⟩ = some ⟨⟨.black, .rook⟩, ⟨7, 3⟩, true⟩ ∧
      next.occupant ⟨7, 0⟩ = none ∧ next.material = b.material ∧
      b.castleJudged "O-O-O" .black = .ok (true, next) := by
  intro b next
  have hopen : b.canCastle .queen .black = true := by decide +kernel
  have hking : b.occupant (Color.black.kingHome) = some ⟨⟨.black, .king⟩, ⟨7, 4⟩, true⟩ := by
    decide +kernel
  have hrook : b.occupant (Color.black.rookHome .queen) = some ⟨⟨.black, .rook⟩, ⟨7, 0⟩, false⟩ := by
    decide +kernel
  have hvacant : b.occupant (Color.black.rookHome .king) = none := by decide +kernel
  obtain ⟨_, _, hidle, _⟩ := castling_complete_and_exact b .king .black
  obtain ⟨_, _, _, hmoved, hwhole, hjudged⟩ := castling_complete_and_exact b .queen .black
  have hdone := hmoved _ _ hking hrook
  refine ⟨hopen, hidle (.inr hvacant), hdone.king, hdone.rook, hdone.rookHome, (hwhole hopen).1, ?_⟩
  refine hjudged.trans ?_
  rw [isOk_intend_castle, after_intend_castle, hopen, if_pos rfl]

end Board

end Scoresheet
