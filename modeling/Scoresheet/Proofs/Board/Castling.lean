import Scoresheet.Board.Castle
/-!
# The squares of a castle

King and rook start from two home squares and end on two others, all four different, and the two
they end on lie between the homes. So neither relocation of a castle gets in the way of the other,
and a castle that was judged open takes nothing.
-/
namespace Scoresheet

namespace Color

variable (c : Color) (side : CastleSide)

theorem rookHome_ne_kingHome : c.rookHome side ≠ c.kingHome := by
  cases c <;> cases side <;> decide

theorem kingCastled_ne_kingHome : c.kingCastled side ≠ c.kingHome := by
  cases c <;> cases side <;> decide

private theorem kingCastled_ne_rookHome : c.kingCastled side ≠ c.rookHome side := by
  cases c <;> cases side <;> decide

theorem rookCastled_ne_kingHome : c.rookCastled side ≠ c.kingHome := by
  cases c <;> cases side <;> decide

theorem rookCastled_ne_rookHome : c.rookCastled side ≠ c.rookHome side := by
  cases c <;> cases side <;> decide

theorem rookCastled_ne_kingCastled : c.rookCastled side ≠ c.kingCastled side := by
  cases c <;> cases side <;> decide

theorem kingCastled_mem_castlePath : c.kingCastled side ∈ c.castlePath side := by
  cases c <;> cases side <;> decide

theorem rookCastled_mem_castlePath : c.rookCastled side ∈ c.castlePath side := by
  cases c <;> cases side <;> decide

/-- The squares of a castle: where king and rook stand before it, and where they stand after it. -/
def castleSquares (c : Color) (side : CastleSide) : List Square :=
  [c.kingHome, c.rookHome side, c.kingCastled side, c.rookCastled side]

end Color

namespace Board

/-- Whether the pieces of the two home squares have gone to the other two, and nothing else happened. -/
structure CastledTo (b : Board) (side : CastleSide) (c : Color) (king rook : Piece)
    (next : Board) : Prop where
  king : next.occupant (c.kingCastled side) = some ⟨king.toChessman, c.kingCastled side, true⟩
  rook : next.occupant (c.rookCastled side) = some ⟨rook.toChessman, c.rookCastled side, true⟩
  kingHome : next.occupant c.kingHome = none
  rookHome : next.occupant (c.rookHome side) = none
  elsewhere : ∀ s, s ∉ c.castleSquares side → next.occupant s = b.occupant s

variable {b : Board} {side : CastleSide} {c : Color} {king rook : Piece}

private theorem castleObstacle?_eq_none_iff (hk : b.occupant c.kingHome = some king)
    (hr : b.occupant (c.rookHome side) = some rook) :
    b.castleObstacle? side c = none ↔
      (king.toChessman = ⟨c, .king⟩ ∧ rook.toChessman = ⟨c, .rook⟩) ∧
      (king.moved = false ∨ rook.moved = false) ∧
      ∀ s ∈ c.castlePath side, b.occupant s = none := by
  have hmen : (king.toChessman != ⟨c, .king⟩ || rook.toChessman != ⟨c, .rook⟩) = false ↔
      king.toChessman = ⟨c, .king⟩ ∧ rook.toChessman = ⟨c, .rook⟩ := by simp
  have hmoved : (king.moved && rook.moved) = false ↔
      king.moved = false ∨ rook.moved = false := Bool.and_eq_false_iff
  have hpath : ((c.castlePath side).any fun s => (b.occupant s).isSome) = false ↔
      ∀ s ∈ c.castlePath side, b.occupant s = none := by simp
  rw [← hmen, ← hmoved, ← hpath]
  simp only [castleObstacle?, hk, hr]
  cases king.toChessman != ⟨c, .king⟩ || rook.toChessman != ⟨c, .rook⟩ <;>
    cases king.moved && rook.moved <;>
    cases (c.castlePath side).any fun s => (b.occupant s).isSome <;> simp

theorem canCastle_iff :
    b.canCastle side c = true ↔ ∃ king rook,
      b.occupant c.kingHome = some king ∧ b.occupant (c.rookHome side) = some rook ∧
      (king.toChessman = ⟨c, .king⟩ ∧ rook.toChessman = ⟨c, .rook⟩) ∧
      (king.moved = false ∨ rook.moved = false) ∧
      ∀ s ∈ c.castlePath side, b.occupant s = none := by
  rw [canCastle, Option.isNone_iff_eq_none]
  constructor
  · intro h
    cases hk : b.occupant c.kingHome with
    | none => simp [castleObstacle?, hk] at h
    | some king =>
      cases hr : b.occupant (c.rookHome side) with
      | none => simp [castleObstacle?, hk, hr] at h
      | some rook => exact ⟨king, rook, rfl, rfl, (castleObstacle?_eq_none_iff hk hr).mp h⟩
  · rintro ⟨king, rook, hk, hr, h⟩
    exact (castleObstacle?_eq_none_iff hk hr).mpr h

theorem castleReady_iff :
    b.castleReady side c = true ↔
      ∃ king rook, b.occupant c.kingHome = some king ∧ b.occupant (c.rookHome side) = some rook := by
  simp [castleReady, Option.isSome_iff_exists]

theorem castle_of_not_castleReady (h : b.castleReady side c = false) : b.castle side c = b := by
  simp [castle, h]

theorem castle_of_castleReady (h : b.castleReady side c = true) :
    b.castle side c =
      (b.relocate c.kingHome (c.kingCastled side)).relocate (c.rookHome side)
        (c.rookCastled side) := by
  simp [castle, h]

theorem occupant_rookHome_relocate (hk : b.occupant c.kingHome = some king) :
    (b.relocate c.kingHome (c.kingCastled side)).occupant (c.rookHome side) =
      b.occupant (c.rookHome side) := by
  rw [occupant_relocate hk, if_neg (c.kingCastled_ne_rookHome side).symm,
    if_neg (c.rookHome_ne_kingHome side)]

theorem occupant_castle (hk : b.occupant c.kingHome = some king)
    (hr : b.occupant (c.rookHome side) = some rook) (t : Square) :
    (b.castle side c).occupant t =
      if t = c.rookCastled side then some (rook.movedTo (c.rookCastled side))
      else if t = c.rookHome side then none
      else if t = c.kingCastled side then some (king.movedTo (c.kingCastled side))
      else if t = c.kingHome then none else b.occupant t := by
  have hready : b.castleReady side c = true := castleReady_iff.mpr ⟨king, rook, hk, hr⟩
  have hrook : (b.relocate c.kingHome (c.kingCastled side)).occupant (c.rookHome side) =
      some rook := (occupant_rookHome_relocate hk).trans hr
  rw [castle_of_castleReady hready, occupant_relocate hrook, occupant_relocate hk]

theorem castledTo_castle (hk : b.occupant c.kingHome = some king)
    (hr : b.occupant (c.rookHome side) = some rook) :
    b.CastledTo side c king rook (b.castle side c) := by
  have hocc := occupant_castle hk hr
  constructor
  · rw [hocc, if_neg (c.rookCastled_ne_kingCastled side).symm,
      if_neg (c.kingCastled_ne_rookHome side), if_pos rfl, Piece.movedTo]
  · rw [hocc, if_pos rfl, Piece.movedTo]
  · rw [hocc, if_neg (c.rookCastled_ne_kingHome side).symm,
      if_neg (c.rookHome_ne_kingHome side).symm,
      if_neg (c.kingCastled_ne_kingHome side).symm, if_pos rfl]
  · rw [hocc, if_neg (c.rookCastled_ne_rookHome side).symm, if_pos rfl]
  · intro s hs
    simp only [Color.castleSquares, List.mem_cons, List.not_mem_nil, or_false, not_or] at hs
    simp [hocc, hs]

end Board

end Scoresheet
