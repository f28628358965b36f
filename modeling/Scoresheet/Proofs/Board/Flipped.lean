import Mathlib.Data.List.Nodup
import Scoresheet.Board.Castle
import Scoresheet.Proofs.Board.Legality
/-!
# The flipped board

Flipping reverses the ranks and swaps the colors. Forward is the other way for the other side, and
its home squares are the flipped ones, so a flipped piece can go to the flipped squares.
-/
namespace Scoresheet

namespace Square

def flipped (s : Square) : Square := ⟨s.rank.rev, s.file⟩

@[simp] theorem flipped_flipped (s : Square) : s.flipped.flipped = s := by
  simp [flipped]

theorem flipped_inj {s t : Square} : s.flipped = t.flipped ↔ s = t := by
  constructor
  · intro h
    rw [← s.flipped_flipped, h, t.flipped_flipped]
  · exact congrArg flipped

private theorem offset?_flipped (s : Square) (ranks files : Int) :
    s.flipped.offset? (-ranks) files = (s.offset? ranks files).map flipped := by
  have hsome (t : Square) : s.flipped.offset? (-ranks) files = some t.flipped ↔
      s.offset? ranks files = some t := by
    simp only [offset?_eq_some_iff, flipped, Fin.val_rev]
    omega
  cases h : s.offset? ranks files with
  | some t => exact (hsome t).mpr h
  | none =>
    apply Option.eq_none_iff_forall_ne_some.mpr
    intro t ht
    rw [← t.flipped_flipped] at ht
    simp [(hsome _).mp ht] at h

end Square

def Shift.flipped (d : Shift) : Shift := (-d.1, d.2)

private theorem Square.ray_flipped (s : Square) (d : Shift) :
    s.flipped.ray (Shift.flipped d) = (s.ray d).map flipped := by
  rw [ray, ray, List.map_filterMap]
  congr 1
  funext n
  rw [← offset?_flipped, Shift.flipped, Int.mul_neg]

namespace Color

private theorem forward_opposite (c : Color) : c.opposite.forward = -c.forward := by cases c <;> rfl

private theorem pawnRank_opposite (c : Color) : c.opposite.pawnRank = c.pawnRank.rev := by
  cases c <;> rfl

private theorem opposite_inj {a c : Color} : a.opposite = c.opposite ↔ a = c := by
  cases a <;> cases c <;> decide

theorem beq_opposite (a c : Color) : (a.opposite == c.opposite) = (a == c) := by
  cases a <;> cases c <;> rfl

theorem bne_opposite (a c : Color) : (a.opposite != c.opposite) = (a != c) := by
  cases a <;> cases c <;> rfl

theorem kingHome_opposite (c : Color) : c.opposite.kingHome = c.kingHome.flipped := by
  cases c <;> rfl

theorem rookHome_opposite (c : Color) (side : CastleSide) :
    c.opposite.rookHome side = (c.rookHome side).flipped := by cases c <;> rfl

theorem kingCastled_opposite (c : Color) (side : CastleSide) :
    c.opposite.kingCastled side = (c.kingCastled side).flipped := by cases c <;> rfl

theorem rookCastled_opposite (c : Color) (side : CastleSide) :
    c.opposite.rookCastled side = (c.rookCastled side).flipped := by cases c <;> rfl

theorem castlePath_opposite (c : Color) (side : CastleSide) :
    c.opposite.castlePath side = (c.castlePath side).map Square.flipped := by
  cases c <;> cases side <;> rfl

end Color

def Chessman.flipped (m : Chessman) : Chessman := ⟨m.color.opposite, m.kind⟩

theorem Chessman.flipped_inj {m n : Chessman} : m.flipped = n.flipped ↔ m = n := by
  obtain ⟨c, k⟩ := m
  obtain ⟨c', k'⟩ := n
  simp [flipped, Color.opposite_inj]

def Piece.flipped (p : Piece) : Piece := ⟨p.toChessman.flipped, p.square.flipped, p.moved⟩

namespace Piece

variable (p : Piece)

@[simp] theorem color_flipped : p.flipped.color = p.color.opposite := rfl

@[simp] theorem kind_flipped : p.flipped.kind = p.kind := rfl

@[simp] theorem square_flipped : p.flipped.square = p.square.flipped := rfl

@[simp] theorem moved_flipped : p.flipped.moved = p.moved := rfl

end Piece

def Placement.flipped (p : Placement) : Placement := ⟨p.toChessman.flipped, p.square.flipped⟩

namespace Board

def flipped (b : Board) : Board :=
  ⟨Vector.ofFn fun i : Fin 64 =>
    (b.occupant ⟨⟨7 - i / 8, by omega⟩, ⟨i % 8, by omega⟩⟩).map Piece.flipped⟩

variable {b : Board} {c : Color}

@[simp] theorem occupant_flipped (b : Board) (s : Square) :
    b.flipped.occupant s.flipped = (b.occupant s).map Piece.flipped := by
  obtain ⟨r, f⟩ := s
  have hrank : 7 - (8 * r.rev.val + f.val) / 8 = r.val := by
    rw [Fin.val_rev]
    omega
  have hfile : (8 * r.rev.val + f.val) % 8 = f.val := by omega
  simp only [flipped, occupant, Square.flipped, Square.index, Fin.getElem_fin, Vector.getElem_ofFn,
    hrank, hfile]

private theorem eq_flipped {a b : Board}
    (h : ∀ s, a.occupant s.flipped = (b.occupant s).map Piece.flipped) : a = b.flipped := by
  apply ext_occupant
  intro s
  rw [← s.flipped_flipped, h, occupant_flipped]

@[simp] theorem flipped_empty : empty.flipped = empty := by
  apply Eq.symm
  apply eq_flipped
  intro s
  simp

private theorem flipped_put (b : Board) (s : Square) (found : Option Piece) :
    b.flipped.put s.flipped (found.map Piece.flipped) = (b.put s found).flipped := by
  apply eq_flipped
  intro t
  by_cases h : t = s
  · subst t; simp
  · have hf : t.flipped ≠ s.flipped := fun he => h (Square.flipped_inj.mp he)
    rw [occupant_put_of_ne hf, occupant_put_of_ne h, occupant_flipped]

theorem place_flipped (b : Board) (p : Placement) :
    b.flipped.place p.flipped = (b.place p).flipped :=
  b.flipped_put p.square (some p.piece)

theorem relocate_flipped (b : Board) (source target : Square) :
    b.flipped.relocate source.flipped target.flipped = (b.relocate source target).flipped := by
  cases h : b.occupant source with
  | none => rw [relocate_of_vacant h, relocate_of_vacant (by simp [h])]
  | some p =>
    simp only [relocate, occupant_flipped, h, Option.map_some]
    rw [← flipped_put, ← flipped_put]
    rfl

private theorem isVacant_flipped (b : Board) (s : Square) :
    b.flipped.isVacant s.flipped = b.isVacant s := by
  simp [isVacant]

private theorem hasOpponent_flipped (b : Board) (c : Color) (s : Square) :
    b.flipped.hasOpponent c.opposite s.flipped = b.hasOpponent c s := by
  simp only [hasOpponent, occupant_flipped]
  cases b.occupant s with
  | none => rfl
  | some p => simp only [Option.map_some, Piece.color_flipped, Color.bne_opposite]

private theorem admits_flipped (b : Board) (c : Color) (s : Square) :
    b.flipped.admits c.opposite s.flipped = b.admits c s := by
  rw [admits, admits, isVacant_flipped, hasOpponent_flipped]

private theorem clearPart_flipped (b : Board) (c : Color) (ray : List Square) :
    b.flipped.clearPart c.opposite (ray.map Square.flipped) =
      (b.clearPart c ray).map Square.flipped := by
  induction ray with
  | nil => rfl
  | cons s ray ih =>
    rw [List.map_cons, clearPart, clearPart, isVacant_flipped, hasOpponent_flipped, ih]
    cases b.isVacant s <;> cases b.hasOpponent c s <;> rfl

private theorem steps_flipped (b : Board) (c : Color) (s : Square) (shifts : List Shift) :
    b.flipped.steps c.opposite s.flipped (shifts.map Shift.flipped) =
      (b.steps c s shifts).map Square.flipped := by
  have hsquare : ((fun shift : Shift => s.flipped.offset? shift.1 shift.2) ∘ Shift.flipped) =
      fun shift => (s.offset? shift.1 shift.2).map Square.flipped := by
    funext shift
    exact s.offset?_flipped shift.1 shift.2
  have hadmits : (b.flipped.admits c.opposite ∘ Square.flipped) = b.admits c := by
    funext t
    rw [Function.comp_apply, admits_flipped]
  unfold steps
  rw [List.filterMap_map, hsquare, ← List.map_filterMap, List.filter_map, hadmits]

private theorem slides_flipped (b : Board) (c : Color) (s : Square) (directions : List Shift) :
    b.flipped.slides c.opposite s.flipped (directions.map Shift.flipped) =
      (b.slides c s directions).map Square.flipped := by
  rw [slides, slides, List.flatMap_map, List.map_flatMap]
  congr 1
  funext direction
  rw [s.ray_flipped, clearPart_flipped]

private theorem filter_isVacant_flipped (b : Board) (target : Option Square) :
    (target.map Square.flipped).filter b.flipped.isVacant =
      (target.filter b.isVacant).map Square.flipped := by
  cases target with
  | none => rfl
  | some s => simp only [Option.map_some, Option.filter_some, isVacant_flipped]; split <;> rfl

private theorem pawnAdvances_flipped (b : Board) (p : Piece) :
    b.flipped.pawnAdvances p.flipped = (b.pawnAdvances p).map Square.flipped := by
  have hone : p.square.flipped.offset? p.color.opposite.forward 0 =
      (p.square.offset? p.color.forward 0).map Square.flipped := by
    rw [p.color.forward_opposite, Square.offset?_flipped]
  have htwo : p.square.flipped.offset? (2 * p.color.opposite.forward) 0 =
      (p.square.offset? (2 * p.color.forward) 0).map Square.flipped := by
    rw [p.color.forward_opposite, Int.mul_neg, Square.offset?_flipped]
  have hhome : (p.square.flipped.rank == p.color.opposite.pawnRank) =
      (p.square.rank == p.color.pawnRank) := by
    rw [p.color.pawnRank_opposite]
    exact decide_eq_decide.mpr Fin.rev_inj
  simp only [pawnAdvances, Piece.square_flipped, Piece.color_flipped, Piece.moved_flipped, hone,
    htwo, hhome, filter_isVacant_flipped]
  cases (p.square.offset? p.color.forward 0).filter b.isVacant with
  | none => rfl
  | some one =>
    cases (p.square.offset? (2 * p.color.forward) 0).filter b.isVacant <;>
      cases !p.moved && p.square.rank == p.color.pawnRank <;> rfl

private theorem pawnCaptures_flipped (b : Board) (p : Piece) :
    b.flipped.pawnCaptures p.flipped = (b.pawnCaptures p).map Square.flipped := by
  have hsquare (files : Int) : p.square.flipped.offset? p.color.opposite.forward files =
      (p.square.offset? p.color.forward files).map Square.flipped := by
    rw [p.color.forward_opposite, Square.offset?_flipped]
  have hopponent : b.flipped.hasOpponent p.color.opposite ∘ Square.flipped =
      b.hasOpponent p.color := by
    funext t
    rw [Function.comp_apply, hasOpponent_flipped]
  simp only [pawnCaptures, Piece.square_flipped, Piece.color_flipped, hsquare]
  rw [← List.map_filterMap, List.filter_map, hopponent]

private theorem steps_perm (b : Board) (c : Color) (s : Square) {shifts shifts' : List Shift}
    (h : shifts.Perm shifts') : (b.steps c s shifts).Perm (b.steps c s shifts') :=
  (h.filterMap _).filter _

private theorem slides_perm (b : Board) (c : Color) (s : Square)
    {directions directions' : List Shift}
    (h : directions.Perm directions') :
    (b.slides c s directions).Perm (b.slides c s directions') :=
  h.flatMap_right _

private theorem targets_flipped (b : Board) (p : Piece) (captures : Bool) :
    (b.flipped.targets p.flipped captures).Perm ((b.targets p captures).map Square.flipped) := by
  have hsteps (shifts : List Shift) (h : shifts.Perm (shifts.map Shift.flipped)) :
      (b.flipped.steps p.color.opposite p.square.flipped shifts).Perm
        ((b.steps p.color p.square shifts).map Square.flipped) := by
    rw [← steps_flipped]
    exact steps_perm _ _ _ h
  have hslides (directions : List Shift) (h : directions.Perm (directions.map Shift.flipped)) :
      (b.flipped.slides p.color.opposite p.square.flipped directions).Perm
        ((b.slides p.color p.square directions).map Square.flipped) := by
    rw [← slides_flipped]
    exact slides_perm _ _ _ h
  unfold targets
  cases hk : p.kind <;> simp only [Piece.kind_flipped, hk]
  case pawn =>
    rw [pawnAdvances_flipped, pawnCaptures_flipped, List.map_append]
    cases captures <;> exact List.Perm.refl _
  case knight => exact hsteps knightShifts (by decide)
  case bishop => exact hslides diagonalShifts (by decide)
  case rook => exact hslides straightShifts (by decide)
  case queen => exact hslides (straightShifts ++ diagonalShifts) (by decide)
  case king => exact hsteps kingShifts (by decide)

theorem mem_reach_flipped_iff {p : Piece} {captures : Bool} {s : Square} :
    s.flipped ∈ b.flipped.reach p.flipped captures ↔ s ∈ b.reach p captures := by
  rw [mem_reach_iff, mem_reach_iff, (b.targets_flipped p captures).mem_iff]
  simp [Square.flipped_inj]

theorem reach_flipped (b : Board) (p : Piece) (captures : Bool) :
    (b.flipped.reach p.flipped captures).Perm ((b.reach p captures).map Square.flipped) := by
  have hinj : Function.Injective Square.flipped := fun _ _ => Square.flipped_inj.mp
  apply (List.perm_ext_iff_of_nodup (b.flipped.nodup_reach _ _)
    ((b.nodup_reach p captures).map hinj)).mpr
  intro s
  rw [← s.flipped_flipped, mem_reach_flipped_iff, List.mem_map_of_injective hinj]

end Board

end Scoresheet
