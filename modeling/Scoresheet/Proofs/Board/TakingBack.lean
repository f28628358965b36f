import Scoresheet.Proofs.Board.MovementRule
import Scoresheet.Proofs.Board.Seating
import Scoresheet.Proofs.Board.Stepping
/-!
# Taking a movement back

Seen from its target, a movement that captured nothing leads back over the same empty squares, and
every kind but the pawn goes both ways along its lines. So such a movement can be undone by the
opposite one, and no trace of the two is left but that the piece has moved.
-/
namespace Scoresheet

namespace Movement

def back (m : Movement) : Movement := ⟨m.kind, m.target, m.source, false⟩

end Movement

namespace Square

variable {s t u : Square}

private theorem ranksTo_comm (s t : Square) : t.ranksTo s = -s.ranksTo t := by
  simp [ranksTo]

private theorem filesTo_comm (s t : Square) : t.filesTo s = -s.filesTo t := by
  simp [filesTo]

theorem OnLine.symm (h : s.OnLine t) : t.OnLine s := h.imp Eq.symm Eq.symm

theorem OnDiagonal.symm (h : s.OnDiagonal t) : t.OnDiagonal s := by
  rwa [OnDiagonal, ranksTo_comm s, filesTo_comm s, Int.natAbs_neg, Int.natAbs_neg]

theorem Between.symm (h : s.Between t u) : t.Between s u where
  ne_left := h.ne_right
  ne_right := h.ne_left
  collinear := by
    have hranks : t.ranksTo u = s.ranksTo u - s.ranksTo t := by simp [ranksTo]
    have hfiles : t.filesTo u = s.filesTo u - s.filesTo t := by simp [filesTo]
    rw [hranks, hfiles, ranksTo_comm s, filesTo_comm s]
    linear_combination -h.collinear
  ranks := by
    rw [min_comm, max_comm]
    exact h.ranks
  files := by
    rw [min_comm, max_comm]
    exact h.files

private theorem neg_mem_knightShifts {d : Shift} (h : d ∈ knightShifts) :
    (-d.1, -d.2) ∈ knightShifts := by
  revert d
  decide

private theorem neg_mem_kingShifts {d : Shift} (h : d ∈ kingShifts) :
    (-d.1, -d.2) ∈ kingShifts := by
  revert d
  decide

end Square

namespace Board

variable {b next : Board} {m : Movement} {c : Color} {p : Piece} {s t : Square}

private theorem mem_steps_back {shifts : List Shift} (hshifts : ∀ d ∈ shifts, (-d.1, -d.2) ∈ shifts)
    (hs : next.occupant s = none) (h : t ∈ b.steps c s shifts) : s ∈ next.steps c t shifts := by
  rw [mem_steps_iff] at h ⊢
  rw [Square.ranksTo_comm s, Square.filesTo_comm s]
  exact ⟨hshifts _ h.1, by simp [admits, isVacant, hs]⟩

theorem SlidesTo.back (hs : next.occupant s = none)
    (helse : ∀ u, u ≠ s → u ≠ t → next.occupant u = b.occupant u) (h : b.SlidesTo c s t) :
    next.SlidesTo c t s where
  clear := by
    intro u hu
    rw [helse u hu.ne_right hu.ne_left]
    exact h.clear u hu.symm
  admitted := .inl hs

/-- Where a piece that is no pawn has gone, it can go back from, if it left its square empty. -/
theorem mem_targets_back {kind : PieceKind} {moved moved' captures : Bool} (hkind : kind ≠ .pawn)
    (hs : next.occupant s = none) (helse : ∀ u, u ≠ s → u ≠ t → next.occupant u = b.occupant u)
    (h : t ∈ b.targets ⟨⟨c, kind⟩, s, moved⟩ captures) :
    s ∈ next.targets ⟨⟨c, kind⟩, t, moved'⟩ captures := by
  unfold targets at h ⊢
  cases kind with
  | pawn => exact absurd rfl hkind
  | knight => exact mem_steps_back (fun _ => Square.neg_mem_knightShifts) hs h
  | bishop =>
    obtain ⟨hne, hline, hslides⟩ := mem_diagonal_slides_iff.mp h
    exact mem_diagonal_slides_iff.mpr ⟨hne.symm, hline.symm, hslides.back hs helse⟩
  | rook =>
    obtain ⟨hne, hline, hslides⟩ := mem_straight_slides_iff.mp h
    exact mem_straight_slides_iff.mpr ⟨hne.symm, hline.symm, hslides.back hs helse⟩
  | queen =>
    obtain ⟨hne, hline, hslides⟩ := mem_king_slides_iff.mp h
    exact mem_king_slides_iff.mpr ⟨hne.symm, hline.imp .symm .symm, hslides.back hs helse⟩
  | king => exact mem_steps_back (fun _ => Square.neg_mem_kingShifts) hs h

section Quiet

variable (hkind : m.kind ≠ .pawn) (hquiet : m.capture = false)
include hquiet

private theorem Allows.target_vacant (h : b.Allows m c p) : b.occupant m.target = none := by
  have hsome := (markAgrees_iff.mp h.marked).1
  rwa [hquiet, Option.isSome_eq_false_iff, Option.isNone_iff_eq_none] at hsome

include hkind

theorem Allows.back (h : b.Allows m c p) (hp : p.square = m.source) :
    (b.after (.move m c)).Allows m.back c ⟨⟨c, m.kind⟩, m.target, true⟩ := by
  have hne := h.source_ne_target
  have hsource : (b.after (.move m c)).occupant m.source = none := by
    rw [h.occupant_after, if_neg hne, if_pos rfl]
  have helse (u : Square) (hs : u ≠ m.source) (ht : u ≠ m.target) :
      (b.after (.move m c)).occupant u = b.occupant u := by
    rw [h.occupant_after, if_neg ht, if_neg hs]
  have hpiece : p = ⟨⟨c, m.kind⟩, m.source, p.moved⟩ := by rw [← h.named, ← hp]
  have hreached := mem_reach_iff.mp h.reached
  rw [hpiece, hquiet] at hreached
  refine ⟨?_, rfl, .inl ⟨hsource, rfl⟩, ?_⟩
  · rw [h.occupant_after]
    exact if_pos rfl
  · exact mem_reach_iff.mpr (mem_targets_back hkind hsource helse hreached)

private theorem Allows.after_back (h : b.Allows m c p) (hp : p.square = m.source) :
    (b.after (.move m c)).after (.move m.back c) =
      b.put m.source (some { p with moved := true }) := by
  have hpiece : { p with moved := true } = (⟨⟨c, m.kind⟩, m.source, true⟩ : Piece) := by
    rw [← h.named, ← hp]
  apply ext_occupant
  intro u
  rw [(h.back hkind hquiet hp).occupant_after, h.occupant_after, occupant_put, hpiece]
  change (if u = m.source then _ else if u = m.target then _ else _) = _
  by_cases hs : u = m.source
  · rw [if_pos hs, if_pos hs]
    rfl
  · by_cases ht : u = m.target
    · simp [ht, h.source_ne_target.symm, h.target_vacant hquiet]
    · simp [hs, ht]

end Quiet

/-- A movement of a piece other than a pawn that captures nothing can be taken back by the opposite
movement, and then the board is what it was, except that the piece counts as moved. -/
theorem quiet_movement_taken_back (os : List Operation) (m : Movement) (c : Color)
    (hkind : m.kind ≠ .pawn) (hquiet : m.capture = false) :
    let b := empty.afterAll os
    let next := b.after (.move m c)
    (b.move m c).isOk = true →
      (next.move m.back c).isOk = true ∧
      ∃ p, b.occupant m.source = some p ∧
        next.after (.move m.back c) = b.put m.source (some { p with moved := true }) := by
  intro b next hplayed
  have hseated : b.Seated := seated_empty.afterAll os
  obtain ⟨p, hp⟩ := isOk_move_iff.mp hplayed
  have hsquare : p.square = m.source := hseated m.source p hp.stands
  exact ⟨isOk_move_iff.mpr ⟨_, hp.back hkind hquiet hsquare⟩, p, hp.stands,
    hp.after_back hkind hquiet hsquare⟩

/-- A queen goes out along a diagonal between two pieces and comes back. -/
theorem queen_comes_back :
    let b := empty.afterAll [.placeToken "Qld1", .placeToken "Kle1", .placeToken "pdh5"]
    let m : Movement := ⟨.queen, ⟨0, 3⟩, ⟨3, 6⟩, false⟩
    let next := b.after (.move m .white)
    (m.kind ≠ .pawn ∧ m.capture = false ∧ (b.move m .white).isOk = true) ∧
      m.back = ⟨.queen, ⟨3, 6⟩, ⟨0, 3⟩, false⟩ ∧ (next.move m.back .white).isOk = true ∧
      next.after (.move m.back .white) =
        b.put ⟨0, 3⟩ (some ⟨⟨.white, .queen⟩, ⟨0, 3⟩, true⟩) := by
  intro b m next
  have hkind : m.kind ≠ .pawn := by decide
  have hplayed : (b.move m .white).isOk = true := by decide +kernel
  obtain ⟨hback, p, hp, hafter⟩ := quiet_movement_taken_back
    [.placeToken "Qld1", .placeToken "Kle1", .placeToken "pdh5"] m .white hkind rfl hplayed
  have hqueen : b.occupant m.source = some ⟨⟨.white, .queen⟩, ⟨0, 3⟩, false⟩ := by decide +kernel
  obtain rfl := Option.some.inj (hp.symm.trans hqueen)
  exact ⟨⟨hkind, rfl, hplayed⟩, rfl, hback, hafter⟩

end Board

end Scoresheet
