import Scoresheet.Board.Diagram
import Scoresheet.Proofs.Board.Operation
/-!
# Pieces know their squares

A piece carries the square that it stands on, and a board is seated if every piece carries the right
one. No operation unseats a board. On a seated board the list of pieces and the shown position, both
of which go by what the pieces say, are the occupants of the squares.
-/
namespace Scoresheet

namespace Square

/-- Whether a square comes before another: on a lower rank, or further left on the same rank. -/
def Before (s t : Square) : Prop := s.rank < t.rank ∨ s.rank = t.rank ∧ s.file < t.file

private theorem before_iff_index_lt {s t : Square} : s.Before t ↔ s.index < t.index := by
  obtain ⟨r, f⟩ := s
  obtain ⟨r', f'⟩ := t
  simp only [Before, index, Fin.lt_def, Fin.ext_iff]
  omega

theorem Before.ne {s t : Square} (h : s.Before t) : s ≠ t := by
  rintro rfl
  exact Nat.lt_irrefl _ (before_iff_index_lt.mp h)

end Square

namespace Board

/-- Whether every piece carries the square on which it stands. -/
def Seated (b : Board) : Prop := ∀ s p, b.occupant s = some p → p.square = s

theorem seated_empty : empty.Seated := by
  intro s p h
  simp at h

theorem Seated.put {b : Board} (h : b.Seated) {s : Square} {found : Option Piece}
    (hs : ∀ p, found = some p → p.square = s) : (b.put s found).Seated := by
  intro t p ht
  rw [occupant_put] at ht
  split at ht
  · next he => rw [he, hs p ht]
  · exact h t p ht

theorem Seated.place {b : Board} (h : b.Seated) (p : Placement) : (b.place p).Seated := by
  apply h.put
  rintro q hq
  rw [← Option.some.inj hq]
  rfl

theorem Seated.relocate {b : Board} (h : b.Seated) (source target : Square) :
    (b.relocate source target).Seated := by
  unfold Board.relocate
  split
  · exact h
  · apply (h.put (by simp)).put
    intro p hp
    rw [← Option.some.inj hp]
    rfl

theorem Seated.castle {b : Board} (h : b.Seated) (side : CastleSide) (c : Color) :
    (b.castle side c).Seated := by
  unfold Board.castle
  split
  · exact (h.relocate _ _).relocate _ _
  · exact h

theorem Seated.move {b next : Board} {m : Movement} {c : Color} (h : b.Seated)
    (hm : b.move m c = .ok next) : next.Seated := by
  rw [← (move_eq_ok_iff.mp hm).2]
  exact h.relocate _ _

/-- No run of operations unseats a board. -/
theorem Seated.afterAll {b : Board} (h : b.Seated) (os : List Operation) :
    (b.afterAll os).Seated := by
  apply afterAll_induction (P := Seated) _ _ _ h
  · intro b p hb
    exact hb.place p
  · intro b m c next hm hb
    exact hb.move hm
  · intro b side c hb
    exact hb.castle side c

theorem Seated.mem_pieces_iff {b : Board} (h : b.Seated) {p : Piece} :
    p ∈ b.pieces ↔ b.occupant p.square = some p := by
  rw [Board.mem_pieces_iff]
  constructor
  · rintro ⟨s, hs⟩
    rw [h s p hs, hs]
  · intro hp
    exact ⟨p.square, hp⟩

private theorem Seated.map_square_pieces {b : Board} (h : b.Seated) :
    b.pieces.map (fun p => p.square) = Square.all.filter fun s => (b.occupant s).isSome := by
  unfold pieces
  induction Square.all with
  | nil => rfl
  | cons s squares ih =>
    cases hs : b.occupant s with
    | none => simp [hs, ih]
    | some p => simp [hs, ih, h s p hs]

theorem Seated.pairwise_pieces {b : Board} (h : b.Seated) :
    b.pieces.Pairwise fun p q => p.square.Before q.square := by
  have hs : (b.pieces.map fun p => p.square).Pairwise Square.Before := by
    rw [h.map_square_pieces]
    exact (Square.pairwise_all.imp fun ht => Square.before_iff_index_lt.mpr ht).filter _
  exact List.pairwise_map.mp hs

private theorem Seated.find?_pieces {b : Board} (h : b.Seated) (s : Square) :
    (b.pieces.reverse.find? fun p => p.square == s) = b.occupant s := by
  cases hf : b.pieces.reverse.find? fun p => p.square == s with
  | none =>
    cases hs : b.occupant s with
    | none => rfl
    | some p =>
      have hp : p ∈ b.pieces.reverse := List.mem_reverse.mpr (Board.mem_pieces_iff.mpr ⟨s, hs⟩)
      have hne := List.find?_eq_none.mp hf p hp
      simp [h s p hs] at hne
  | some p =>
    have hp := h.mem_pieces_iff.mp (List.mem_reverse.mp (List.mem_of_find?_eq_some hf))
    have hs := List.find?_some hf
    rw [← beq_iff_eq.mp hs, hp]

theorem length_diagram (b : Board) : b.diagram.length = 9 := by
  simp [diagram]

theorem Seated.shown_eq {b : Board} (h : b.Seated) (s : Square) :
    b.shown s = (b.occupant s).map fun p => p.toChessman := by
  rw [shown, h.find?_pieces]

/-- After any operations, rejected and unreadable ones and unjudged castles included, every piece
carries its square. The list of pieces therefore has each occupied square once, by rank and then by
file, and the shown position is that of the occupants. -/
theorem pieces_know_their_squares (os : List Operation) :
    let b := empty.afterAll os
    (∀ s p, b.occupant s = some p → p.square = s) ∧
      (∀ p, p ∈ b.pieces ↔ b.occupant p.square = some p) ∧
      (b.pieces.map fun p => p.square) = Square.all.filter (fun s => (b.occupant s).isSome) ∧
      (b.pieces.Pairwise fun p q => p.square.Before q.square) ∧
      ∀ s, b.shown s = (b.occupant s).map fun p => p.toChessman := by
  have h : (empty.afterAll os).Seated := seated_empty.afterAll os
  refine ⟨h, ?_, h.map_square_pieces, h.pairwise_pieces, h.shown_eq⟩
  intro p
  exact h.mem_pieces_iff

end Board

end Scoresheet
