import Scoresheet.Piece
/-!
# The board

A board holds at most one piece on each of its 64 squares. Every operation is known by what it does to
`occupant`, and two boards with the same occupants are equal.
-/
namespace Scoresheet

/-- The occupants of the squares, in the order of the squares. -/
structure Board where
  cells : Vector (Option Piece) 64
deriving DecidableEq, Repr

namespace Board

def empty : Board := ⟨Vector.replicate 64 none⟩

def occupant (b : Board) (s : Square) : Option Piece := b.cells[s.index]

def put (b : Board) (s : Square) (p : Option Piece) : Board := ⟨b.cells.set s.index p⟩

@[simp] theorem occupant_empty (s : Square) : empty.occupant s = none := by
  simp [empty, occupant]

theorem occupant_put (b : Board) (s t : Square) (p : Option Piece) :
    (b.put s p).occupant t = if t = s then p else b.occupant t := by
  simp only [occupant, put, Fin.getElem_fin]
  rw [Vector.getElem_set]
  by_cases h : t = s
  · simp [h]
  · have hi : s.index.val ≠ t.index.val := fun hi => h (Square.index_injective (Fin.ext hi)).symm
    simp [h, hi]

@[simp] theorem occupant_put_self (b : Board) (s : Square) (p : Option Piece) :
    (b.put s p).occupant s = p := by simp [occupant_put]

theorem occupant_put_of_ne {s t : Square} (h : t ≠ s) (b : Board) (p : Option Piece) :
    (b.put s p).occupant t = b.occupant t := by simp [occupant_put, h]

theorem ext_occupant {a b : Board} (h : ∀ s, a.occupant s = b.occupant s) : a = b := by
  obtain ⟨xs⟩ := a
  obtain ⟨ys⟩ := b
  congr 1
  apply Vector.ext
  intro i hi
  have hs := h ⟨⟨i / 8, by omega⟩, ⟨i % 8, by omega⟩⟩
  have hix : 8 * (i / 8) + i % 8 = i := by omega
  simpa [occupant, Square.index, hix] using hs

def pieces (b : Board) : List Piece := Square.all.filterMap b.occupant

def count (b : Board) : Nat := b.pieces.length

def isEmpty (b : Board) : Bool := b.pieces.isEmpty

/-- Puts a new piece on its square. A piece that stood there is replaced without a word: whoever sets up
a position is trusted. -/
def place (b : Board) (p : Placement) : Board := b.put p.square (some p.piece)

/-- Moves whatever stands on the first square to the second. Nothing happens when the first is
empty; what stood on the second is gone. -/
def relocate (b : Board) (source target : Square) : Board :=
  match b.occupant source with
  | none => b
  | some p => (b.put source none).put target (some (p.movedTo target))

theorem mem_pieces_iff {b : Board} {p : Piece} : p ∈ b.pieces ↔ ∃ s, b.occupant s = some p := by
  simp [pieces]

theorem occupant_place (b : Board) (p : Placement) (t : Square) :
    (b.place p).occupant t = if t = p.square then some p.piece else b.occupant t :=
  occupant_put ..

theorem relocate_of_vacant {b : Board} {source target : Square} (h : b.occupant source = none) :
    b.relocate source target = b := by
  simp [relocate, h]

theorem occupant_relocate {b : Board} {source target : Square} {p : Piece}
    (h : b.occupant source = some p) (t : Square) :
    (b.relocate source target).occupant t =
      if t = target then some (p.movedTo target)
      else if t = source then none else b.occupant t := by
  simp only [relocate, h, occupant_put]

end Board

end Scoresheet
