import Scoresheet.Proofs.Board.Playing
import Scoresheet.Proofs.Board.Seating
/-!
# Reading the diagram

The rows of the diagram are read back square by square: each has its character in the row of its
rank, and no two chessmen have the same glyph. So two boards have one diagram exactly if the same
chessmen stand on the same squares. Whoever moves leaves a square vacant behind him, so every
movement and every castle can be seen.
-/
namespace Scoresheet

namespace Chessman

def all : List Chessman :=
  [Color.white, Color.black].flatMap fun c => PieceKind.all.map (Chessman.mk c)

def ofGlyph? (c : Char) : Option Chessman := all.find? fun man => man.glyph == c

@[simp] theorem ofGlyph?_glyph (man : Chessman) : ofGlyph? man.glyph = some man := by
  obtain ⟨c, kind⟩ := man
  cases c <;> cases kind <;> decide

private theorem ofGlyph?_space : ofGlyph? ' ' = none := by decide

end Chessman

namespace Diagram

/-- The character that rows of text have for a square, the eighth rank on top. -/
def charAt? (rows : List String) (s : Square) : Option Char :=
  rows[7 - s.rank.val]?.bind fun row => row.toList[2 + 2 * s.file.val]?

def manAt? (rows : List String) (s : Square) : Option Chessman :=
  (charAt? rows s).bind Chessman.ofGlyph?

private theorem getElem?_barred {α : Type} (char : α → Char) (bar : Char) (xs : List α) (i : Nat) :
    (xs.flatMap fun x => [char x, bar])[2 * i]? = xs[i]?.map char := by
  induction xs generalizing i with
  | nil => simp
  | cons x xs ih =>
    cases i with
    | zero => simp
    | succ i =>
      have hnext : 2 * (i + 1) = 2 * i + 1 + 1 := by omega
      rw [hnext, List.flatMap_cons]
      simpa using ih i

private theorem getElem?_ranks (rank : Fin 8) :
    (List.finRange 8).reverse[7 - rank.val]? = some rank := by
  revert rank
  decide

end Diagram

namespace Board

open Diagram

variable {b next : Board} {side : CastleSide} {c : Color}

private theorem charAt?_diagram (b : Board) (s : Square) :
    charAt? b.diagram s = some (b.shownChar s) := by
  have hrow : b.diagram[7 - s.rank.val]? = some (b.rankRow s.rank) := by
    have hlt : 7 - s.rank.val < ((List.finRange 8).reverse.map b.rankRow).length := by
      simp
      omega
    rw [diagram, List.getElem?_append_left hlt, List.getElem?_map, getElem?_ranks, Option.map_some]
  have hplace : 2 + 2 * s.file.val = 2 * s.file.val + 1 + 1 := by omega
  rw [charAt?, hrow, Option.bind_some, rankRow, String.toList_ofList, hplace,
    List.getElem?_cons_succ, List.getElem?_cons_succ, getElem?_barred]
  simp

private theorem manAt?_diagram (b : Board) (s : Square) : manAt? b.diagram s = b.shown s := by
  rw [manAt?, charAt?_diagram, Option.bind_some, shownChar]
  cases b.shown s with
  | none => exact Chessman.ofGlyph?_space
  | some man => exact Chessman.ofGlyph?_glyph man

private theorem diagram_eq_iff : b.diagram = next.diagram ↔ ∀ s, b.shown s = next.shown s := by
  constructor
  · intro h s
    rw [← manAt?_diagram, h, manAt?_diagram]
  · intro h
    have hchar : b.shownChar = next.shownChar := by
      funext s
      rw [shownChar, shownChar, h]
    have hrow : b.rankRow = next.rankRow := by
      funext rank
      rw [rankRow, rankRow, hchar]
    rw [diagram, diagram, hrow]

private theorem Seated.diagram_ne (hb : b.Seated) (hnext : next.Seated) {s : Square} {p : Piece}
    (hs : b.occupant s = some p) (hleft : next.occupant s = none) : next.diagram ≠ b.diagram := by
  intro h
  have hshown := diagram_eq_iff.mp h s
  rw [hb.shown_eq, hnext.shown_eq, hs, hleft] at hshown
  cases hshown

private theorem Seated.diagram_ne_of_move (hb : b.Seated) {m : Movement}
    (h : b.move m c = .ok next) :
    next.diagram ≠ b.diagram := by
  obtain ⟨hr, hnext⟩ := move_eq_ok_iff.mp h
  obtain ⟨p, hp, hne, -⟩ := squares_of_accepted hr
  apply hb.diagram_ne (hb.move h) hp
  rw [← hnext, occupant_relocate hp, if_neg hne, if_pos rfl]

private theorem Seated.diagram_castle_iff (hb : b.Seated) (side : CastleSide) (c : Color) :
    (b.castle side c).diagram = b.diagram ↔ b.castleReady side c = false := by
  constructor
  · intro h
    rw [← Bool.not_eq_true]
    intro hready
    obtain ⟨king, rook, hk, hr⟩ := castleReady_iff.mp hready
    exact hb.diagram_ne (hb.castle side c) hk (castledTo_castle hk hr).kingHome h
  · intro h
    rw [castle_of_not_castleReady h]

private theorem castleReady_of_canCastle (h : b.canCastle side c = true) :
    b.castleReady side c = true := by
  obtain ⟨king, rook, hk, hr, -⟩ := canCastle_iff.mp h
  exact castleReady_iff.mpr ⟨king, rook, hk, hr⟩

private theorem Seated.diagram_ne_of_intend (hb : b.Seated) {i : Intent}
    (h : b.intend i c = .ok next) :
    next.diagram ≠ b.diagram := by
  cases i with
  | move source target =>
    obtain ⟨m, -, hm⟩ := intend_move_eq_ok_iff.mp h
    exact hb.diagram_ne_of_move hm
  | castle side =>
    obtain ⟨hcan, hnext⟩ := intend_castle_eq_ok_iff.mp h
    rw [← hnext, ne_eq, hb.diagram_castle_iff, castleReady_of_canCastle hcan]
    simp

/-- After any operations, the diagram has the glyph of each piece on its square and a blank on every
other, and nothing else: it is that of another board exactly if the same chessmen stand on the same
squares. Every accepted movement and castle changes it; a castle that nobody judged does unless it
finds a home square vacant. -/
theorem diagram_shows_board_alone (os ps : List Operation) :
    let b := empty.afterAll os
    let other := empty.afterAll ps
    b.diagram.length = 9 ∧
    (∀ s, charAt? b.diagram s = some ((b.occupant s).elim ' ' fun p => p.toChessman.glyph)) ∧
    (∀ s, manAt? b.diagram s = (b.occupant s).map fun p => p.toChessman) ∧
    (b.diagram = other.diagram ↔ ∀ s, ((b.occupant s).map fun p => p.toChessman) =
      (other.occupant s).map fun p => p.toChessman) ∧
    (∀ m c next, b.move m c = .ok next → next.diagram ≠ b.diagram) ∧
    (∀ i c next, b.intend i c = .ok next → next.diagram ≠ b.diagram) ∧
    (∀ side c, b.canCastle side c = true → (b.castle side c).diagram ≠ b.diagram) ∧
    ∀ side c, (b.castle side c).diagram = b.diagram ↔ b.castleReady side c = false := by
  intro b other
  have hb : b.Seated := seated_empty.afterAll os
  have hother : other.Seated := seated_empty.afterAll ps
  refine ⟨length_diagram b, ?_, ?_, ?_, fun m c next => hb.diagram_ne_of_move,
    fun i c next => hb.diagram_ne_of_intend, ?_, hb.diagram_castle_iff⟩
  · intro s
    rw [charAt?_diagram, shownChar, hb.shown_eq]
    cases b.occupant s <;> rfl
  · intro s
    rw [manAt?_diagram, hb.shown_eq]
  · simp only [diagram_eq_iff, hb.shown_eq, hother.shown_eq]
  · intro side c hcan h
    rw [hb.diagram_castle_iff, castleReady_of_canCastle hcan] at h
    cases h

/-- A captured piece is replaced on its square. -/
theorem capture_shown_by_diagram :
    let b := empty.afterAll [.placeToken "Ple4", .placeToken "Pdd5"]
    let next := empty.afterAll [.placeToken "Ple4", .placeToken "Pdd5", .moveToken "e4xd5" .white]
    b.move ⟨.pawn, ⟨3, 4⟩, ⟨4, 3⟩, true⟩ .white = .ok next ∧ next.diagram ≠ b.diagram := by
  intro b next
  have hmove : b.move ⟨.pawn, ⟨3, 4⟩, ⟨4, 3⟩, true⟩ .white = .ok next := rfl
  obtain ⟨-, -, -, -, hseen, -⟩ :=
    diagram_shows_board_alone [.placeToken "Ple4", .placeToken "Pdd5"] []
  exact ⟨hmove, hseen _ _ _ hmove⟩

end Board

end Scoresheet
