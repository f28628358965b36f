import Mathlib.Data.Set.Insert
import Scoresheet.Proofs.Board.Sliding
/-!
# Stepping

Knights and kings step over a fixed distance, wherever no piece of their own side stands. A pawn has a
rule of its own, in which nearly everything counts: whose it is, where it stands, whether it has moved,
what stands before it, and whether it may capture.
-/
namespace Scoresheet

namespace Square

variable {s t : Square} {c : Color} {r f n : Int}

def IsLeap (s t : Square) : Prop :=
  ({(s.ranksTo t).natAbs, (s.filesTo t).natAbs} : Set Nat) = {1, 2}

def IsNeighbor (s t : Square) : Prop :=
  t ≠ s ∧ (s.ranksTo t).natAbs ≤ 1 ∧ (s.filesTo t).natAbs ≤ 1

/-- The ranks from one square to another as a side counts them, White up the board and Black down. -/
def ahead (c : Color) (s t : Square) : Int :=
  match c with
  | .white => s.ranksTo t
  | .black => t.ranksTo s

def OnPawnRank (c : Color) (s : Square) : Prop :=
  rankDigit s.rank = match c with
    | .white => '2'
    | .black => '7'

private theorem mem_knightShifts_iff :
    (r, f) ∈ knightShifts ↔ ({r.natAbs, f.natAbs} : Set Nat) = {1, 2} := by
  rw [Set.pair_eq_pair_iff]
  simp only [knightShifts, List.mem_cons, List.not_mem_nil, or_false, Prod.mk.injEq]
  omega

private theorem mem_kingShifts_iff :
    (r, f) ∈ kingShifts ↔ ¬ (r = 0 ∧ f = 0) ∧ r.natAbs ≤ 1 ∧ f.natAbs ≤ 1 := by
  simp only [kingShifts, straightShifts, diagonalShifts, List.cons_append, List.nil_append,
    List.mem_cons, List.not_mem_nil, or_false, Prod.mk.injEq]
  omega

private theorem isLeap_iff : s.IsLeap t ↔ (s.ranksTo t, s.filesTo t) ∈ knightShifts :=
  mem_knightShifts_iff.symm

private theorem isNeighbor_iff : s.IsNeighbor t ↔ (s.ranksTo t, s.filesTo t) ∈ kingShifts := by
  rw [IsNeighbor, ne_eq, eq_iff, mem_kingShifts_iff]

private theorem offset?_forward_iff :
    s.offset? (n * c.forward) f = some t ↔ ahead c s t = n ∧ s.filesTo t = f := by
  rw [offset?_iff]
  cases c <;> simp only [ahead, Color.forward, ranksTo] <;> omega

private theorem offset?_step_iff :
    s.offset? c.forward f = some t ↔ ahead c s t = 1 ∧ s.filesTo t = f := by
  rw [← offset?_forward_iff, Int.one_mul]

private theorem onPawnRank_iff : OnPawnRank c s ↔ s.rank = c.pawnRank := by
  have hdigits : ∀ rank : Fin 8,
      (rankDigit rank = '2' ↔ rank = 1) ∧ (rankDigit rank = '7' ↔ rank = 6) := by
    decide
  cases c
  · exact (hdigits s.rank).1
  · exact (hdigits s.rank).2

end Square

namespace Board

variable {b : Board} {c : Color} {s t : Square} {p : Piece}

/-- The rule of pawns: one step or two to an empty square straight ahead, or a capture. -/
inductive PawnRule (b : Board) (c : Color) (moved captures : Bool) (s t : Square) : Prop where
  | single (hahead : Square.ahead c s t = 1) (hfile : s.file = t.file)
    (hvacant : b.occupant t = none) : PawnRule b c moved captures s t
  | double (hhome : Square.OnPawnRank c s) (hunmoved : moved = false)
    (hahead : Square.ahead c s t = 2) (hfile : s.file = t.file) (crossed : Square)
    (hcrossed : Square.ahead c s crossed = 1 ∧ s.file = crossed.file)
    (hclear : b.occupant crossed = none) (hvacant : b.occupant t = none) :
    PawnRule b c moved captures s t
  | capture (hcaptures : captures = true) (hahead : Square.ahead c s t = 1)
    (hfile : (s.filesTo t).natAbs = 1) (taken : Piece) (htaken : b.occupant t = some taken)
    (hopposed : taken.color = c.opposite) : PawnRule b c moved captures s t

theorem mem_steps_iff {shifts : List Shift} :
    t ∈ b.steps c s shifts ↔ (s.ranksTo t, s.filesTo t) ∈ shifts ∧ b.admits c t = true := by
  simp only [steps, List.mem_filter, List.mem_filterMap, Square.offset?_iff, and_congr_left_iff]
  intro _
  constructor
  · rintro ⟨shift, hshift, hr, hf⟩
    rwa [hr, hf]
  · intro h
    exact ⟨_, h, rfl, rfl⟩

private theorem advance?_iff {n : Int} :
    (s.offset? (n * c.forward) 0).filter b.isVacant = some t ↔
      Square.ahead c s t = n ∧ s.file = t.file ∧ b.occupant t = none := by
  have hfile : s.filesTo t = 0 ↔ s.file = t.file := by
    rw [Square.filesTo, Fin.ext_iff]
    omega
  rw [Option.filter_eq_some_iff, Square.offset?_forward_iff, hfile, isVacant_iff, and_assoc]

private theorem mem_pawnAdvances_iff :
    t ∈ b.pawnAdvances p ↔
      ∃ one, (p.square.offset? (1 * p.color.forward) 0).filter b.isVacant = some one ∧
        (t = one ∨ (p.moved = false ∧ p.square.rank = p.color.pawnRank) ∧
          (p.square.offset? (2 * p.color.forward) 0).filter b.isVacant = some t) := by
  rw [pawnAdvances, Int.one_mul]
  cases (p.square.offset? p.color.forward 0).filter b.isVacant with
  | none => simp
  | some one =>
    by_cases hhome : p.moved = false ∧ p.square.rank = p.color.pawnRank
    · simp [hhome]
    · have hstays : (!p.moved && p.square.rank == p.color.pawnRank) = false := by
        simpa using hhome
      simp [hstays, hhome]

private theorem mem_pawnCaptures_iff :
    t ∈ b.pawnCaptures p ↔ Square.ahead p.color p.square t = 1 ∧
      (p.square.filesTo t).natAbs = 1 ∧
      ∃ taken, b.occupant t = some taken ∧ taken.color = p.color.opposite := by
  simp only [pawnCaptures, List.mem_filter, List.mem_filterMap, List.mem_cons, List.not_mem_nil,
    or_false, exists_eq_or_imp, exists_eq_left, Square.offset?_step_iff, hasOpponent_iff,
    Color.ne_iff_eq_opposite, ← and_or_left, and_assoc, and_congr_right_iff, and_congr_left_iff]
  omega

/-- The two lists of a pawn's targets are the three cases of its rule. -/
theorem mem_pawn_targets_iff {moved captures : Bool} :
    t ∈ b.targets ⟨⟨c, .pawn⟩, s, moved⟩ captures ↔ b.PawnRule c moved captures s t := by
  have hparts : t ∈ b.targets ⟨⟨c, .pawn⟩, s, moved⟩ captures ↔
      t ∈ b.pawnAdvances ⟨⟨c, .pawn⟩, s, moved⟩ ∨
        captures = true ∧ t ∈ b.pawnCaptures ⟨⟨c, .pawn⟩, s, moved⟩ := by
    cases captures <;> simp [targets]
  simp only [hparts, mem_pawnAdvances_iff, mem_pawnCaptures_iff, advance?_iff,
    ← Square.onPawnRank_iff]
  constructor
  · rintro (⟨one, ⟨hone, hfile, hclear⟩, rfl | ⟨⟨hunmoved, hhome⟩, htwo, hfile', hvacant⟩⟩ |
      ⟨hcaptures, hahead, hfile, taken, htaken, hopposed⟩)
    · exact .single hone hfile hclear
    · exact .double hhome hunmoved htwo hfile' one ⟨hone, hfile⟩ hclear hvacant
    · exact .capture hcaptures hahead hfile taken htaken hopposed
  · intro h
    cases h with
    | single hahead hfile hvacant => exact .inl ⟨t, ⟨hahead, hfile, hvacant⟩, .inl rfl⟩
    | double hhome hunmoved hahead hfile crossed hcrossed hclear hvacant =>
      exact .inl ⟨crossed, ⟨hcrossed.1, hcrossed.2, hclear⟩,
        .inr ⟨⟨hunmoved, hhome⟩, hahead, hfile, hvacant⟩⟩
    | capture hcaptures hahead hfile taken htaken hopposed =>
      exact .inr ⟨hcaptures, hahead, hfile, taken, htaken, hopposed⟩

/-- A knight, whether or not it stands on the board, reaches the squares one rank and two files away,
or two ranks and one file, and a king the squares around it, unless a piece of the own side is there.
Captures need not be considered for them. A pawn goes by its rule. -/
theorem steppers_reach_by_rule (b : Board) (c : Color) (s t : Square) (moved captures : Bool) :
    (t ∈ b.reach ⟨⟨c, .knight⟩, s, moved⟩ captures ↔
      s.IsLeap t ∧ ∀ p, b.occupant t = some p → p.color ≠ c) ∧
    (t ∈ b.reach ⟨⟨c, .king⟩, s, moved⟩ captures ↔
      s.IsNeighbor t ∧ ∀ p, b.occupant t = some p → p.color ≠ c) ∧
    (t ∈ b.reach ⟨⟨c, .pawn⟩, s, moved⟩ captures ↔ b.PawnRule c moved captures s t) := by
  refine ⟨?_, ?_, ?_⟩
  · rw [mem_reach_iff, Square.isLeap_iff, ← admits_iff]
    exact mem_steps_iff
  · rw [mem_reach_iff, Square.isNeighbor_iff, ← admits_iff]
    exact mem_steps_iff
  · rw [mem_reach_iff, mem_pawn_targets_iff]

end Board

end Scoresheet
