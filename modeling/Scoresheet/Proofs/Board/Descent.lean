import Scoresheet.Proofs.Board.Playing
/-!
# Where pieces come from

A piece on a later board is followed back, square by square, to the piece of an earlier board that
it was. Play never makes two of one, and changes neither color nor kind.
-/
namespace Scoresheet

/-- The square on which something stood before a relocation, given where it stands after it. -/
def Square.cameFrom (source target s : Square) : Square := if s = target then source else s

namespace Board

/-- Whether the pieces of a later board are, each on the square that it came from, different pieces
of an earlier one with the same color and kind. -/
structure Descends (origin : Square → Square) (earlier later : Board) : Prop where
  same : ∀ s q, later.occupant s = some q →
    ∃ p, earlier.occupant (origin s) = some p ∧ q.toChessman = p.toChessman
  apart : ∀ s t q r, later.occupant s = some q → later.occupant t = some r →
    origin s = origin t → s = t

/-- The square from which a piece came to the square on which it stands after an operation. -/
def origin (b : Board) (o : Operation) : Square → Square :=
  match b.played? o, b.castled? o with
  | some (m, _), _ => Square.cameFrom m.source m.target
  | none, some (side, c) =>
    Square.cameFrom c.kingHome (c.kingCastled side) ∘
      Square.cameFrom (c.rookHome side) (c.rookCastled side)
  | none, none => id

/-- The square from which a piece came to the square on which it stands after a run. -/
def originAll (b : Board) : List Operation → Square → Square
  | [] => id
  | o :: os => b.origin o ∘ (b.after o).originAll os

variable {a b d : Board} {f g : Square → Square} {o : Operation}

theorem Descends.refl (b : Board) : Descends id b b := by
  refine ⟨?_, ?_⟩
  · intro s q hq
    exact ⟨q, hq, rfl⟩
  · intro s t q r _ _ hst
    exact hst

theorem Descends.trans (h : Descends f a b) (h' : Descends g b d) : Descends (f ∘ g) a d := by
  refine ⟨?_, ?_⟩
  · intro s q hq
    obtain ⟨p, hp, hqp⟩ := h'.same s q hq
    obtain ⟨first, hfirst, hpf⟩ := h.same (g s) p hp
    exact ⟨first, hfirst, hqp.trans hpf⟩
  · intro s t q r hq hr hst
    obtain ⟨p, hp, _⟩ := h'.same s q hq
    obtain ⟨p', hp', _⟩ := h'.same t r hr
    have hmid : g s = g t := h.apart (g s) (g t) p p' hp hp' hst
    exact h'.apart s t q r hq hr hmid

theorem descends_relocate {source target : Square} {p : Piece} (hp : b.occupant source = some p)
    (hne : source ≠ target) :
    Descends (Square.cameFrom source target) b (b.relocate source target) := by
  have hocc (t : Square) : (b.relocate source target).occupant t =
      if t = target then some (p.movedTo target) else if t = source then none else b.occupant t :=
    occupant_relocate hp t
  -- nothing is left on the source, so only the piece on the target came from there
  have hsource : (b.relocate source target).occupant source = none := by
    rw [hocc, if_neg hne, if_pos rfl]
  refine ⟨?_, ?_⟩
  · intro s q hq
    rw [hocc] at hq
    unfold Square.cameFrom
    split
    · next hs =>
      rw [if_pos hs] at hq
      rw [← Option.some.inj hq]
      exact ⟨p, hp, rfl⟩
    · next hs =>
      rw [if_neg hs] at hq
      split at hq
      · cases hq
      · exact ⟨q, hq, rfl⟩
  · intro s t q r hq hr hst
    unfold Square.cameFrom at hst
    split at hst
    · next hs =>
      split at hst
      · next ht => rw [hs, ht]
      · rw [← hst, hsource] at hr
        cases hr
    · split at hst
      · rw [hst, hsource] at hq
        cases hq
      · exact hst

theorem descends_castle {side : CastleSide} {c : Color} (h : b.castleReady side c = true) :
    Descends (Square.cameFrom c.kingHome (c.kingCastled side) ∘
      Square.cameFrom (c.rookHome side) (c.rookCastled side)) b (b.castle side c) := by
  obtain ⟨king, rook, hk, hr⟩ := castleReady_iff.mp h
  have hr' := (occupant_rookHome_relocate hk).trans hr
  rw [castle_of_castleReady h]
  exact (descends_relocate hk (c.kingCastled_ne_kingHome side).symm).trans
    (descends_relocate hr' (c.rookCastled_ne_rookHome side).symm)

private theorem descends_after (ho : o.isPlacement = false) :
    Descends (b.origin o) b (b.after o) := by
  have he := effect_after (b := b) ho
  generalize b.after o = next at he
  cases he with
  | idle hp hc =>
    have horigin : b.origin o = id := by simp only [origin, hp, hc]
    rw [horigin]
    exact .refl b
  | moved m c hp hc hr =>
    obtain ⟨p, hsource, hne, _⟩ := squares_of_accepted hr
    have horigin : b.origin o = Square.cameFrom m.source m.target := by simp only [origin, hp]
    rw [horigin]
    exact descends_relocate hsource hne
  | castled side c hp hc hr =>
    have horigin : b.origin o = Square.cameFrom c.kingHome (c.kingCastled side) ∘
        Square.cameFrom (c.rookHome side) (c.rookCastled side) := by simp only [origin, hp, hc]
    rw [horigin]
    exact descends_castle hr

/-- Along a run without placements no piece changes its color or kind, and none is made. -/
theorem descends_afterAll {run : List Operation} (hrun : ∀ o ∈ run, o.isPlacement = false) :
    Descends (b.originAll run) b (b.afterAll run) := by
  induction run generalizing b with
  | nil => exact .refl b
  | cons o run ih =>
    have ho : o.isPlacement = false := hrun o List.mem_cons_self
    have hrest : ∀ o ∈ run, o.isPlacement = false := fun o hmem =>
      hrun o (List.mem_cons_of_mem _ hmem)
    exact (descends_after ho).trans (ih hrest)

end Board

end Scoresheet
