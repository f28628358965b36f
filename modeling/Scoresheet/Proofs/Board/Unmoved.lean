import Scoresheet.Proofs.Board.Playing
/-!
# Pieces that have not moved

Play never brings an unmoved piece to a square: whatever comes to rest on one has moved. So the
unmoved pieces that are left are those of the start, on their squares, and a castle, which empties
both home squares, leaves none there for good.
-/
namespace Scoresheet.Board

def unmoved? (b : Board) (s : Square) : Option Piece := (b.occupant s).filter fun p => !p.moved

variable {b next : Board} {o : Operation} {s : Square} {p : Piece} {side : CastleSide} {c : Color}

private theorem unmoved?_eq_some_iff :
    b.unmoved? s = some p ↔ b.occupant s = some p ∧ p.moved = false := by
  rw [unmoved?, Option.filter_eq_some_iff, Bool.not_eq_true']

private theorem unmoved?_eq_none_iff :
    b.unmoved? s = none ↔ ∀ p, b.occupant s = some p → p.moved = true := by
  rw [unmoved?, Option.filter_eq_none_iff]
  simp

private theorem unmoved?_of_relocate {source target : Square}
    (h : (b.relocate source target).unmoved? s = some p) : b.unmoved? s = some p := by
  obtain ⟨hp, hm⟩ := unmoved?_eq_some_iff.mp h
  cases hsource : b.occupant source with
  | none => rwa [relocate_of_vacant hsource] at h
  | some mover =>
    rw [occupant_relocate hsource] at hp
    split at hp
    · -- what arrives on the target has moved
      obtain rfl := Option.some.inj hp
      cases hm
    · split at hp
      · cases hp
      · exact unmoved?_eq_some_iff.mpr ⟨hp, hm⟩

private theorem unmoved?_of_effect (he : b.Effect o next) (h : next.unmoved? s = some p) :
    b.unmoved? s = some p := by
  cases he with
  | idle hp hc => exact h
  | moved m c hp hc hr => exact unmoved?_of_relocate h
  | castled side c hp hc hr =>
    rw [castle_of_castleReady hr] at h
    exact unmoved?_of_relocate (unmoved?_of_relocate h)

/-- Along a run without placements every unmoved piece has been on its square from the start. -/
theorem unmoved?_of_afterAll {run : List Operation} (hrun : ∀ o ∈ run, o.isPlacement = false)
    (h : (b.afterAll run).unmoved? s = some p) : b.unmoved? s = some p := by
  let P (next : Board) : Prop := next.unmoved? s = some p → b.unmoved? s = some p
  have hkeep (mid : Board) (o : Operation) (next : Board) (he : mid.Effect o next)
      (hmid : P mid) : P next := fun hnext => hmid (unmoved?_of_effect he hnext)
  exact afterAll_of_effect hkeep hrun id h

private theorem unmoved?_afterAll_eq_none {run : List Operation}
    (hrun : ∀ o ∈ run, o.isPlacement = false) (h : b.unmoved? s = none) :
    (b.afterAll run).unmoved? s = none := by
  cases hlater : (b.afterAll run).unmoved? s with
  | none => rfl
  | some p =>
    have hp := unmoved?_of_afterAll hrun hlater
    rw [h] at hp
    cases hp

private theorem canCastle_eq_false_of_unmoved? (hk : b.unmoved? c.kingHome = none)
    (hr : b.unmoved? (c.rookHome side) = none) : b.canCastle side c = false := by
  cases h : b.canCastle side c with
  | false => rfl
  | true =>
    obtain ⟨king, rook, hking, hrook, _, hmoved, _⟩ := canCastle_iff.mp h
    have hk' : king.moved = true := unmoved?_eq_none_iff.mp hk king hking
    have hr' : rook.moved = true := unmoved?_eq_none_iff.mp hr rook hrook
    simp [hk', hr'] at hmoved

private theorem occupant_after_castled (ho : o.isPlacement = false)
    (h : b.castled? o = some (side, c)) :
    ∃ king rook, b.occupant c.kingHome = some king ∧ b.occupant (c.rookHome side) = some rook ∧
      (b.after o).occupant (c.kingCastled side) = some (king.movedTo (c.kingCastled side)) ∧
      (b.after o).occupant (c.rookCastled side) = some (rook.movedTo (c.rookCastled side)) ∧
      (b.after o).occupant c.kingHome = none ∧ (b.after o).occupant (c.rookHome side) = none := by
  have he := effect_after (b := b) ho
  generalize b.after o = next at he
  cases he with
  | idle hp hc => simp [hc] at h
  | moved m c hp hc hr => simp [hc] at h
  | castled side' c' hp hc hr =>
    obtain ⟨rfl, rfl⟩ : side' = side ∧ c' = c := by simpa [hc] using h
    obtain ⟨king, rook, hk, hrook⟩ := castleReady_iff.mp hr
    have hdone := castledTo_castle hk hrook
    exact ⟨king, rook, hk, hrook, hdone.king, hdone.rook, hdone.kingHome, hdone.rookHome⟩

/-- Along a run without placements the squares with unmoved pieces become fewer and keep their
pieces. Once a castle has moved its two pieces it is closed in every later state. -/
theorem unmoved_shrink_so_castle_stays_closed (b : Board) (run : List Operation)
    (hrun : ∀ o ∈ run, o.isPlacement = false) :
    (∀ first rest, run = first ++ rest → ∀ s p,
      (b.afterAll run).unmoved? s = some p →
        (b.afterAll first).unmoved? s = some p ∧ b.unmoved? s = some p) ∧
    ∀ first o rest side c, run = first ++ o :: rest →
      (b.afterAll first).castled? o = some (side, c) →
      (∃ king rook,
        (b.afterAll first).occupant c.kingHome = some king ∧
        (b.afterAll first).occupant (c.rookHome side) = some rook ∧
        ((b.afterAll first).after o).occupant (c.kingCastled side) =
          some (king.movedTo (c.kingCastled side)) ∧
        ((b.afterAll first).after o).occupant (c.rookCastled side) =
          some (rook.movedTo (c.rookCastled side))) ∧
      ∀ later, later <+: rest → (b.afterAll (first ++ o :: later)).canCastle side c = false := by
  constructor
  · rintro first rest rfl s p hp
    have hfirst : ∀ o ∈ first, o.isPlacement = false := fun o h => hrun o (by simp [h])
    have hrest : ∀ o ∈ rest, o.isPlacement = false := fun o h => hrun o (by simp [h])
    rw [afterAll_append] at hp
    have hmid := unmoved?_of_afterAll hrest hp
    exact ⟨hmid, unmoved?_of_afterAll hfirst hmid⟩
  · rintro first o rest side c rfl hcastled
    have ho : o.isPlacement = false := hrun o (by simp)
    obtain ⟨king, rook, hk, hr, hk', hr', hkHome, hrHome⟩ := occupant_after_castled ho hcastled
    refine ⟨⟨king, rook, hk, hr, hk', hr'⟩, ?_⟩
    intro later hlater
    have hrest : ∀ o ∈ later, o.isPlacement = false := by
      intro o hmem
      apply hrun o
      simp [hlater.subset hmem]
    have hking : ((b.afterAll first).after o).unmoved? c.kingHome = none := by
      simp [unmoved?, hkHome]
    have hrook : ((b.afterAll first).after o).unmoved? (c.rookHome side) = none := by
      simp [unmoved?, hrHome]
    rw [afterAll_append, afterAll_cons]
    exact canCastle_eq_false_of_unmoved? (unmoved?_afterAll_eq_none hrest hking)
      (unmoved?_afterAll_eq_none hrest hrook)

/-- White castles, and king and rook walk back to their home squares: the castle stays closed. -/
theorem castle_closed_after_return :
    let b := empty.afterAll [.placeToken "Kle1", .placeToken "Rlh1"]
    let back : List Operation := [.moveToken "Rf1-f2" .white, .moveToken "Kg1-f1" .white,
      .moveToken "Kf1-e1" .white, .moveToken "Rf2-h2" .white, .moveToken "Rh2-h1" .white]
    let o := Operation.castleToken "O-O" .white
    (∀ o' ∈ o :: back, o'.isPlacement = false) ∧ b.canCastle .king .white = true ∧
      b.castled? o = some (.king, .white) ∧
      ((b.afterAll (o :: back)).occupant (Color.white.kingHome)).map (·.toChessman) =
        some ⟨.white, .king⟩ ∧
      ((b.afterAll (o :: back)).occupant (Color.white.rookHome .king)).map (·.toChessman) =
        some ⟨.white, .rook⟩ ∧
      (b.afterAll (o :: back)).canCastle .king .white = false := by
  intro b back o
  have hrun : ∀ o' ∈ o :: back, o'.isPlacement = false := by decide
  have hcastled : b.castled? o = some (.king, .white) := by decide +kernel
  obtain ⟨_, hclosed⟩ := unmoved_shrink_so_castle_stays_closed b (o :: back) hrun
  obtain ⟨_, hlater⟩ := hclosed [] o back .king .white rfl hcastled
  refine ⟨hrun, by decide +kernel, hcastled, by decide +kernel, by decide +kernel, ?_⟩
  exact hlater back (List.prefix_refl back)

end Scoresheet.Board
