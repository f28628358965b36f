import Scoresheet.Proofs.Board.Flipped
import Scoresheet.Proofs.Board.Operation
/-!
# Both sides play by the same rules

Whatever one side can do to a board, the other can do to the flipped board, and what one is refused
the other is refused for the flipped reason. So a run of operations on the flipped board leaves the
flipped board.
-/
namespace Scoresheet

def Movement.flipped (m : Movement) : Movement :=
  ⟨m.kind, m.source.flipped, m.target.flipped, m.capture⟩

def Intent.flipped : Intent → Intent
  | move source target => move source.flipped target.flipped
  | castle side => castle side

namespace Refusal

def flipped : Refusal → Refusal
  | vacantSource source => vacantSource source.flipped
  | otherPiece source found expected => otherPiece source.flipped found.flipped expected.flipped
  | occupiedTarget target occupant => occupiedTarget target.flipped occupant.flipped
  | nothingToCapture target => nothingToCapture target.flipped
  | unreachable man target => unreachable man.flipped target.flipped

end Refusal

def CastleRefusal.flipped (r : CastleRefusal) : CastleRefusal := ⟨r.color.opposite, r.side, r.obstacle⟩

def IntentRefusal.flipped : IntentRefusal → IntentRefusal
  | vacantSource => vacantSource
  | movement reason => movement reason.flipped
  | castle reason => castle reason.flipped

def Objection.flipped : Objection → Objection
  | token error => token error
  | movement reason => movement reason.flipped
  | intent reason => intent reason.flipped

/-- The operation that does the same for the other side. What a token says is flipped; a token that
cannot be read stays as it is. -/
def Operation.flipped : Operation → Operation
  | place p => place p.flipped
  | placeToken token =>
    match Placement.ofToken token with
    | .ok p => place p.flipped
    | .error _ => placeToken token
  | move m c => move m.flipped c.opposite
  | moveToken token c =>
    match Movement.ofToken token with
    | .ok m => move m.flipped c.opposite
    | .error _ => moveToken token c.opposite
  | intend i c => intend i.flipped c.opposite
  | castle side c => castle side c.opposite
  | castleToken token c => castleToken token c.opposite

namespace Board

def flippedOutcome {ε : Type} (reason : ε → ε) (outcome : Except ε Board) : Except ε Board :=
  (outcome.map flipped).mapError reason

private theorem targetRefusal?_flipped (b : Board) (m : Movement) (c : Color) :
    b.flipped.targetRefusal? m.flipped c.opposite = (b.targetRefusal? m c).map Refusal.flipped := by
  simp only [targetRefusal?, Movement.flipped, occupant_flipped]
  cases b.occupant m.target with
  | none =>
    by_cases hc : m.capture
    · simp only [Option.map_none, hc, if_true]
      rfl
    · simp only [Option.map_none, hc]
      rfl
  | some p =>
    simp only [Option.map_some, Piece.color_flipped, Color.beq_opposite]
    split <;> rfl

private theorem refusal?_flipped (b : Board) (m : Movement) (c : Color) :
    b.flipped.refusal? m.flipped c.opposite = (b.refusal? m c).map Refusal.flipped := by
  have hsource : m.flipped.source = m.source.flipped := rfl
  simp only [refusal?, hsource, occupant_flipped, targetRefusal?_flipped]
  cases b.occupant m.source with
  | none => rfl
  | some p =>
    have hreach : (b.flipped.reach p.flipped m.capture).contains m.target.flipped =
        (b.reach p m.capture).contains m.target := by
      rw [Bool.eq_iff_iff, List.contains_iff_mem, List.contains_iff_mem, mem_reach_flipped_iff]
    simp only [Option.map_some, Movement.flipped, Piece.color_flipped, Piece.kind_flipped,
      Color.bne_opposite, hreach]
    split
    · rfl
    · cases b.targetRefusal? m c with
      | some r => rfl
      | none =>
        simp only [Option.map_none]
        split <;> rfl

private theorem move_flipped (b : Board) (m : Movement) (c : Color) :
    b.flipped.move m.flipped c.opposite = flippedOutcome Refusal.flipped (b.move m c) := by
  have hrelocate : b.flipped.relocate m.flipped.source m.flipped.target =
      (b.relocate m.source m.target).flipped := b.relocate_flipped m.source m.target
  rw [move, move, refusal?_flipped, hrelocate]
  cases b.refusal? m c <;> rfl

private theorem movement?_flipped (b : Board) (source target : Square) :
    b.flipped.movement? source.flipped target.flipped =
      (b.movement? source target).map Movement.flipped := by
  rw [movement?, movement?, occupant_flipped, occupant_flipped, Option.isSome_map]
  cases b.occupant source <;> rfl

private theorem castleObstacle?_flipped (b : Board) (side : CastleSide) (c : Color) :
    b.flipped.castleObstacle? side c.opposite = b.castleObstacle? side c := by
  have hpath : ((c.opposite.castlePath side).any fun s => (b.flipped.occupant s).isSome) =
      (c.castlePath side).any fun s => (b.occupant s).isSome := by
    simp only [c.castlePath_opposite, List.any_map, Function.comp_def, occupant_flipped,
      Option.isSome_map]
  have hman (p : Piece) (kind : PieceKind) :
      (p.flipped.toChessman != ⟨c.opposite, kind⟩) = (p.toChessman != ⟨c, kind⟩) := by
    have hman : p.flipped.toChessman = ⟨c.opposite, kind⟩ ↔ p.toChessman = ⟨c, kind⟩ :=
      Chessman.flipped_inj (n := ⟨c, kind⟩)
    rw [Bool.eq_iff_iff, bne_iff_ne, bne_iff_ne, ne_eq, ne_eq, hman]
  simp only [castleObstacle?, c.kingHome_opposite, c.rookHome_opposite, occupant_flipped, hpath]
  cases b.occupant c.kingHome with
  | none => rfl
  | some king =>
    cases b.occupant (c.rookHome side) with
    | none => rfl
    | some rook =>
      simp only [Option.map_some, hman, Piece.moved_flipped]
      rfl

private theorem canCastle_flipped (b : Board) (side : CastleSide) (c : Color) :
    b.flipped.canCastle side c.opposite = b.canCastle side c := by
  rw [canCastle, canCastle, castleObstacle?_flipped]

private theorem castleRefusal?_flipped (b : Board) (side : CastleSide) (c : Color) :
    b.flipped.castleRefusal? side c.opposite =
      (b.castleRefusal? side c).map CastleRefusal.flipped := by
  rw [castleRefusal?, castleRefusal?, castleObstacle?_flipped]
  cases b.castleObstacle? side c <;> rfl

private theorem castle_flipped (b : Board) (side : CastleSide) (c : Color) :
    b.flipped.castle side c.opposite = (b.castle side c).flipped := by
  have hready : b.flipped.castleReady side c.opposite = b.castleReady side c := by
    simp [castleReady, c.kingHome_opposite, c.rookHome_opposite]
  simp only [castle, hready, c.kingHome_opposite, c.rookHome_opposite, c.kingCastled_opposite,
    c.rookCastled_opposite, relocate_flipped]
  split <;> rfl

private theorem intend_flipped (b : Board) (i : Intent) (c : Color) :
    b.flipped.intend i.flipped c.opposite =
      flippedOutcome IntentRefusal.flipped (b.intend i c) := by
  cases i with
  | move source target =>
    simp only [Intent.flipped, intend, movement?_flipped]
    cases b.movement? source target with
    | none => rfl
    | some m =>
      simp only [Option.map_some, move_flipped]
      cases b.move m c <;> rfl
  | castle side =>
    simp only [Intent.flipped, intend, castleRefusal?_flipped, castle_flipped]
    cases b.castleRefusal? side c <;> rfl

private theorem attempt_flipped (b : Board) (o : Operation) :
    b.flipped.attempt o.flipped = flippedOutcome Objection.flipped (b.attempt o) := by
  cases o with
  | place p => exact congrArg Except.ok (b.place_flipped p)
  | placeToken token =>
    cases h : Placement.ofToken token with
    | error e => simp [Operation.flipped, attempt, h]; rfl
    | ok p =>
      simp only [Operation.flipped, attempt, h, place_flipped]
      rfl
  | move m c =>
    simp only [Operation.flipped, attempt, move_flipped]
    cases b.move m c <;> rfl
  | moveToken token c =>
    cases h : Movement.ofToken token with
    | error e => simp [Operation.flipped, attempt, h]; rfl
    | ok m =>
      simp only [Operation.flipped, attempt, h, move_flipped]
      change (flippedOutcome Refusal.flipped (b.move m c)).mapError Objection.movement =
        flippedOutcome Objection.flipped ((b.move m c).mapError Objection.movement)
      cases b.move m c <;> rfl
  | intend i c =>
    simp only [Operation.flipped, attempt, intend_flipped]
    cases b.intend i c <;> rfl
  | castle side c => exact congrArg Except.ok (b.castle_flipped side c)
  | castleToken token c =>
    cases h : CastleSide.ofToken token with
    | error e => simp [Operation.flipped, attempt, h]; rfl
    | ok side =>
      simp only [Operation.flipped, attempt, h, castle_flipped]
      rfl

private theorem after_flipped (b : Board) (o : Operation) :
    b.flipped.after o.flipped = (b.after o).flipped := by
  rw [after, after, attempt_flipped]
  cases b.attempt o <;> rfl

private theorem afterAll_flipped (b : Board) (os : List Operation) :
    b.flipped.afterAll (os.map Operation.flipped) = (b.afterAll os).flipped := by
  induction os generalizing b with
  | nil => rfl
  | cons o os ih => rw [List.map_cons, afterAll_cons, afterAll_cons, after_flipped, ih]

/-- The two sides are treated alike: on the flipped board every flipped question has the flipped
answer, and a run of flipped operations leaves the flipped board, with the flipped outcome for
whatever is tried next. -/
theorem both_sides_alike (b : Board) :
    empty.flipped = empty ∧ (∀ s, b.flipped.occupant s.flipped = (b.occupant s).map Piece.flipped) ∧
    (∀ p captures, (b.flipped.reach p.flipped captures).Perm
      ((b.reach p captures).map Square.flipped)) ∧
    (∀ m c, b.flipped.move m.flipped c.opposite = flippedOutcome Refusal.flipped (b.move m c)) ∧
    (∀ i c, b.flipped.intend i.flipped c.opposite =
      flippedOutcome IntentRefusal.flipped (b.intend i c)) ∧
    (∀ side c, b.flipped.canCastle side c.opposite = b.canCastle side c ∧
      b.flipped.castle side c.opposite = (b.castle side c).flipped) ∧
    ∀ run, b.flipped.afterAll (run.map Operation.flipped) = (b.afterAll run).flipped ∧
      ∀ o, (b.flipped.afterAll (run.map Operation.flipped)).attempt o.flipped =
        flippedOutcome Objection.flipped ((b.afterAll run).attempt o) := by
  refine ⟨flipped_empty, b.occupant_flipped, b.reach_flipped, b.move_flipped, b.intend_flipped, ?_, ?_⟩
  · intro side c
    exact ⟨b.canCastle_flipped side c, b.castle_flipped side c⟩
  · intro run
    have hrun := b.afterAll_flipped run
    refine ⟨hrun, fun o => ?_⟩
    rw [hrun, attempt_flipped]

end Board

end Scoresheet
