import Scoresheet.Proofs.Board.Playing
import Scoresheet.Proofs.Token.Writing
/-!
# The rule of a movement

A movement names the piece that goes and says of its target whether something is captured there. It
is played if both are true of the board and the piece can go there, whatever the order in which this
is looked at. What a played movement does is a matter of two squares.
-/
namespace Scoresheet.Board

/-- Whether the capture mark of a side's movement says what stands on the target: nothing, or a piece
of the other side. -/
def MarkAgrees (b : Board) (m : Movement) (c : Color) : Prop :=
  (b.occupant m.target = none ∧ m.capture = false) ∨
    ∃ q, b.occupant m.target = some q ∧ q.color = c.opposite ∧ m.capture = true

/-- Whether the rule allows a side to play a movement with a piece. -/
structure Allows (b : Board) (m : Movement) (c : Color) (p : Piece) : Prop where
  stands : b.occupant m.source = some p
  named : p.toChessman = ⟨c, m.kind⟩
  marked : b.MarkAgrees m c
  reached : m.target ∈ b.reach p m.capture

variable {b : Board} {m : Movement} {c : Color} {p : Piece}

theorem markAgrees_iff :
    b.MarkAgrees m c ↔ (b.occupant m.target).isSome = m.capture ∧ b.admits c m.target = true := by
  rw [MarkAgrees, admits_iff]
  cases b.occupant m.target <;> cases m.capture <;> simp [← Color.ne_iff_eq_opposite]

/-- Nothing else is looked at, and no check hides another. -/
theorem refusal?_eq_none_iff_allows : b.refusal? m c = none ↔ ∃ p, b.Allows m c p := by
  rw [refusal?_eq_none_iff]
  constructor
  · rintro ⟨p, hp, hc, hk, hcapture, hadmits, hreach⟩
    have hman : p.toChessman = ⟨c, m.kind⟩ := by rw [← hc, ← hk]
    exact ⟨p, hp, hman, markAgrees_iff.mpr ⟨hcapture, hadmits⟩, hreach⟩
  · rintro ⟨p, hp, hman, hmark, hreach⟩
    obtain ⟨hcapture, hadmits⟩ := markAgrees_iff.mp hmark
    have hc : p.color = c := congrArg Chessman.color hman
    have hk : p.kind = m.kind := congrArg Chessman.kind hman
    exact ⟨p, hp, hc, hk, hcapture, hadmits, hreach⟩

theorem isOk_move_iff : (b.move m c).isOk = true ↔ ∃ p, b.Allows m c p := by
  rw [← refusal?_eq_none_iff_allows, move]
  cases b.refusal? m c <;> simp [Except.isOk, Except.toBool]

theorem Allows.source_ne_target (h : b.Allows m c p) : m.source ≠ m.target := by
  obtain ⟨_, _, hne, _⟩ := squares_of_accepted (refusal?_eq_none_iff_allows.mpr ⟨p, h⟩)
  exact hne

theorem Allows.occupant_after (h : b.Allows m c p) (s : Square) :
    (b.after (.move m c)).occupant s =
      if s = m.target then some ⟨⟨c, m.kind⟩, m.target, true⟩
      else if s = m.source then none else b.occupant s := by
  have hplayed : b.attempt (.move m c) = .ok (b.relocate m.source m.target) := by
    rw [attempt, Fallible.mapError_eq_ok, move_eq_ok_iff]
    exact ⟨refusal?_eq_none_iff_allows.mpr ⟨p, h⟩, rfl⟩
  have hmoved : p.movedTo m.target = ⟨⟨c, m.kind⟩, m.target, true⟩ := by
    rw [Piece.movedTo, h.named]
  rw [after_of_ok hplayed, occupant_relocate h.stands, hmoved]

private theorem after_move_of_not_isOk (h : (b.move m c).isOk = false) : b.after (.move m c) = b :=
  after_of_not_isOk (Fallible.isOk_mapError.trans h)

/-- A movement is played exactly if its source holds the piece that it names, of the side to move, its
mark agrees with its target, and the piece can go there. Then it leaves its source empty, its target
has the same piece as one that has moved, and no other square changes. Otherwise the board stays as it
is. A token is the movement that it reads as, and one that cannot be read changes nothing. -/
theorem movement_played_by_rule (b : Board) (m : Movement) (c : Color) (token : String) :
    ((b.move m c).isOk = true ↔ ∃ p, b.Allows m c p) ∧
    ((b.move m c).isOk = true → m.source ≠ m.target ∧
      let next := b.after (.move m c)
      next.occupant m.source = none ∧
      next.occupant m.target = some ⟨⟨c, m.kind⟩, m.target, true⟩ ∧
      ∀ s, s ≠ m.source → s ≠ m.target → next.occupant s = b.occupant s) ∧
    ((b.move m c).isOk = false → b.after (.move m c) = b) ∧
    (∀ read, Movement.ofToken token = .ok read →
      b.attempt (.moveToken token c) = b.attempt (.move read c)) ∧
    ∀ e, Movement.ofToken token = .error e →
      b.attempt (.moveToken token c) = .error (.token e) ∧ b.after (.moveToken token c) = b := by
  refine ⟨isOk_move_iff, ?_, after_move_of_not_isOk, ?_, ?_⟩
  · intro h
    obtain ⟨p, hp⟩ := isOk_move_iff.mp h
    have hne := hp.source_ne_target
    refine ⟨hne, ?_, ?_, ?_⟩
    · rw [hp.occupant_after, if_neg hne, if_pos rfl]
    · rw [hp.occupant_after, if_pos rfl]
    · intro s hsource htarget
      rw [hp.occupant_after, if_neg htarget, if_neg hsource]
  · intro read hread
    simp only [attempt, hread]
    rfl
  · intro e he
    have hattempt : b.attempt (.moveToken token c) = .error (.token e) := by
      rw [attempt, he]
      rfl
    exact ⟨hattempt, after_of_error hattempt⟩

/-- A knight takes a pawn if the mark says so, and otherwise it stays. -/
theorem knight_takes_by_rule :
    let b := empty.afterAll [.placeToken "Nlb1", .placeToken "pdc3"]
    let capture : Movement := ⟨.knight, ⟨0, 1⟩, ⟨2, 2⟩, true⟩
    let quiet : Movement := { capture with capture := false }
    (b.move capture .white).isOk = true ∧
      (b.after (.move capture .white)).occupant ⟨0, 1⟩ = none ∧
      (b.after (.move capture .white)).occupant ⟨2, 2⟩ = some ⟨⟨.white, .knight⟩, ⟨2, 2⟩, true⟩ ∧
      (b.move quiet .white).isOk = false ∧ quiet.token = "Nb1-c3" ∧
      b.attempt (.moveToken "Nb1-c3" .white) = b.attempt (.move quiet .white) ∧
      b.after (.move quiet .white) = b := by
  intro b capture quiet
  have htaken : (b.move capture .white).isOk = true := by decide +kernel
  have hstays : (b.move quiet .white).isOk = false := by decide +kernel
  have htoken : quiet.token = "Nb1-c3" := by decide +kernel
  have hread : Movement.ofToken "Nb1-c3" = .ok quiet := htoken ▸ quiet.ofToken_token
  obtain ⟨_, hplayed, _⟩ := movement_played_by_rule b capture .white "Nb1-c3"
  obtain ⟨_, _, hrefused, hsame, _⟩ := movement_played_by_rule b quiet .white "Nb1-c3"
  obtain ⟨_, hsource, htarget, _⟩ := hplayed htaken
  exact ⟨htaken, hsource, htarget, hstays, htoken, hsame quiet hread, hrefused hstays⟩

end Scoresheet.Board
