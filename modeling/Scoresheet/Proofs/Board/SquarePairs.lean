import Scoresheet.Proofs.Board.MovementRule
/-!
# Movements between two squares

A movement says more than an intent: it names the kind of the piece and whether something is
captured. On a given board this is no choice. Of the twelve movements between two squares the rule
allows one at most, and if it allows one it is the movement that the intent stands for.
-/
namespace Scoresheet.Board

variable {b : Board} {m : Movement} {c : Color} {p : Piece} {s t : Square}

private theorem Allows.movement?_eq (h : b.Allows m c p) :
    b.movement? m.source m.target = some m := by
  have hkind : p.kind = m.kind := congrArg Chessman.kind h.named
  have hcapture := (markAgrees_iff.mp h.marked).1
  rw [movement?, h.stands, Option.map_some, hkind, hcapture]

private theorem movement?_eq_of_isOk (h : (b.move m c).isOk = true) :
    b.movement? m.source m.target = some m := by
  obtain ⟨p, hp⟩ := isOk_move_iff.mp h
  exact hp.movement?_eq

private theorem isOk_intend_iff {i : Intent} : (b.intend i c).isOk = true ↔ b.Permits c i := by
  rw [Permits]
  cases b.intend i c <;> simp [Except.isOk, Except.toBool]

private theorem after_intend_of_movement? (h : b.movement? s t = some m) :
    b.after (.intend (.move s t) c) = b.after (.move m c) := by
  simp only [after, attempt, intend, h]
  cases b.move m c <;> rfl

private theorem isOk_intend_of_movement? (h : b.movement? s t = some m) :
    (b.intend (.move s t) c).isOk = (b.move m c).isOk := by
  simp only [intend, h]
  cases b.move m c <;> rfl

private theorem isOk_intend_move_iff : (b.intend (.move s t) c).isOk = true ↔
    ∃ kind capture, (b.move ⟨kind, s, t, capture⟩ c).isOk = true := by
  constructor
  · intro h
    cases hm : b.movement? s t with
    | none => simp [intend, hm, Except.isOk, Except.toBool] at h
    | some m =>
      obtain ⟨p, -, rfl⟩ := movement?_eq_some_iff.mp hm
      exact ⟨p.kind, _, isOk_intend_of_movement? hm ▸ h⟩
  · rintro ⟨kind, capture, h⟩
    rwa [isOk_intend_of_movement? (movement?_eq_of_isOk h)]

private theorem after_intend_of_not_isOk {i : Intent} (h : (b.intend i c).isOk = false) :
    b.after (.intend i c) = b :=
  after_of_not_isOk (Fallible.isOk_mapError.trans h)

/-- Between two squares a side has at most one movement, whatever kinds and marks are tried. The
intent to go from the one to the other is accepted exactly if there is such a movement, which is
exactly if a piece of the side stands on the first and can go to the second, captures considered.
Then it does what that movement does, and otherwise nothing. -/
theorem one_movement_between_squares (b : Board) (c : Color) (s t : Square) :
    (∀ kind kind' capture capture',
      (b.move ⟨kind, s, t, capture⟩ c).isOk = true →
        (b.move ⟨kind', s, t, capture'⟩ c).isOk = true → kind = kind' ∧ capture = capture') ∧
    ((b.intend (.move s t) c).isOk = true ↔
      ∃ kind capture, (b.move ⟨kind, s, t, capture⟩ c).isOk = true) ∧
    ((b.intend (.move s t) c).isOk = true ↔
      ∃ p, b.occupant s = some p ∧ p.color = c ∧ t ∈ b.reach p true) ∧
    (∀ kind capture, (b.move ⟨kind, s, t, capture⟩ c).isOk = true →
      b.after (.intend (.move s t) c) = b.after (.move ⟨kind, s, t, capture⟩ c)) ∧
    ((b.intend (.move s t) c).isOk = false → b.after (.intend (.move s t) c) = b) := by
  refine ⟨?_, isOk_intend_move_iff, ?_, ?_, after_intend_of_not_isOk⟩
  · intro kind kind' capture capture' h h'
    have hfirst : b.movement? s t = some ⟨kind, s, t, capture⟩ := movement?_eq_of_isOk h
    have hsecond : b.movement? s t = some ⟨kind', s, t, capture'⟩ := movement?_eq_of_isOk h'
    obtain ⟨hkind, -, -, hcapture⟩ := Movement.mk.inj (Option.some.inj (hfirst.symm.trans hsecond))
    exact ⟨hkind, hcapture⟩
  · rw [isOk_intend_iff, permits_move_iff]
  · intro kind capture h
    exact after_intend_of_movement? (movement?_eq_of_isOk h)

/-- A pawn that takes: the same two squares allow neither a step without the mark nor a bishop. -/
theorem pawn_takes_by_intent :
    let b := empty.afterAll [.placeToken "Ple4", .placeToken "ndd5"]
    let taken : Movement := ⟨.pawn, ⟨3, 4⟩, ⟨4, 3⟩, true⟩
    (b.move taken .white).isOk = true ∧
      (∀ kind capture, (b.move ⟨kind, ⟨3, 4⟩, ⟨4, 3⟩, capture⟩ .white).isOk = true →
        kind = .pawn ∧ capture = true) ∧
      (b.intend (.move ⟨3, 4⟩ ⟨4, 3⟩) .white).isOk = true ∧
      b.after (.intend (.move ⟨3, 4⟩ ⟨4, 3⟩) .white) = b.after (.move taken .white) ∧
      (b.intend (.move ⟨3, 4⟩ ⟨5, 4⟩) .white).isOk = false ∧
      b.after (.intend (.move ⟨3, 4⟩ ⟨5, 4⟩) .white) = b := by
  intro b taken
  have htaken : (b.move taken .white).isOk = true := by decide +kernel
  have hstays : (b.intend (.move ⟨3, 4⟩ ⟨5, 4⟩) .white).isOk = false := by decide +kernel
  obtain ⟨honly, hfound, -, hsame, -⟩ := one_movement_between_squares b .white ⟨3, 4⟩ ⟨4, 3⟩
  obtain ⟨-, -, -, -, hidle⟩ := one_movement_between_squares b .white ⟨3, 4⟩ ⟨5, 4⟩
  refine ⟨htaken, ?_, hfound.mpr ⟨_, _, htaken⟩, hsame _ _ htaken, hstays, hidle hstays⟩
  intro kind capture h
  exact honly _ _ _ _ h htaken

end Scoresheet.Board
