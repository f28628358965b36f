import Scoresheet.Proofs.Board.Legality
import Scoresheet.Proofs.Fallible
import Scoresheet.Token.Placement
/-!
# Operations on a board

Everything that can be done to a board, by values or by tokens. An operation that meets an objection
leaves the board as it is.
-/
namespace Scoresheet

/-- Something that is done to a board. Only intents are judged before a castle is executed. -/
inductive Operation where
  | place (p : Placement)
  | placeToken (token : String)
  | move (m : Movement) (c : Color)
  | moveToken (token : String) (c : Color)
  | intend (i : Intent) (c : Color)
  | castle (side : CastleSide) (c : Color)
  | castleToken (token : String) (c : Color)
deriving DecidableEq, Repr

/-- Why an operation is not carried out. -/
inductive Objection where
  | token (error : TokenError)
  | movement (reason : Refusal)
  | intent (reason : IntentRefusal)
deriving DecidableEq, Repr

namespace Board

open Fallible

def attempt (b : Board) : Operation → Except Objection Board
  | .place p => .ok (b.place p)
  | .placeToken token => do
    let p ← (Placement.ofToken token).mapError .token
    return b.place p
  | .move m c => (b.move m c).mapError .movement
  | .moveToken token c => do
    let m ← (Movement.ofToken token).mapError .token
    (b.move m c).mapError .movement
  | .intend i c => (b.intend i c).mapError .intent
  | .castle side c => .ok (b.castle side c)
  | .castleToken token c => do
    let side ← (CastleSide.ofToken token).mapError .token
    return b.castle side c

/-- The board after an operation was tried. -/
def after (b : Board) (o : Operation) : Board :=
  match b.attempt o with
  | .ok next => next
  | .error _ => b

def afterAll (b : Board) (os : List Operation) : Board := os.foldl after b

@[simp] theorem afterAll_cons (b : Board) (o : Operation) (os : List Operation) :
    b.afterAll (o :: os) = (b.after o).afterAll os := rfl

theorem after_of_ok {b next : Board} {o : Operation} (h : b.attempt o = .ok next) :
    b.after o = next := by
  rw [after, h]

theorem after_of_error {b : Board} {o : Operation} {e : Objection} (h : b.attempt o = .error e) :
    b.after o = b := by
  rw [after, h]

theorem after_of_not_isOk {b : Board} {o : Operation} (h : (b.attempt o).isOk = false) :
    b.after o = b := by
  cases ho : b.attempt o with
  | ok next => simp [ho, Except.isOk, Except.toBool] at h
  | error e => exact after_of_error ho

/-- Whatever an operation does, it puts down a new piece, plays a movement, or castles. -/
theorem attempt_eq_ok {b next : Board} {o : Operation} (h : b.attempt o = .ok next) :
    (∃ p, next = b.place p) ∨ (∃ m c, b.move m c = .ok next) ∨
      ∃ side c, next = b.castle side c := by
  cases o with
  | place p => exact .inl ⟨p, (Except.ok.inj h).symm⟩
  | placeToken token =>
    obtain ⟨p, _, hp⟩ := bind_eq_ok.mp h
    exact .inl ⟨p, (Except.ok.inj hp).symm⟩
  | move m c => exact .inr (.inl ⟨m, c, mapError_eq_ok.mp h⟩)
  | moveToken token c =>
    obtain ⟨m, _, hm⟩ := bind_eq_ok.mp h
    exact .inr (.inl ⟨m, c, mapError_eq_ok.mp hm⟩)
  | intend i c =>
    have hi := mapError_eq_ok.mp h
    cases i with
    | move source target =>
      obtain ⟨m, _, hm⟩ := intend_move_eq_ok_iff.mp hi
      exact .inr (.inl ⟨m, c, hm⟩)
    | castle side => exact .inr (.inr ⟨side, c, (intend_castle_eq_ok_iff.mp hi).2.symm⟩)
  | castle side c => exact .inr (.inr ⟨side, c, (Except.ok.inj h).symm⟩)
  | castleToken token c =>
    obtain ⟨side, _, hs⟩ := bind_eq_ok.mp h
    exact .inr (.inr ⟨side, c, (Except.ok.inj hs).symm⟩)

/-- What placing, playing a movement and castling keep is kept by any run of operations. -/
theorem afterAll_induction {P : Board → Prop}
    (hplace : ∀ b p, P b → P (b.place p))
    (hmove : ∀ b m c next, b.move m c = .ok next → P b → P next)
    (hcastle : ∀ b side c, P b → P (b.castle side c))
    {b : Board} (h : P b) (os : List Operation) : P (b.afterAll os) := by
  induction os generalizing b with
  | nil => exact h
  | cons o os ih =>
    rw [afterAll_cons]
    apply ih
    cases ho : b.attempt o with
    | error e =>
      rw [after_of_error ho]
      exact h
    | ok next =>
      rw [after_of_ok ho]
      rcases attempt_eq_ok ho with ⟨p, rfl⟩ | ⟨m, c, hm⟩ | ⟨side, c, rfl⟩
      · exact hplace b p h
      · exact hmove b m c next hm h
      · exact hcastle b side c h

end Board

end Scoresheet
