import Scoresheet.Proofs.Board.Playing
import Scoresheet.Proofs.Session.Turns
/-!
# The course of an action

An action of a line has a fixed course, whether it is accepted or not: first movement has begun and
the board is changed, then everything about it is logged, and last the turn passes.
-/
namespace Scoresheet

namespace Board

variable {b next : Board} {m : Movement} {i : Intent} {side : CastleSide} {c : Color}

private theorem ne_of_move (h : b.move m c = .ok next) : next ≠ b := by
  obtain ⟨hr, rfl⟩ := move_eq_ok_iff.mp h
  obtain ⟨p, hp, hne, _⟩ := squares_of_accepted hr
  intro hsame
  have hleft : (b.relocate m.source m.target).occupant m.source = none := by
    rw [occupant_relocate hp, if_neg hne, if_pos rfl]
  rw [hsame, hp] at hleft
  cases hleft

private theorem castle_ne (h : b.canCastle side c = true) : b.castle side c ≠ b := by
  obtain ⟨king, rook, hk, hr, _⟩ := canCastle_iff.mp h
  intro hsame
  have hleft : (b.castle side c).occupant c.kingHome = none := by
    rw [occupant_castle hk hr, if_neg (c.rookCastled_ne_kingHome side).symm,
      if_neg (c.rookHome_ne_kingHome side).symm, if_neg (c.kingCastled_ne_kingHome side).symm,
      if_pos rfl]
  rw [hsame, hk] at hleft
  cases hleft

def SomeMoved (b : Board) : Prop := ∃ s p, b.occupant s = some p ∧ p.moved = true

private theorem someMoved_of_move (h : b.move m c = .ok next) : next.SomeMoved := by
  obtain ⟨hr, rfl⟩ := move_eq_ok_iff.mp h
  obtain ⟨p, hp, _⟩ := squares_of_accepted hr
  refine ⟨m.target, p.movedTo m.target, ?_, rfl⟩
  rw [occupant_relocate hp, if_pos rfl]

private theorem someMoved_castle (h : b.canCastle side c = true) : (b.castle side c).SomeMoved := by
  obtain ⟨king, rook, hk, hr, _⟩ := canCastle_iff.mp h
  refine ⟨c.rookCastled side, rook.movedTo (c.rookCastled side), ?_, rfl⟩
  rw [occupant_castle hk hr, if_pos rfl]

private theorem cases_of_intend (h : b.intend i c = .ok next) :
    (∃ side, b.canCastle side c = true ∧ b.castle side c = next) ∨ ∃ m, b.move m c = .ok next := by
  cases i with
  | castle side => exact .inl ⟨side, intend_castle_eq_ok_iff.mp h⟩
  | move source target =>
    obtain ⟨m, _, hm⟩ := intend_move_eq_ok_iff.mp h
    exact .inr ⟨m, hm⟩

theorem ne_of_intend (h : b.intend i c = .ok next) : next ≠ b := by
  rcases cases_of_intend h with ⟨side, hc, rfl⟩ | ⟨m, hm⟩
  · exact castle_ne hc
  · exact ne_of_move hm

theorem someMoved_of_intend (h : b.intend i c = .ok next) : next.SomeMoved := by
  rcases cases_of_intend h with ⟨side, hc, rfl⟩ | ⟨m, hm⟩
  · exact someMoved_castle hc
  · exact someMoved_of_move hm

end Board

namespace Entry

/-- Whether an entry tells of an action that was accepted. -/
inductive Accepts (token : String) : Entry → Prop where
  | moved (m : Movement) (c : Color) (captured : Option Chessman) :
    Accepts token (.moved token m c captured)
  | castled (side : CastleSide) (c : Color) : Accepts token (.castled token side c)

/-- Whether an entry tells of an action that was not accepted. -/
inductive Refuses (token : String) : Entry → Prop where
  | movement (m : Movement) (c : Color) (found : Option Chessman) :
    Refuses token (.movementRefused token m c found)
  | castle (c : Color) : Refuses token (.castleRefused token c)
  | unreadable (error : TokenError) (h : error.Quotes token) :
    Refuses token (.unreadable token error)

end Entry

namespace Game

/-- The board to which an action leads, if it is accepted. -/
def accepted? (g : Game) (token : String) : Option Board :=
  if Directive.isCastle token then
    match CastleSide.ofToken token with
    | .error _ => none
    | .ok side => if g.board.canCastle side g.turn then some (g.board.castle side g.turn) else none
  else
    match Movement.ofToken token with
    | .error _ => none
    | .ok m => (g.board.move m g.turn).toOption

def boardAfter (g : Game) (token : String) : Board := (g.accepted? token).getD g.board

variable {g : Game} {token : String} {board : Board}

theorem cases_of_accepted? (h : g.accepted? token = some board) :
    (∃ side, g.board.canCastle side g.turn = true ∧ g.board.castle side g.turn = board) ∨
      ∃ m, g.board.move m g.turn = .ok board := by
  unfold accepted? at h
  split at h
  · split at h
    · cases h
    · next side _ =>
      split at h
      · next hcastle => exact .inl ⟨side, hcastle, Option.some.inj h⟩
      · cases h
  · split at h
    · cases h
    · next m _ =>
      cases hm : g.board.move m g.turn with
      | error reason => simp [hm, Except.toOption] at h
      | ok next =>
        obtain rfl : next = board := by simpa [hm, Except.toOption] using h
        exact .inr ⟨m, hm⟩

theorem ne_of_accepted? (h : g.accepted? token = some board) : board ≠ g.board := by
  rcases cases_of_accepted? h with ⟨side, hc, rfl⟩ | ⟨m, hm⟩
  · exact Board.castle_ne hc
  · exact Board.ne_of_move hm

theorem seated_boardAfter (h : g.board.Seated) (token : String) : (g.boardAfter token).Seated := by
  unfold boardAfter
  cases ha : g.accepted? token with
  | none => exact h
  | some board =>
    rcases cases_of_accepted? ha with ⟨side, _, rfl⟩ | ⟨m, hm⟩
    · exact h.castle side g.turn
    · exact h.move hm

/-- Whether events first change the board of a game, silently, and then only write entries. -/
private def ChangesThenWrites (g : Game) (board : Board) (es : List Event) : Prop :=
  ∃ opening entries, es = opening ++ entries ∧ (∀ e ∈ opening, e.isSilent = true) ∧
    (∀ next, .update next ∈ opening → next = { g with board }) ∧
    g.after opening = { g with board } ∧ ∀ e ∈ entries, e.isEntry = true

/-- What carrying out an action comes to. -/
inductive Outcome (g : Game) (token : String) : List Event → Prop where
  | accepted {board : Board} {e : Entry} (h : g.accepted? token = some board)
    (he : e.Accepts token) : Outcome g token (.update { g with board } :: .log e :: board.logged)
  | refused {e : Entry} (notes : List Note) (h : g.accepted? token = none)
    (he : e.Refuses token) : Outcome g token (notes.map .note ++ [.log e])

private theorem outcome_playCastle (hc : Directive.isCastle token = true) :
    g.Outcome token (g.playCastle token) := by
  have haccepted : g.accepted? token = match CastleSide.ofToken token with
      | .error _ => none
      | .ok side =>
        if g.board.canCastle side g.turn then some (g.board.castle side g.turn) else none := by
    rw [accepted?, if_pos hc]
  unfold playCastle
  cases hread : CastleSide.ofToken token with
  | error e =>
    rw [hread] at haccepted
    exact .refused [] haccepted (.unreadable e (CastleSide.quotes_of_ofToken hread))
  | ok side =>
    simp only [hread] at haccepted
    cases hr : g.board.castleRefusal? side g.turn with
    | some reason =>
      have hclosed : ¬ g.board.canCastle side g.turn = true := by
        rw [← Board.castleRefusal?_eq_none_iff, hr]
        exact Option.some_ne_none reason
      rw [if_neg hclosed] at haccepted
      simp only [hr]
      exact .refused [reason.note] haccepted (.castle g.turn)
    | none =>
      rw [if_pos (Board.castleRefusal?_eq_none_iff.mp hr)] at haccepted
      simp only [hr]
      exact .accepted haccepted (.castled side g.turn)

private theorem outcome_playMovement (hc : ¬ Directive.isCastle token = true) :
    g.Outcome token (g.playMovement token) := by
  have haccepted : g.accepted? token = match Movement.ofToken token with
      | .error _ => none
      | .ok m => (g.board.move m g.turn).toOption := by
    rw [accepted?, if_neg hc]
  unfold playMovement
  cases hread : Movement.ofToken token with
  | error e =>
    rw [hread] at haccepted
    exact .refused [] haccepted (.unreadable e (Movement.quotes_of_ofToken hread))
  | ok m =>
    simp only [hread] at haccepted
    cases hm : g.board.move m g.turn with
    | error reason =>
      rw [hm] at haccepted
      simp only [hm]
      exact .refused [reason.note] haccepted (.movement m g.turn _)
    | ok board =>
      rw [hm] at haccepted
      simp only [hm]
      exact .accepted haccepted (.moved m g.turn _)

theorem outcome_played (g : Game) (token : String) : g.Outcome token
    (if Directive.isCastle token then g.playCastle token else g.playMovement token) := by
  by_cases hc : Directive.isCastle token = true
  · rw [if_pos hc]
    exact outcome_playCastle hc
  · rw [if_neg hc]
    exact outcome_playMovement hc

private theorem Outcome.changesThenWrites {es : List Event} (h : g.Outcome token es) :
    g.ChangesThenWrites (g.boardAfter token) es := by
  cases h with
  | @accepted board e ha he =>
    have hboard : g.boardAfter token = board := by rw [boardAfter, ha, Option.getD_some]
    rw [hboard]
    refine ⟨[.update { g with board }], .log e :: board.logged, rfl, ?_, ?_, rfl, ?_⟩
    · simp [Event.isSilent]
    · simp
    · exact List.forall_mem_cons.mpr ⟨rfl, board.isEntry_logged⟩
  | @refused e notes ha he =>
    have hboard : g.boardAfter token = g.board := by rw [boardAfter, ha, Option.getD_none]
    have hnotes : g.after (notes.map .note) = g := by
      induction notes with
      | nil => rfl
      | cons n notes ih => exact ih
    rw [hboard]
    refine ⟨notes.map .note, [.log e], rfl, ?_, ?_, hnotes, ?_⟩
    · intro event hevent
      obtain ⟨n, _, rfl⟩ := List.mem_map.mp hevent
      rfl
    · simp
    · simp [Event.isEntry]

/-- The parts of an action: what happens silently, what is written, and the passing of the turn. -/
structure Course (g : Game) (token : String) (opening entries : List Event) : Prop where
  parts : g.playAction token =
    opening ++ (entries ++ [.update ⟨g.boardAfter token, g.turn.opposite, true⟩])
  silent : ∀ e ∈ opening, e.isSilent = true
  updates : ∀ next, .update next ∈ opening →
    next.begun = true ∧ (next.board = g.board ∨ next.board = g.boardAfter token)
  opened : g.after opening = ⟨g.boardAfter token, g.turn, true⟩
  written : ∀ e ∈ entries, e.isEntry = true

theorem exists_course (g : Game) (token : String) :
    ∃ opening entries, g.Course token opening entries := by
  let begun : Game := { g with begun := true }
  let played := if Directive.isCastle token then begun.playCastle token
    else begun.playMovement token
  have hplayed : begun.ChangesThenWrites (g.boardAfter token) played :=
    (begun.outcome_played token).changesThenWrites
  obtain ⟨opening, entries, hparts, hsilent, hupdates, hopened, hwritten⟩ := hplayed
  have hafter : begun.after played = ⟨g.boardAfter token, g.turn, true⟩ := by
    rw [hparts, after_append, hopened, after_entries hwritten]
  refine ⟨.update begun :: opening, entries, ?_, ?_, ?_, hopened, hwritten⟩
  · have haction : g.playAction token =
        .update begun :: played ++ [.update (begun.after played).passed] := rfl
    rw [haction, hafter, hparts]
    simp [passed]
  · exact List.forall_mem_cons.mpr ⟨rfl, hsilent⟩
  · intro next hnext
    rcases List.mem_cons.mp hnext with hnext | hnext
    · obtain rfl := Event.update.inj hnext
      exact ⟨rfl, .inl rfl⟩
    · rw [hupdates next hnext]
      exact ⟨rfl, .inr rfl⟩

theorem after_playAction (g : Game) (token : String) :
    g.after (g.playAction token) = ⟨g.boardAfter token, g.turn.opposite, true⟩ := by
  obtain ⟨opening, entries, h⟩ := g.exists_course token
  rw [h.parts, after_append, after_append, after_update, after_nil]

theorem update_mem_playAction {next : Game} (h : .update next ∈ g.playAction token) :
    next.begun = true ∧ (next.board = g.board ∨ next.board = g.boardAfter token) := by
  obtain ⟨opening, entries, hcourse⟩ := g.exists_course token
  rw [hcourse.parts, List.mem_append, List.mem_append, List.mem_singleton] at h
  rcases h with h | h | h
  · exact hcourse.updates next h
  · cases hcourse.written _ h
  · obtain rfl := Event.update.inj h
    exact ⟨rfl, .inr rfl⟩

end Game

end Scoresheet
