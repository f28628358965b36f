import Mathlib.Data.List.Induction
import Scoresheet.Proofs.Session.HalfPlayed
import Scoresheet.Proofs.Session.Steps
/-!
# When placement is closed

A placement line is carried out until movement has begun, so placement is closed to a board on which
some piece has moved as long as movement has begun by then. Lines and files see to it before they
touch the board. Interactive play sees to it after its turn is logged: if the log refuses an entry of
the first turn of all, a piece has moved and placement is still open.
-/
namespace Scoresheet

open Transcript (Lead)

def Game.BegunIfMoved (g : Game) : Prop := g.board.SomeMoved → g.begun = true

/-- Whether a session is where interactive play from a game is left by a log that refuses an entry of
the first turn: an intent is carried out, and nothing else has changed. -/
def Game.LeftInTurn (g : Game) (left : Session) : Prop :=
  left.log.room = some 0 ∧
    ∃ i board, g.board.intend i g.turn = .ok board ∧ left.game = { g with board }

private theorem Game.LeftInTurn.begun_eq {g : Game} {left : Session} (h : g.LeftInTurn left) :
    left.game.begun = g.begun := by
  obtain ⟨_, _, _, _, hgame⟩ := h
  rw [hgame]

private theorem Board.someMoved_of_place {b : Board} {p : Placement} (h : (b.place p).SomeMoved) :
    b.SomeMoved := by
  obtain ⟨s, q, hq, hmoved⟩ := h
  rw [occupant_place] at hq
  split at hq
  · -- a piece that is put down has not moved
    rw [← Option.some.inj hq] at hmoved
    cases hmoved
  · exact ⟨s, q, hq, hmoved⟩

namespace Game

variable {g : Game} {es : List Event} {s : Session}

private theorem kept_begunIfMoved : Kept BegunIfMoved where
  place _ _ hg hmoved := hg (Board.someMoved_of_place hmoved)
  action _ _ _ _ hnext _ := (update_mem_playAction hnext).1

private theorem perform_playTurn {i : Intent} {board : Board} (hs : s.game = g)
    (hi : g.board.intend i g.turn = .ok board) :
    (∃ left, s.perform (g.playTurn i) = (left, some .sinkFull) ∧ g.LeftInTurn left) ∨
      ∃ next, s.perform (g.playTurn i) = (next, none) ∧
        next.game = ⟨board, g.turn.opposite, true⟩ := by
  have hrecord := Session.perform_eq_record (s := s) (unshown_playTurn ⟨board, hi⟩)
  rw [hs] at hrecord
  rcases hp : s.perform (g.playTurn i) with ⟨next, fault⟩
  rw [hp] at hrecord
  rcases record_playTurn Sink.writer s.log hi with ⟨log, hrefused, hstop⟩ | ⟨log, hgo⟩
  · obtain ⟨hgame, hlog, rfl⟩ : { g with board } = next.game ∧ log = next.log ∧
        some Fault.sinkFull = fault := by simpa [hstop] using hrecord
    refine .inl ⟨next, rfl, ?_, i, board, hi, hgame.symm⟩
    rw [← hlog]
    exact Sink.room_of_refused hrefused
  · obtain ⟨hgame, _, rfl⟩ : ⟨board, g.turn.opposite, true⟩ = next.game ∧ log = next.log ∧
        none = fault := by simpa [hgo] using hrecord
    exact .inr ⟨next, rfl, hgame.symm⟩

/-- Interactive play changes nothing, or gets through its first turn, or is left in it. -/
theorem Conversation.game_perform (h : g.Conversation es) (hs : s.game = g) :
    let left := (s.perform es).1
    left.game = g ∨ left.game.begun = true ∨ g.LeftInTurn left := by
  -- on what play consists of; once a turn is through, movement has begun whatever comes next
  induction h generalizing s with
  | @ending g _ h =>
    exact .inl (Session.game_perform_of_lead (P := fun h => h = g) hs
      (Transcript.lead_of_isEntry h.isEntry))
  | fault f => exact .inl hs
  | @shown g es fs hes h ih =>
    obtain ⟨hgame, _⟩ := Session.perform_shown (s := s) hes
    rcases hp : s.perform es with ⟨next, _ | f⟩
    · rw [hp] at hgame
      rw [Session.perform_append_of_none hp]
      exact ih (hgame.trans hs)
    · rw [hp] at hgame
      rw [Session.perform_append_of_some hp]
      exact .inl (hgame.trans hs)
  | @turn g i fs hi h ih =>
    obtain ⟨board, hboard⟩ := hi
    rcases perform_playTurn hs hboard with ⟨left, hp, hleft⟩ | ⟨next, hp, hnext⟩
    · rw [Session.perform_append_of_some hp]
      exact .inr (.inr hleft)
    · have hafter : g.after (g.playTurn i) = ⟨board, g.turn.opposite, true⟩ := by
        obtain ⟨token, e, _, _, hturn, _⟩ := playTurn_eq hboard
        rw [hturn, after_update, after_turnEnd]
      rw [Session.perform_append_of_none hp]
      rw [hafter] at ih
      apply Or.inr
      apply Or.inl
      rcases ih hnext with hsame | hbegun | hleft
      · rw [hsame]
      · exact hbegun
      · rw [hleft.begun_eq]

end Game

namespace Session

open Directive

/-- Whether a placement line leaves the board alone once a piece has moved. -/
def PlacementClosed (s : Session) : Prop :=
  s.game.board.SomeMoved →
    ∀ line token, ofLine line = .placement token → (s.step (.line line)).game.board = s.game.board

/-- Whether interactive play changes the board and leaves off before movement has begun. -/
def BreaksOff (s : Session) (input : List UInt8) (room : Option Nat) : Prop :=
  let left := s.step (.interact input room)
  left.game.board ≠ s.game.board ∧ left.game.begun = false

variable {s : Session} {input : List UInt8} {room : Option Nat}

private theorem game_interact (hs : s.game.board.Seated) (input : List UInt8) (room : Option Nat) :
    let left := s.step (.interact input room)
    left.game = s.game ∨ left.game.begun = true ∨ s.game.LeftInTurn left :=
  (Game.conversation_interact hs (Text.lines input)).game_perform rfl

/-- Interactive play breaks off if the log refuses an entry of the first turn of all. -/
theorem breaksOff_iff (hs : s.game.board.Seated) :
    s.BreaksOff input room ↔
      s.game.begun = false ∧ s.game.LeftInTurn (s.step (.interact input room)) := by
  constructor
  · rintro ⟨hboard, hbegun⟩
    rcases game_interact hs input room with hsame | hthrough | hleft
    · exact absurd (congrArg Game.board hsame) hboard
    · simp [hthrough] at hbegun
    · exact ⟨hleft.begun_eq.symm.trans hbegun, hleft⟩
  · rintro ⟨hbegun, hleft⟩
    refine ⟨?_, hleft.begun_eq.trans hbegun⟩
    obtain ⟨_, i, board, hi, hgame⟩ := hleft
    rw [hgame]
    exact Board.ne_of_intend hi

private theorem board_step_of_begun (h : s.game.begun = true) {line token : String}
    (hline : ofLine line = .placement token) :
    (s.step (.line line)).game.board = s.game.board := by
  apply game_step_of_lead (P := fun g => g.board = s.game.board) rfl
  simp [Step.events, Game.playLine, hline, h, Lead]

private theorem board_step_of_not_begun (h : s.game.begun = false) {line token : String}
    {p : Placement}
    (hline : ofLine line = .placement token) (hp : Placement.ofToken token = .ok p) :
    (s.step (.line line)).game.board = s.game.board.place p := by
  cases hacc : s.log.acceptsLine (Entry.placed token p).text <;>
    simp [step, Step.events, Game.playLine, hline, h, Game.place, hp, perform, performOne,
      faultUnless, hacc]

private theorem exists_line_of_not_begun (h : s.game.begun = false) :
    ∃ line token, ofLine line = .placement token ∧
      (s.step (.line line)).game.board ≠ s.game.board := by
  let pawn : Placement := ⟨⟨.white, .pawn⟩, ⟨0, 0⟩⟩
  let knight : Placement := ⟨⟨.white, .knight⟩, ⟨0, 0⟩⟩
  have hpawn : ofLine "Pla1" = .placement "Pla1" := by decide +kernel
  have hknight : ofLine "Nla1" = .placement "Nla1" := by decide +kernel
  have hpawnToken : Placement.ofToken "Pla1" = .ok pawn := by decide +kernel
  have hknightToken : Placement.ofToken "Nla1" = .ok knight := by decide +kernel
  by_cases hsame : s.game.board.place pawn = s.game.board
  · refine ⟨"Nla1", "Nla1", hknight, ?_⟩
    rw [board_step_of_not_begun h hknight hknightToken]
    intro hsame'
    -- the corner cannot hold both of them
    have hcorner := congrArg (fun b => b.occupant ⟨0, 0⟩) (hsame.trans hsame'.symm)
    simp [Board.occupant_place, pawn, knight, Placement.piece] at hcorner
  · refine ⟨"Pla1", "Pla1", hpawn, ?_⟩
    rwa [board_step_of_not_begun h hpawn hpawnToken]

private theorem placementClosed_iff : s.PlacementClosed ↔ s.game.BegunIfMoved := by
  constructor
  · intro hclosed hmoved
    cases hbegun : s.game.begun with
    | true => rfl
    | false =>
      obtain ⟨line, token, hline, hne⟩ := exists_line_of_not_begun hbegun
      exact absurd (hclosed hmoved line token hline) hne
  · intro h hmoved line token hline
    exact board_step_of_begun (h hmoved) hline

/-- A step opens placement to a moved piece only if it is interactive play that breaks off. -/
theorem begunIfMoved_step (hs : s.game.board.Seated) (h : s.game.BegunIfMoved) {step : Step}
    (hno : ∀ input room, step = .interact input room → ¬ s.BreaksOff input room) :
    (s.step step).game.BegunIfMoved := by
  by_cases hplay : ∃ input room, step = .interact input room
  · obtain ⟨input, room, rfl⟩ := hplay
    intro hmoved
    have hwhole := hno input room rfl
    rw [breaksOff_iff hs] at hwhole
    rcases game_interact hs input room with hsame | hthrough | hleft
    · rw [hsame] at hmoved ⊢
      exact h hmoved
    · exact hthrough
    · cases hbegun : s.game.begun with
      | true => exact hleft.begun_eq.trans hbegun
      | false => exact absurd ⟨hbegun, hleft⟩ hwhole
  · apply game_step_of_lead h
    apply Game.kept_begunIfMoved.lead_events h
    intro input room hstep
    exact hplay ⟨input, room, hstep⟩

def reached (room : Option Nat) (steps : List Step) : Session := (opened room).afterSteps steps

section Reached

variable {steps : List Step}

theorem reached_append_singleton (room : Option Nat) (steps : List Step) (step : Step) :
    reached room (steps ++ [step]) = (reached room steps).step step :=
  afterSteps_append_singleton _ _ _

theorem seated_reached (room : Option Nat) (steps : List Step) :
    (reached room steps).game.board.Seated := by
  apply seated_afterSteps
  rw [game_opened]
  exact Board.seated_empty

/-- Steps of which none breaks off keep placement closed. -/
theorem begunIfMoved_reached
    (h : ∀ done input console, done ++ [.interact input console] <+: steps →
      ¬ (reached room done).BreaksOff input console) :
    (reached room steps).game.BegunIfMoved := by
  -- on the steps, the last one split off; the first state is an empty board
  induction steps using List.reverseRecOn with
  | nil =>
    rintro ⟨square, p, hp, _⟩
    simp [reached, afterSteps, Game.fresh] at hp
  | append_singleton steps step ih =>
    have hbefore : (reached room steps).game.BegunIfMoved := by
      apply ih
      intro done input console hdone
      exact h done input console (hdone.trans (List.prefix_append steps [step]))
    rw [reached_append_singleton]
    apply begunIfMoved_step (seated_reached room steps) hbefore
    rintro input console rfl
    exact h steps input console (List.prefix_refl _)

private theorem room_reached_of_full {done : List Step} (hdone : done <+: steps)
    (h : (reached room done).log.room = some 0) : (reached room steps).log.room = some 0 := by
  obtain ⟨rest, rfl⟩ := hdone
  have hsplit : reached room (done ++ rest) = (reached room done).afterSteps rest := by
    simp [reached, afterSteps]
  rw [hsplit]
  exact room_afterSteps_of_full h rest

/-- Placement is closed in all states of a session, except that interactive play breaks off in the
first turn of all. Until the log is full it cannot. -/
theorem placement_closed_iff_not_broken_off (room : Option Nat) (steps : List Step) :
    ((∀ done, done <+: steps → (reached room done).PlacementClosed) ↔
      ∀ done input console, done ++ [.interact input console] <+: steps →
        ¬ (reached room done).BreaksOff input console) ∧
    ((reached room steps).log.room ≠ some 0 → (reached room steps).PlacementClosed) ∧
    ∀ input console, (reached room steps).BreaksOff input console ↔
      (reached room steps).game.begun = false ∧
        (reached room steps).game.LeftInTurn
          ((reached room steps).step (.interact input console)) := by
  refine ⟨⟨?_, ?_⟩, ?_, ?_⟩
  · intro hclosed done input console hdone hbreak
    have hleft := placementClosed_iff.mp (hclosed _ hdone)
    rw [reached_append_singleton] at hleft
    obtain ⟨_, _, i, board, hi, hgame⟩ := (breaksOff_iff (seated_reached room done)).mp hbreak
    have hmoved : ((reached room done).step (.interact input console)).game.board.SomeMoved := by
      rw [hgame]
      exact Board.someMoved_of_intend hi
    have hopen := hbreak.2
    simp [hleft hmoved] at hopen
  · intro hwhole done hdone
    apply placementClosed_iff.mpr
    apply begunIfMoved_reached
    intro earlier input console hearlier
    exact hwhole earlier input console (hearlier.trans hdone)
  · intro hroom
    apply placementClosed_iff.mpr
    apply begunIfMoved_reached
    intro done input console hdone hbreak
    obtain ⟨_, hfull, _⟩ := (breaksOff_iff (seated_reached room done)).mp hbreak
    rw [← reached_append_singleton] at hfull
    exact hroom (room_reached_of_full hdone hfull)
  · intro input console
    exact breaksOff_iff (seated_reached room steps)

/-- The log has room for the opening and one placement. White's pawn moves by the first option of both
menus, and a queen can still be placed. -/
theorem placement_open_after_pawn_move :
    let s := reached (some 2) [.line "Ple2", .interact [0x31, 0x0A, 0x31, 0x0A] none]
    s.game.board.SomeMoved ∧ ¬ s.PlacementClosed ∧ ofLine "Qld1" = .placement "Qld1" ∧
      (s.game.board.occupant ⟨0, 3⟩).isNone ∧
      ((s.step (.line "Qld1")).game.board.occupant ⟨0, 3⟩).isSome := by
  intro s
  have hpawn : s.game.board.occupant ⟨2, 4⟩ = some ⟨⟨.white, .pawn⟩, ⟨2, 4⟩, true⟩ := by
    decide +kernel
  have hbefore : (s.game.board.occupant ⟨0, 3⟩).isNone := by decide +kernel
  have hafter : ((s.step (.line "Qld1")).game.board.occupant ⟨0, 3⟩).isSome := by decide +kernel
  have hline : ofLine "Qld1" = .placement "Qld1" := by decide +kernel
  have hmoved : s.game.board.SomeMoved := ⟨⟨2, 4⟩, _, hpawn, rfl⟩
  refine ⟨hmoved, ?_, hline, hbefore, hafter⟩
  intro hclosed
  rw [hclosed hmoved "Qld1" "Qld1" hline] at hafter
  simp [Option.isNone_iff_eq_none.mp hbefore] at hafter

end Reached

end Session

end Scoresheet
