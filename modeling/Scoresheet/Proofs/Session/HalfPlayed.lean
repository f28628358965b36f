import Scoresheet.Proofs.Session.Recording
/-!
# Turns that are half played

When the log refuses an entry of an action, the board is already what the action makes of it, and the
turn has not passed. After an action that was not accepted this is the game before, apart from
movement having begun. After an accepted one it is neither the game before nor the game after: the
side that has moved is to move again. Of an interactive turn movement has not even begun.
-/
namespace Scoresheet

namespace Game

open Directive

variable {σ : Type} {w : Writer σ} {g : Game} {log : σ} {line token : String}

private theorem playLine_of_single
    (h : ofLine line = .movements [token] ∨ ofLine line = .castles [token]) :
    g.playLine line = g.playAction token := by
  have hone : g.playActions [token] = g.playAction token := by simp [playActions]
  rcases h with h | h
  · rw [playLine, h]
    exact hone
  · rw [playLine, h]
    exact hone

theorem unshown_playAction (g : Game) (token : String) :
    Transcript.Unshown (g.playAction token) := by
  obtain ⟨opening, entries, h⟩ := g.exists_course token
  intro e he
  rw [h.parts, List.mem_append, List.mem_append, List.mem_singleton] at he
  rcases he with he | he | rfl
  · exact .inl (h.silent e he)
  · exact .inr (h.written e he)
  · exact .inl rfl

/-- Wherever the log refuses an entry of an action, the same game is left. -/
theorem record_playAction (w : Writer σ) (g : Game) (log : σ) (token : String) :
    (∃ next, w.Refused next ∧ g.record w log (g.playAction token) =
      ⟨⟨g.boardAfter token, g.turn, true⟩, next, some .sinkFull⟩) ∨
    ∃ next, g.record w log (g.playAction token) =
      ⟨⟨g.boardAfter token, g.turn.opposite, true⟩, next, none⟩ := by
  obtain ⟨opening, entries, h⟩ := g.exists_course token
  rw [h.parts, ← h.opened]
  exact record_change_write_change h.silent h.written

theorem record_playTurn {i : Intent} {board : Board} (w : Writer σ) (log : σ)
    (hi : g.board.intend i g.turn = .ok board) :
    (∃ next, w.Refused next ∧ g.record w log (g.playTurn i) =
      ⟨{ g with board }, next, some .sinkFull⟩) ∨
    ∃ next, g.record w log (g.playTurn i) = ⟨⟨board, g.turn.opposite, true⟩, next, none⟩ := by
  obtain ⟨token, e, _, _, hturn, _⟩ := playTurn_eq hi
  have hparts : g.playTurn i = [.update { g with board }] ++
      ((.log e :: board.logged) ++ [.update ⟨board, g.turn.opposite, true⟩]) := hturn
  rw [hparts]
  apply record_change_write_change
  · simp [Event.isSilent]
  · exact List.forall_mem_cons.mpr ⟨rfl, board.isEntry_logged⟩

theorem unshown_playTurn {i : Intent} (hi : g.board.Permits g.turn i) :
    Transcript.Unshown (g.playTurn i) := by
  obtain ⟨token, hr⟩ := exists_replaysAs hi
  intro e he
  exact Event.isSilent_or_isEntry_of_isRecorded (hr.isRecorded e he)

private theorem boardAfter_eq_iff : g.boardAfter token = g.board ↔ g.accepted? token = none := by
  unfold boardAfter
  cases h : g.accepted? token with
  | none => simp
  | some board => simp [ne_of_accepted? h]

/-- A line with one action, on a log that refuses a piece of text somewhere: the board is left as by
the whole line, and the turn as before. So board and turn are both those from before the line, or
both those after the whole of it, exactly if the action is not accepted. -/
theorem failed_turn_whole_iff_not_accepted (w : Writer σ) (log : σ) (g : Game)
    (line token : String)
    (hline : ofLine line = .movements [token] ∨ ofLine line = .castles [token])
    (hfail : (g.record w log (g.playLine line)).fault ≠ none) :
    let left := (g.record w log (g.playLine line)).game
    let full := g.after (g.playLine line)
    (∀ (τ : Type) (v : Writer τ) (other : τ), v.NeverFails →
      ∃ next, g.record v other (g.playLine line) = ⟨full, next, none⟩) ∧
    (∀ s : Session, s.game = g →
      let done := s.perform (g.playLine line)
      g.record Sink.writer s.log (g.playLine line) = ⟨done.1.game, done.1.log, done.2⟩) ∧
    left.board = full.board ∧ left.turn = g.turn ∧ full.turn = g.turn.opposite ∧
    (left.board = g.board ∧ left.turn = g.turn ∨
        left.board = full.board ∧ left.turn = full.turn ↔ g.accepted? token = none) := by
  rw [playLine_of_single hline] at hfail ⊢
  have hquiet := g.unshown_playAction token
  have hleft : (g.record w log (g.playAction token)).game =
      ⟨g.boardAfter token, g.turn, true⟩ := by
    rcases g.record_playAction w log token with ⟨next, _, hstop⟩ | ⟨next, hgo⟩
    · rw [hstop]
    · simp [hgo] at hfail
  rw [hleft, after_playAction]
  refine ⟨?_, ?_, rfl, rfl, rfl, ?_⟩
  · intro τ v other hv
    rw [← after_playAction]
    exact record_of_neverFails hv hquiet
  · rintro s rfl done
    exact Session.perform_eq_record hquiet
  · have hturn : g.turn ≠ g.turn.opposite := g.turn.opposite_ne.symm
    rw [← boardAfter_eq_iff]
    simp [hturn]

/-- A log that counts the pieces of text it still takes, and refuses in the middle of a line. -/
theorem failed_turn_at_line_feed :
    let w : Writer Nat := ⟨fun left _ => (left - 1, left != 0)⟩
    let g : Game := ⟨Board.empty.afterAll [.placeToken "Ple2"], .white, false⟩
    let left := (g.record w 3 (g.playLine "e2-e4")).game
    (ofLine "e2-e4" = .movements ["e2-e4"] ∧ (g.record w 3 (g.playLine "e2-e4")).fault ≠ none) ∧
      left.board = (g.after (g.playLine "e2-e4")).board ∧ left.turn = .white ∧
      ¬ (left.board = g.board ∧ left.turn = g.turn ∨
        left.board = (g.after (g.playLine "e2-e4")).board ∧
          left.turn = (g.after (g.playLine "e2-e4")).turn) := by
  intro w g left
  have hline : ofLine "e2-e4" = .movements ["e2-e4"] := by decide +kernel
  have hfail : (g.record w 3 (g.playLine "e2-e4")).fault ≠ none := by decide +kernel
  obtain ⟨_, _, hboard, hturn, _, hiff⟩ :=
    failed_turn_whole_iff_not_accepted w 3 g "e2-e4" "e2-e4" (.inl hline) hfail
  refine ⟨⟨hline, hfail⟩, hboard, hturn, ?_⟩
  intro hwhole
  have hrefused : g.accepted? "e2-e4" = none := hiff.mp hwhole
  have haccepted : g.accepted? "e2-e4" ≠ none := by decide +kernel
  exact haccepted hrefused

/-- With no room on the log, White's pawn has gone and it is White's turn again. -/
theorem moved_side_to_move_again :
    let s : Session := { Session.fresh (some 0) with
      game := ⟨Board.empty.afterAll [.placeToken "Ple2"], .white, false⟩ }
    let left := s.perform (s.game.playLine "e2-e4")
    let full := s.game.after (s.game.playLine "e2-e4")
    left.2 = some .sinkFull ∧
      ¬ (left.1.game.board = s.game.board ∧ left.1.game.turn = s.game.turn) ∧
      ¬ (left.1.game.board = full.board ∧ left.1.game.turn = full.turn) := by
  decide +kernel

end Game

end Scoresheet
