import Scoresheet.Proofs.Session.Conversing
/-!
# Replaying a play from its log

The tokens that interactive play logs, taken as lines of their own, lead through the same play
again: to the same game, and to the same log but for the ending.
-/
namespace Scoresheet

namespace Session

variable {s : Session}

/-- Carries out lines one after the other until a fault ends the session. -/
def playLines (s : Session) : List String → Session × Option Fault
  | [] => (s, none)
  | line :: lines =>
    match s.perform (s.game.playLine line) with
    | (next, none) => next.playLines lines
    | (next, some f) => (next, some f)

private theorem playLines_cons_of_none {next : Session} {line : String}
    (h : s.perform (s.game.playLine line) = (next, none)) (lines : List String) :
    s.playLines (line :: lines) = next.playLines lines := by
  rw [playLines, h]

/-- The tokens of permitted turns, taken as lines, do what the turns did. -/
theorem playLines_tokens {turns : List Intent} (h : s.game.Playable turns)
    (hroom : s.log.room = none) :
    ∃ next, s.playLines ((s.game.playTurns turns).filterMap Event.token?) = (next, none) ∧
      next.game = s.game.after (s.game.playTurns turns) ∧
      next.log.text = s.log.text ++ Transcript.logText (s.game.playTurns turns) := by
  -- on the turns: a turn and its line leave the same game, so that the next ones start alike
  induction turns generalizing s with
  | nil => exact ⟨s, rfl, rfl, by simp [Game.playTurns]⟩
  | cons i is ih =>
    obtain ⟨hi, his⟩ := h
    obtain ⟨token, hr⟩ := Game.exists_replaysAs hi
    obtain ⟨mid, hp, hgame, htext, hroom'⟩ := perform_recorded hroom hr.isRecorded_line
    rw [hr.after] at hgame
    obtain ⟨next, hp', hgame', htext'⟩ := ih (hgame ▸ his) hroom'
    rw [hgame] at hp' hgame' htext'
    refine ⟨next, ?_, ?_, ?_⟩
    · rw [Game.playTurns, List.filterMap_append, hr.tokens, List.singleton_append,
        playLines_cons_of_none hp, hp']
    · rw [hgame', Game.playTurns, Game.after_append]
    · rw [htext', htext, hr.logText, Game.playTurns, Transcript.logText_append,
        String.append_assoc]

/-- What interactive play logs is what its turns log and an ending. The tokens read from the log,
taken as lines, lead from where play began to the same game, and log the same without the ending.
Play never logs an error. All this holds whatever bytes the console gives and wherever it fails. -/
theorem play_replayed_from_log (hs : s.game.board.Seated) (hroom : s.log.room = none)
    (input : List UInt8) :
    let done := s.perform (s.game.interact (Text.lines input))
    ∃ (play : String) (ending : List Event),
      let written := play ++ Transcript.logText ending
      let replayed := s.playLines (Log.actionTokens written)
      done.1.log.text = s.log.text ++ written ∧
      done.1.game.Ending done.2 ending ∧
      replayed.2 = none ∧
      replayed.1.game = done.1.game ∧
      replayed.1.log.text = s.log.text ++ play ∧
      ∀ line ∈ Log.lines written, ¬ Log.errorHead <+: line := by
  intro done
  obtain ⟨turns, ending, hturns, hgame, htext, hend⟩ :=
    Game.playsOut_interact hs (Text.lines input) s rfl hroom
  have hplay : Transcript.OfPlay (s.game.playTurns turns ++ ending) :=
    (Game.ofPlay_playTurns hturns).append hend.ofPlay
  have htokens : Log.actionTokens
      (Transcript.logText (s.game.playTurns turns) ++ Transcript.logText ending) =
        (s.game.playTurns turns).filterMap Event.token? := by
    rw [← Transcript.logText_append, Transcript.actionTokens_logText hplay,
      List.filterMap_append, hend.filterMap_token?, List.append_nil]
  obtain ⟨next, hreplay, hnext, hlog⟩ := playLines_tokens hturns hroom
  refine ⟨Transcript.logText (s.game.playTurns turns), ending, ?_, ?_, ?_, ?_, ?_, ?_⟩
  · rw [htext, String.append_assoc]
  · rwa [hgame]
  · rw [htokens, hreplay]
  · rw [htokens, hreplay, hgame]
    exact hnext
  · rw [htokens, hreplay]
    exact hlog
  · rw [← Transcript.logText_append]
    exact Transcript.not_error_of_mem_lines hplay

/-- White castles by the third option of the menu, after which Black has nothing to play. -/
theorem castle_replayed_from_log :
    let s : Session := { fresh none with
      game := ⟨Board.empty.afterAll [.placeToken "Kle1", .placeToken "Rlh1"], .white, false⟩ }
    let done := s.perform (s.game.interact (Text.lines [0x33, 0x0A]))
    done.2 = none ∧
      done.1.game = ⟨s.game.board.castle .king .white, .black, true⟩ ∧
      (s.playLines (Log.actionTokens done.1.log.text)).1.game = done.1.game := by
  intro s done
  have hs : s.game.board.Seated := Board.seated_empty.afterAll _
  have hempty : s.log.text = "" := rfl
  have hend : done.2 = none := by decide +kernel
  have hgame : done.1.game = ⟨s.game.board.castle .king .white, .black, true⟩ := by decide +kernel
  obtain ⟨play, ending, htext, _, _, hreplay, _⟩ := play_replayed_from_log hs rfl [0x33, 0x0A]
  have hdone : s.perform (s.game.interact (Text.lines [0x33, 0x0A])) = done := rfl
  rw [hdone, hempty, String.empty_append] at htext
  rw [hdone, ← htext] at hreplay
  exact ⟨hend, hgame, hreplay⟩

end Session

end Scoresheet
