import Scoresheet.Proofs.Token.Recognition
import Scoresheet.Session.Replay
/-!
# Tokens that are sorted but not read

Lines are sorted by the shapes of their tokens, and the tokens of an action line are read one after
the other. Only one kind of token has the shape of a movement and cannot be read: the one that
starts with a capital file.
-/
namespace Scoresheet.Game

open Directive

variable {g : Game} {token t : String} {e : TokenError}

theorem unreadable_mem_playMovement_iff :
    .log (.unreadable t e) ∈ g.playMovement token ↔
      t = token ∧ Movement.ofToken token = .error e := by
  unfold playMovement
  cases Movement.ofToken token with
  | error found => simp [eq_comm]
  | ok m =>
    simp only
    cases g.board.move m g.turn <;> simp [Board.logged]

theorem unreadable_not_mem_playCastle (side : CastleSide) :
    .log (.unreadable t e) ∉ g.playCastle side.token := by
  unfold playCastle
  rw [CastleSide.ofToken_token]
  simp only
  cases g.board.castleRefusal? side g.turn <;> simp [Board.logged]

/-- An action without blanks is answered as unreadable exactly if it starts with a capital file. -/
theorem unreadable_mem_playAction_iff (hb : Text.BlankFree token.toList)
    (ha : isAction token = true) :
    (∃ e, .log (.unreadable t e) ∈ g.playAction token) ↔
      t = token ∧ startsWithCapitalFile t = true := by
  unfold playAction
  by_cases hc : isCastle token = true
  · obtain ⟨side, rfl⟩ := isCastle_iff.mp hc
    have hno : ¬ (t = side.token ∧ startsWithCapitalFile t = true) := by
      rintro ⟨rfl, h⟩
      simp [startsWithCapitalFile_castle] at h
    simp [hc, unreadable_not_mem_playCastle, hno]
  · have hm : isMovement token = true := by simpa [isAction, hc] using ha
    have hr := readable_iff hb
    simp only [hm, true_and] at hr
    simp only [hc, if_false, List.mem_cons, List.mem_append, reduceCtorEq, false_or, or_false,
      List.not_mem_nil, unreadable_mem_playMovement_iff, exists_and_left, Bool.false_eq_true]
    apply and_congr_right
    rintro rfl
    cases hread : Movement.ofToken t with
    | error found => simpa [hread] using hr
    | ok m => simpa [hread] using hr

private theorem unreadable_mem_playActions_iff {tokens : List String}
    (hb : ∀ token ∈ tokens, Text.BlankFree token.toList)
    (ha : ∀ token ∈ tokens, isAction token = true) :
    (∃ e, .log (.unreadable t e) ∈ g.playActions tokens) ↔
      t ∈ tokens ∧ startsWithCapitalFile t = true := by
  -- for any game, since what is answered to a token does not depend on the game
  induction tokens generalizing g with
  | nil => simp [playActions]
  | cons token tokens ih =>
    have hfirst := unreadable_mem_playAction_iff (g := g) (t := t)
      (hb token (by simp)) (ha token (by simp))
    have hrest := ih (g := g.after (g.playAction token))
      (fun other ho => hb other (by simp [ho])) (fun other ho => ha other (by simp [ho]))
    simp only [playActions, List.mem_append, exists_or, hfirst, hrest, List.mem_cons, or_and_right]

/-- The classifier and the reader of movements agree on a token without blanks exactly if it does
not start with a capital file; and among the tokens of an action line it is answered as unreadable
exactly if it does. -/
theorem unreadable_iff_startsWithCapitalFile (token : String) (hb : Text.BlankFree token.toList) :
    ((isMovement token = true ↔ ∃ m, Movement.ofToken token = .ok m) ↔
        startsWithCapitalFile token = false) ∧
      ∀ (g : Game) (line : String) (tokens : List String),
        ofLine line = .movements tokens ∨ ofLine line = .castles tokens →
        ((∃ e, .log (.unreadable token e) ∈ g.playLine line) ↔
          token ∈ tokens ∧ startsWithCapitalFile token = true) := by
  constructor
  · rw [readable_iff hb]
    cases hs : startsWithCapitalFile token with
    | false => simp
    | true => simp [isMovement_of_startsWithCapitalFile hs]
  · intro g line tokens hline
    have hacts : (ofLine line).actions? = some tokens := by
      rcases hline with h | h <;> rw [h] <;> rfl
    have hplay : g.playLine line = g.playActions tokens := by
      rcases hline with h | h <;> rw [playLine, h]
    rw [hplay]
    apply unreadable_mem_playActions_iff
    · intro other ho
      exact (actions?_ofLine hacts other ho).1
    · intro other ho
      exact (actions?_ofLine hacts other ho).2

/-- A token that is read, and one that only has the shape of a movement. -/
theorem unreadable_iff_at_two_tokens :
    (∃ m, Movement.ofToken "Nb1-c3" = .ok m) ∧
      (¬ ∃ e, .log (.unreadable "Nb1-c3" e) ∈ Game.fresh.playLine "Nb1-c3 O-O") ∧
      ∃ e, .log (.unreadable "B1-C3" e) ∈ Game.fresh.playLine "O-O B1-C3" := by
  obtain ⟨hread, hline⟩ := unreadable_iff_startsWithCapitalFile "Nb1-c3" (by decide)
  obtain ⟨_, hline'⟩ := unreadable_iff_startsWithCapitalFile "B1-C3" (by decide)
  refine ⟨?_, ?_, ?_⟩
  · exact (hread.mpr (by decide)).mp (by decide)
  · rw [hline Game.fresh "Nb1-c3 O-O" ["Nb1-c3", "O-O"] (.inr (by decide +kernel))]
    decide
  · rw [hline' Game.fresh "O-O B1-C3" ["O-O", "B1-C3"] (.inr (by decide +kernel))]
    decide

/-- A capital file is recognised in a movement, and then the movement is not read. -/
theorem capital_file_not_read :
    isMovement "B1-C3" = true ∧ Movement.ofToken "B1-C3" = .error (.noFile "B1-C3" 1) ∧
      ofLine "B1-C3" = .movements ["B1-C3"] ∧
      .log (.unreadable "B1-C3" (.noFile "B1-C3" 1)) ∈ Game.fresh.playLine "B1-C3" := by
  refine ⟨by decide, by rfl, by decide +kernel, by decide +kernel⟩

end Scoresheet.Game
