import Mathlib.Data.List.Basic
import Scoresheet.Proofs.Board.Seating
import Scoresheet.Proofs.Log.Reading
import Scoresheet.Proofs.Session.Performing
import Scoresheet.Session.Dialogue
/-!
# Turns

A turn of interactive play and the line with the token that it is logged under do the same to the
game and write the same to the log. What a play of several turns logs can be read back from the
text.
-/
namespace Scoresheet

namespace Event

def entry? : Event → Option Entry
  | log e => some e
  | _ => none

def token? (e : Event) : Option String := e.entry?.bind Entry.token?

end Event

namespace Transcript

variable {es : List Event}

/-- Whether the entries made are all those of interactive play. -/
def OfPlay (es : List Event) : Prop := ∀ e, .log e ∈ es → e.OfPlay

theorem OfPlay.append {fs : List Event} (he : OfPlay es) (hf : OfPlay fs) : OfPlay (es ++ fs) := by
  intro e h
  rcases List.mem_append.mp h with h | h
  · exact he e h
  · exact hf e h

/-- Whether all that is quoted in the entries made is on one line. -/
def Tidy (es : List Event) : Prop := ∀ e, .log e ∈ es → e.Tidy

theorem OfPlay.tidy (h : OfPlay es) : Tidy es := by
  intro e he
  exact (h e he).tidy

theorem Tidy.append {fs : List Event} (he : Tidy es) (hf : Tidy fs) : Tidy (es ++ fs) := by
  intro e h
  rcases List.mem_append.mp h with h | h
  · exact he e h
  · exact hf e h

def written (es : List Event) : List String := (es.filterMap Event.entry?).map Entry.text

theorem written_append (es fs : List Event) : written (es ++ fs) = written es ++ written fs := by
  rw [written, List.filterMap_append, List.map_append]
  rfl

theorem logText_eq_ofLines (es : List Event) : logText es = Log.ofLines (written es) := by
  induction es with
  | nil => rfl
  | cons e es ih =>
    rw [logText_cons, ih]
    cases e with
    | log entry => exact (Log.ofLines_cons entry.text (written es)).symm
    | _ => exact String.empty_append

theorem onOneLine_of_mem_written (h : Tidy es) : ∀ line ∈ written es, OnOneLine line := by
  intro line hline
  obtain ⟨e, he, rfl⟩ := List.mem_map.mp hline
  obtain ⟨event, hmem, hev⟩ := List.mem_filterMap.mp he
  cases event with
  | log entry =>
    obtain rfl := Option.some.inj hev
    exact (h entry hmem).onOneLine_text
  | _ => cases hev

theorem lines_logText (h : Tidy es) :
    Log.lines (logText es) = (written es).map String.toList ++ [[]] := by
  rw [logText_eq_ofLines, Log.lines_ofLines (onOneLine_of_mem_written h)]

private theorem OfPlay.of_mem_entries (h : OfPlay es) :
    ∀ e ∈ es.filterMap Event.entry?, e.OfPlay := by
  intro e he
  obtain ⟨event, hmem, hev⟩ := List.mem_filterMap.mp he
  cases event with
  | log entry =>
    obtain rfl := Option.some.inj hev
    exact h entry hmem
  | _ => cases hev

/-- The tokens read from a log are those of its entries. -/
theorem actionTokens_logText (h : OfPlay es) :
    Log.actionTokens (logText es) = es.filterMap Event.token? := by
  have hempty : Log.actionToken? [] = none := by decide
  rw [Log.actionTokens, lines_logText h.tidy, List.filterMap_append, written, List.map_map,
    List.filterMap_map]
  simp only [List.filterMap_cons, hempty, List.filterMap_nil, List.append_nil]
  calc
    _ = (es.filterMap Event.entry?).filterMap Entry.token? := by
      apply List.filterMap_congr
      intro e he
      exact (h.of_mem_entries e he).actionToken?_text
    _ = es.filterMap Event.token? := List.filterMap_filterMap

theorem not_error_of_mem_lines (h : OfPlay es) :
    ∀ line ∈ Log.lines (logText es), ¬ Log.errorHead <+: line := by
  intro line hline
  rw [lines_logText h.tidy] at hline
  rcases List.mem_append.mp hline with hline | hline
  · obtain ⟨text, htext, rfl⟩ := List.mem_map.mp hline
    obtain ⟨e, he, rfl⟩ := List.mem_map.mp htext
    exact (h.of_mem_entries e he).not_error
  · rw [List.mem_singleton.mp hline]
    decide

end Transcript

theorem Board.Seated.intend {b next : Board} {i : Intent} {c : Color} (h : b.Seated)
    (hi : b.intend i c = .ok next) : next.Seated := by
  cases i with
  | move s t =>
    obtain ⟨m, _, hm⟩ := Board.intend_move_eq_ok_iff.mp hi
    exact h.move hm
  | castle side =>
    rw [← (Board.intend_castle_eq_ok_iff.mp hi).2]
    exact h.castle side c

theorem Board.ofPlay_logged (b : Board) : Transcript.OfPlay b.logged := by
  intro e he
  obtain ⟨row, hrow, h⟩ := List.mem_map.mp he
  rw [← Event.log.inj h]
  exact .diagramRow b row hrow

theorem Board.filterMap_token?_logged (b : Board) : b.logged.filterMap Event.token? = [] := by
  apply List.filterMap_eq_nil_iff.mpr
  intro e he
  obtain ⟨row, _, rfl⟩ := List.mem_map.mp he
  rfl

namespace Game

variable {g : Game}

@[simp] theorem after_log (e : Entry) (es : List Event) : g.after (.log e :: es) = g.after es := rfl

@[simp] theorem after_logged (b : Board) : g.after b.logged = g := after_entries b.isEntry_logged

/-- The end of a turn that led to a board: the entry and the diagram are logged, movement has begun,
and the turn passes. -/
def turnEnd (board : Board) (c : Color) (e : Entry) : List Event :=
  .log e :: (board.logged ++ [.update ⟨board, c.opposite, true⟩])

section TurnEnd

variable (board : Board) (c : Color) (e : Entry)

@[simp] theorem after_turnEnd : g.after (turnEnd board c e) = ⟨board, c.opposite, true⟩ := by
  rw [turnEnd, after_log, after_append, after_logged]
  rfl

private theorem isRecorded_turnEnd : ∀ event ∈ turnEnd board c e, event.isRecorded = true := by
  intro event h
  simp only [turnEnd, List.mem_cons, List.mem_append, List.not_mem_nil, or_false] at h
  rcases h with rfl | h | rfl
  · rfl
  · exact board.isRecorded_logged event h
  · rfl

private theorem ofPlay_turnEnd (he : e.OfPlay) : Transcript.OfPlay (turnEnd board c e) := by
  intro other h
  simp only [turnEnd, List.mem_cons, List.mem_append, List.not_mem_nil, or_false,
    Event.log.injEq, reduceCtorEq] at h
  rcases h with rfl | h
  · exact he
  · exact board.ofPlay_logged other h

private theorem filterMap_token?_turnEnd :
    (turnEnd board c e).filterMap Event.token? = e.token?.toList := by
  have hlast : [Event.update ⟨board, c.opposite, true⟩].filterMap Event.token? = [] := rfl
  rw [turnEnd, List.filterMap_cons, List.filterMap_append, board.filterMap_token?_logged, hlast]
  cases ht : e.token? <;> simp [Event.token?, Event.entry?, ht]

end TurnEnd

private theorem playCastle_eq {side : CastleSide} (h : g.board.canCastle side g.turn = true) :
    g.playCastle side.token =
      let board := g.board.castle side g.turn
      .update { g with board } :: .log (.castled side.token side g.turn) :: board.logged := by
  rw [playCastle, CastleSide.ofToken_token]
  simp only [Board.castleRefusal?_eq_none_iff.mpr h]

private theorem playMovement_eq {m : Movement} {board : Board}
    (h : g.board.move m g.turn = .ok board) :
    g.playMovement m.token =
      .update { g with board } :: .log (.moved m.token m g.turn (g.manAt m.target)) ::
        board.logged := by
  rw [playMovement, Movement.ofToken_token]
  simp only [h]

theorem playTurn_eq {i : Intent} {board : Board} (hi : g.board.intend i g.turn = .ok board) :
    ∃ token e, e.OfPlay ∧ e.token? = some token ∧
      g.playTurn i = .update { g with board } :: turnEnd board g.turn e ∧
      g.playLine token =
        .update { g with begun := true } :: .update ⟨board, g.turn, true⟩ ::
          turnEnd board g.turn e := by
  cases i with
  | castle side =>
    obtain ⟨hc, rfl⟩ := Board.intend_castle_eq_ok_iff.mp hi
    have hcastle : Directive.isCastle side.token = true :=
      Directive.isCastle_iff.mpr ⟨side, rfl⟩
    refine ⟨side.token, .castled side.token side g.turn, .castled side g.turn, rfl, ?_, ?_⟩
    · simp [playTurn, playIntent, hi, turnEnd, passed, after]
    · simp [playLine, Directive.ofLine_castle, playActions, playAction, hcastle,
        playCastle_eq (g := { g with begun := true }) hc, turnEnd, passed, after]
  | move s t =>
    obtain ⟨m, hm, hmove⟩ := Board.intend_move_eq_ok_iff.mp hi
    -- the log names what stood on the target before, and the line reads the target off its token
    have ht : m.target = t := by
      obtain ⟨p, _, rfl⟩ := Board.movement?_eq_some_iff.mp hm
      rfl
    refine ⟨m.token, .moved m.token m g.turn (g.manAt t), .moved m g.turn _, rfl, ?_, ?_⟩
    · simp [playTurn, playIntent, hm, hi, turnEnd, passed, after]
    · simp [playLine, Directive.ofLine_movement, playActions, playAction, Directive.isCastle_token,
        playMovement_eq (g := { g with begun := true }) hmove, turnEnd, passed, after, ht]
      rfl

/-- What a turn has in common with the line that is its token. -/
structure ReplaysAs (g : Game) (i : Intent) (token : String) : Prop where
  isRecorded : ∀ e ∈ g.playTurn i, e.isRecorded = true
  isRecorded_line : ∀ e ∈ g.playLine token, e.isRecorded = true
  ofPlay : Transcript.OfPlay (g.playTurn i)
  tokens : (g.playTurn i).filterMap Event.token? = [token]
  after : g.after (g.playLine token) = g.after (g.playTurn i)
  logText : Transcript.logText (g.playLine token) = Transcript.logText (g.playTurn i)

/-- A permitted turn is logged under a token that replays it. -/
theorem exists_replaysAs {i : Intent} (h : g.board.Permits g.turn i) :
    ∃ token, g.ReplaysAs i token := by
  obtain ⟨board, hi⟩ := h
  obtain ⟨token, e, he, ht, hturn, hline⟩ := playTurn_eq hi
  have hend := isRecorded_turnEnd board g.turn e
  refine ⟨token, ?_, ?_, ?_, ?_, ?_, ?_⟩
  · rw [hturn]
    exact List.forall_mem_cons.mpr ⟨rfl, hend⟩
  · rw [hline]
    exact List.forall_mem_cons.mpr ⟨rfl, List.forall_mem_cons.mpr ⟨rfl, hend⟩⟩
  · rw [hturn]
    intro other h
    rcases List.mem_cons.mp h with h | h
    · cases h
    · exact ofPlay_turnEnd board g.turn e he other h
  · rw [hturn, List.filterMap_cons, filterMap_token?_turnEnd, ht]
    rfl
  · rw [hturn, hline]
    simp
  · rw [hturn, hline]
    simp [Transcript.logText_cons, Event.logText]

theorem seated_after_playTurn {i : Intent} (hs : g.board.Seated) (h : g.board.Permits g.turn i) :
    (g.after (g.playTurn i)).board.Seated := by
  obtain ⟨board, hi⟩ := h
  obtain ⟨token, e, _, _, hturn, _⟩ := playTurn_eq hi
  rw [hturn, after_update, after_turnEnd]
  exact hs.intend hi

def playTurns (g : Game) : List Intent → List Event
  | [] => []
  | i :: is => g.playTurn i ++ (g.after (g.playTurn i)).playTurns is

def Playable (g : Game) : List Intent → Prop
  | [] => True
  | i :: is => g.board.Permits g.turn i ∧ (g.after (g.playTurn i)).Playable is

theorem ofPlay_playTurns {turns : List Intent} (h : g.Playable turns) :
    Transcript.OfPlay (g.playTurns turns) := by
  induction turns generalizing g with
  | nil => simp [playTurns, Transcript.OfPlay]
  | cons i is ih =>
    obtain ⟨hi, his⟩ := h
    obtain ⟨token, hr⟩ := exists_replaysAs hi
    exact hr.ofPlay.append (ih his)

end Game

end Scoresheet
