import Scoresheet.Proofs.Session.Lines
import Scoresheet.Proofs.Session.Replaying
/-!
# Lines in sequence

What lines come to one after the other depends on what each of them asks for, and on no more: the
notes that announce them have no part in the game, the log or the fault that is left, so a directive
file comes to the same as its lines taken one by one.
-/
namespace Scoresheet

def Event.isNote : Event → Bool
  | note _ => true
  | _ => false

def Transcript.bare (es : List Event) : List Event := es.filter fun e => !e.isNote

open Transcript (Unshown bare)

theorem Transcript.bare_append (es fs : List Event) : bare (es ++ fs) = bare es ++ bare fs :=
  List.filter_append es fs

namespace Game

variable {g : Game} {line : String} {lines others : List String}

theorem record_bare {σ : Type} {w : Writer σ} (g : Game) (log : σ) (es : List Event) :
    g.record w log (bare es) = g.record w log es := by
  induction es generalizing g log with
  | nil => rfl
  | cons e es ih =>
    cases e with
    | note n => exact ih g log
    | update next => exact ih next log
    | fault f => rfl
    | say text => exact ih g log
    | prompt => exact ih g log
    | log entry =>
      have hkept : bare (.log entry :: es) = .log entry :: bare es := rfl
      rw [hkept, record, record]
      split
      · exact ih g _
      · rfl

def playAll (g : Game) : List String → List Event
  | [] => []
  | line :: lines => g.playLine line ++ (g.after (g.playLine line)).playAll lines

private theorem playAll_append (g : Game) (lines others : List String) :
    g.playAll (lines ++ others) = g.playAll lines ++ (g.after (g.playAll lines)).playAll others := by
  induction lines generalizing g with
  | nil => rfl
  | cons line lines ih =>
    rw [List.cons_append, playAll, ih, playAll, after_append, List.append_assoc]

theorem playAll_single (g : Game) (line : String) : g.playAll [line] = g.playLine line := by
  rw [playAll, playAll, List.append_nil]

private theorem playLine_congr {other : String}
    (h : Directive.ofLine line = Directive.ofLine other) :
    g.playLine line = g.playLine other := by
  rw [playLine, playLine, h]

private theorem playAll_congr (h : lines.map Directive.ofLine = others.map Directive.ofLine) :
    g.playAll lines = g.playAll others := by
  induction lines generalizing g others with
  | nil => rw [List.map_eq_nil_iff.mp h.symm]
  | cons line lines ih =>
    obtain ⟨other, rest, rfl, hother, hrest⟩ := List.map_eq_cons_iff.mp h.symm
    rw [playAll, playAll, playLine_congr hother, ih hrest.symm]

private theorem unshown_playAll (g : Game) (lines : List String) : Unshown (g.playAll lines) := by
  induction lines generalizing g with
  | nil => simp [playAll, Unshown]
  | cons line lines ih => exact (g.unshown_playLine line).append (ih _)

private theorem after_playAll (g : Game) (lines : List String) :
    g.after (g.playAll lines) = g.carriedOutAll lines := by
  induction lines generalizing g with
  | nil => rfl
  | cons line lines ih => rw [playAll, after_append, ih, after_playLine, carriedOutAll_cons]

private theorem bare_replayFrom (g : Game) (number : Nat) (lines : List String) :
    bare (g.replayFrom number lines) = bare (g.playAll lines) := by
  induction lines generalizing g number with
  | nil => rfl
  | cons line lines ih =>
    have hline : bare (g.playNumbered number line) = bare (g.playLine line) := rfl
    have hafter : g.after (g.playNumbered number line) = g.after (g.playLine line) := rfl
    rw [replayFrom, Transcript.bare_append, hline, hafter, ih, playAll, Transcript.bare_append]

end Game

namespace Session

variable {s next : Session} {lines others : List String}

/-- What is left of a session that was performed up to its end or a fault: the game, the log, and the
fault. -/
def recorded (done : Session × Option Fault) : Recorded Sink := ⟨done.1.game, done.1.log, done.2⟩

theorem playLines_eq (s : Session) (lines : List String) :
    s.playLines lines = s.perform (s.game.playAll lines) := by
  induction lines generalizing s with
  | nil => rfl
  | cons line lines ih =>
    rw [playLines, Game.playAll]
    rcases hline : s.perform (s.game.playLine line) with ⟨mid, _ | f⟩
    · rw [perform_append_of_none hline, ← game_of_perform hline, ← ih mid]
    · rw [perform_append_of_some hline]

theorem playLines_append_of_none (h : s.playLines lines = (next, none)) (others : List String) :
    s.playLines (lines ++ others) = next.playLines others := by
  rw [playLines_eq] at h
  rw [playLines_eq, Game.playAll_append, perform_append_of_none h, ← game_of_perform h, playLines_eq]

theorem playLines_congr (h : lines.map Directive.ofLine = others.map Directive.ofLine) :
    s.playLines lines = s.playLines others := by
  rw [playLines_eq, playLines_eq, Game.playAll_congr h]

theorem recorded_playLines_eq (s : Session) (lines : List String) : recorded (s.playLines lines) =
    s.game.record Sink.writer s.log (s.game.playAll lines) := by
  rw [playLines_eq, perform_eq_record (s.game.unshown_playAll lines), recorded]

theorem playLines_of_room_eq_none (hroom : s.log.room = none) (lines : List String) :
    ∃ next, s.playLines lines = (next, none) ∧ next.game = s.game.carriedOutAll lines := by
  obtain ⟨next, hp, hgame, _⟩ := perform_unshown hroom (s.game.unshown_playAll lines)
  rw [Game.after_playAll] at hgame
  rw [playLines_eq]
  exact ⟨next, hp, hgame⟩

theorem fault_playLines (hroom : s.log.room = none) (lines : List String) :
    (s.playLines lines).2 = none := by
  obtain ⟨next, hp, _⟩ := playLines_of_room_eq_none hroom lines
  rw [hp]

def replayed (s : Session) (text : List UInt8) : Session × Option Fault :=
  s.perform (s.game.replay (Text.textLines text))

/-- A directive file comes to the same as its lines one by one. -/
theorem recorded_replayed (s : Session) (text : List UInt8) :
    recorded (s.replayed text) = recorded (s.playLines (Text.textLines text)) := by
  let announced := s.game.replay (Text.textLines text)
  have hbare : bare announced = bare (s.game.playAll (Text.textLines text)) :=
    s.game.bare_replayFrom 1 _
  calc
    recorded (s.replayed text) = s.game.record Sink.writer s.log announced :=
      (perform_eq_record (s.game.unshown_replayFrom 1 _)).symm
    _ = s.game.record Sink.writer s.log (s.game.playAll (Text.textLines text)) := by
      rw [← Game.record_bare, hbare, Game.record_bare]
    _ = recorded (s.playLines (Text.textLines text)) := (s.recorded_playLines_eq _).symm

theorem fault_replayed (hroom : s.log.room = none) (text : List UInt8) :
    (s.replayed text).2 = none := by
  have hsame := congrArg Recorded.fault (s.recorded_replayed text)
  exact hsame.trans (fault_playLines hroom _)

end Session

end Scoresheet
