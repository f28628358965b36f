import Scoresheet.Proofs.Session.Actions
/-!
# Recording on any log

A sink is one kind of log, which fails only when it is full. Here a log is anything that text can be
written to and that may refuse any piece of it. Events are recorded as far as the log goes along:
the game a refusal leaves is the one that the events before the refused entry led to. Since an action
changes the board before its first entry and passes the turn after its last, every refusal within it
finds the board changed and the turn not passed.
-/
namespace Scoresheet

/-- How a log takes a piece of text: what becomes of the log, and whether the piece was taken. -/
structure Writer (σ : Type) where
  write : σ → String → σ × Bool

namespace Writer

variable {σ : Type} (w : Writer σ)

/-- Writes a line as its text and its line feed. Without the text the line feed is not tried. -/
def writeLine (log : σ) (line : String) : σ × Bool :=
  match w.write log line with
  | (next, true) => w.write next "\n"
  | (next, false) => (next, false)

def NeverFails : Prop := ∀ log piece, (w.write log piece).2 = true

theorem NeverFails.writeLine {w : Writer σ} (h : w.NeverFails) (log : σ) (line : String) :
    (w.writeLine log line).2 = true := by
  have htext := h log line
  unfold Writer.writeLine
  split
  · exact h _ _
  · next hno => simp [hno] at htext

/-- Whether a log is what a refused line leaves. -/
def Refused (log : σ) : Prop := ∃ before line, w.writeLine before line = (log, false)

end Writer

namespace Sink

variable {s : Sink}

private theorem write_of_not_accepts {piece : String} (h : s.accepts piece = false) :
    s.write piece = s := by
  simp [write, h]

private theorem room_of_not_accepts {piece : String} (h : s.accepts piece = false) :
    s.room = some 0 := by
  obtain ⟨_, hroom⟩ : ¬ piece = "" ∧ s.room = some 0 := by simpa [accepts] using h
  exact hroom

private theorem room_writeLine_of_not_acceptsLine {line : String} (h : s.acceptsLine line = false) :
    (s.writeLine line).room = some 0 := by
  rcases Bool.and_eq_false_iff.mp h with hline | hfeed
  · have hsame : s.writeLine line = s := by simp [writeLine, hline]
    rw [hsame]
    exact room_of_not_accepts hline
  · have hkept : (s.write line).write "\n" = s.write line := write_of_not_accepts hfeed
    have hfull : (s.write line).room = some 0 := room_of_not_accepts hfeed
    cases hline : s.accepts line with
    | true => simp [writeLine, hline, hkept, hfull]
    | false => simpa [writeLine, write_of_not_accepts hline, hline] using hfull

theorem room_write_of_full (h : s.room = some 0) (piece : String) :
    (s.write piece).room = some 0 := by
  unfold write
  split
  · simp [h]
  · exact h

theorem room_writeLine_of_full (h : s.room = some 0) {line : String} :
    (s.writeLine line).room = some 0 := by
  unfold writeLine
  split
  · exact room_write_of_full (room_write_of_full h line) "\n"
  · exact h

end Sink

def Sink.writer : Writer Sink := ⟨fun s piece => (s.write piece, s.accepts piece)⟩

private theorem Sink.writeLine_writer (s : Sink) (line : String) :
    Sink.writer.writeLine s line = (s.writeLine line, s.acceptsLine line) := by
  have hwrite (t : Sink) (piece : String) :
      Sink.writer.write t piece = (t.write piece, t.accepts piece) := rfl
  unfold Writer.writeLine Sink.writeLine Sink.acceptsLine
  cases h : s.accepts line with
  | true => simp [hwrite, h]
  | false => simp [hwrite, write, h]

theorem Sink.room_of_refused {s : Sink} (h : Sink.writer.Refused s) : s.room = some 0 := by
  obtain ⟨before, line, hline⟩ := h
  rw [before.writeLine_writer, Prod.mk.injEq] at hline
  obtain ⟨rfl, hno⟩ := hline
  exact room_writeLine_of_not_acceptsLine hno

/-- How far recording went. -/
structure Recorded (σ : Type) where
  game : Game
  log : σ
  fault : Option Fault

namespace Game

variable {σ : Type} (w : Writer σ)

/-- Records events up to the first entry that the log refuses. -/
def record (g : Game) (log : σ) : List Event → Recorded σ
  | [] => ⟨g, log, none⟩
  | .update next :: es => next.record log es
  | .log e :: es =>
    match w.writeLine log e.text with
    | (next, true) => g.record next es
    | (next, false) => ⟨g, next, some .sinkFull⟩
  | .fault f :: _ => ⟨g, log, some f⟩
  | _ :: es => g.record log es

variable {w} {g : Game} {log : σ} {es fs : List Event}

private theorem record_silent (h : ∀ e ∈ es, e.isSilent = true) :
    g.record w log (es ++ fs) = (g.after es).record w log fs := by
  induction es generalizing g with
  | nil => rfl
  | cons e es ih =>
    obtain ⟨he, hes⟩ := List.forall_mem_cons.mp h
    cases e with
    | note n => exact ih hes
    | update next => exact ih hes
    | _ => cases he

private theorem record_entries (h : ∀ e ∈ es, e.isEntry = true) :
    (∃ next, w.Refused next ∧ g.record w log (es ++ fs) = ⟨g, next, some .sinkFull⟩) ∨
      ∃ next, g.record w log (es ++ fs) = g.record w next fs := by
  -- on the entries; each refusal ends the recording with the game as it was
  induction es generalizing log with
  | nil => exact .inr ⟨log, rfl⟩
  | cons e es ih =>
    obtain ⟨he, hes⟩ := List.forall_mem_cons.mp h
    cases e with
    | log entry =>
      rcases hw : w.writeLine log entry.text with ⟨next, _ | _⟩
      · refine .inl ⟨next, ⟨log, entry.text, hw⟩, ?_⟩
        simp [record, hw]
      · have hrest : g.record w log (.log entry :: es ++ fs) = g.record w next (es ++ fs) := by
          simp [record, hw]
        rw [hrest]
        exact ih hes
    | _ => cases he

theorem record_change_write_change {full : Game} (hes : ∀ e ∈ es, e.isSilent = true)
    (hfs : ∀ e ∈ fs, e.isEntry = true) :
    (∃ next, w.Refused next ∧
      g.record w log (es ++ (fs ++ [.update full])) = ⟨g.after es, next, some .sinkFull⟩) ∨
    ∃ next, g.record w log (es ++ (fs ++ [.update full])) = ⟨full, next, none⟩ := by
  rw [record_silent hes]
  exact record_entries hfs

theorem record_of_neverFails (hw : w.NeverFails) (h : ∀ e ∈ es, e.isSilent ∨ e.isEntry) :
    ∃ next, g.record w log es = ⟨g.after es, next, none⟩ := by
  induction es generalizing g log with
  | nil => exact ⟨log, rfl⟩
  | cons e es ih =>
    obtain ⟨he, hes⟩ := List.forall_mem_cons.mp h
    cases e with
    | note n => exact ih hes
    | update next => exact ih hes
    | log entry =>
      have hline := hw.writeLine log entry.text
      rcases hmid : w.writeLine log entry.text with ⟨mid, _ | _⟩
      · simp [hmid] at hline
      · have hrest : g.record w log (.log entry :: es) = g.record w mid es := by
          simp [record, hmid]
        rw [hrest]
        exact ih hes
    | _ => simp [Event.isSilent, Event.isEntry] at he

end Game

/-- What a session performs that shows nothing on the console is recorded on its sink. -/
theorem Session.perform_eq_record {s : Session} {es : List Event}
    (h : Transcript.Unshown es) :
    s.game.record Sink.writer s.log es =
      ⟨(s.perform es).1.game, (s.perform es).1.log, (s.perform es).2⟩ := by
  induction es generalizing s with
  | nil => rfl
  | cons e es ih =>
    obtain ⟨he, hes⟩ := List.forall_mem_cons.mp h
    cases e with
    | note n => exact ih (s := { s with notes := s.notes.push n }) hes
    | update g => exact ih (s := { s with game := g }) hes
    | log entry =>
      have hline := s.log.writeLine_writer entry.text
      cases hacc : s.log.acceptsLine entry.text with
      | true =>
        rw [hacc] at hline
        let next : Session := { s with
          log := s.log.writeLine entry.text, notes := s.notes.push ⟨.trace, entry.text⟩ }
        have hone : s.performOne (.log entry) = (next, none) := by
          simp [performOne, faultUnless, hacc, next]
        rw [perform_cons_of_none hone, ← ih (s := next) hes]
        simp [Game.record, hline, next]
      | false =>
        rw [hacc] at hline
        simp [Game.record, hline, perform, performOne, faultUnless, hacc]
    | _ => simp [Event.isSilent, Event.isEntry] at he

end Scoresheet
