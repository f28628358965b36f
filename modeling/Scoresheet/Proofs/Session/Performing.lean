import Scoresheet.Session.Perform
import Scoresheet.Session.Replay
import Scoresheet.Session.Transcript
/-!
# Events that change the record and events that are shown

The record of a session is its game and its log. Some events bear on the record and cannot fail as
long as the log takes everything; the others leave it as it is, whether or not they end the session.
-/
namespace Scoresheet

namespace Event

/-- Whether an event bears on the record alone. -/
def isRecorded : Event → Bool
  | log _ => true
  | update _ => true
  | _ => false

def isShown (e : Event) : Bool := !e.isRecorded

/-- Whether an event is made without anything being written. -/
def isSilent : Event → Bool
  | note _ => true
  | update _ => true
  | _ => false

def isEntry : Event → Bool
  | log _ => true
  | _ => false

theorem isRecorded_of_isEntry {e : Event} (h : e.isEntry = true) : e.isRecorded = true := by
  cases e with
  | log entry => rfl
  | _ => cases h

theorem isSilent_or_isEntry_of_isRecorded {e : Event} (h : e.isRecorded = true) :
    e.isSilent ∨ e.isEntry := by
  cases e with
  | log entry => exact .inr rfl
  | update g => exact .inl rfl
  | _ => cases h

end Event

theorem Game.after_entries {g : Game} {es : List Event} (h : ∀ e ∈ es, e.isEntry = true) :
    g.after es = g := by
  induction es with
  | nil => rfl
  | cons e es ih =>
    obtain ⟨he, hes⟩ := List.forall_mem_cons.mp h
    cases e with
    | log entry => exact ih hes
    | _ => cases he

theorem Game.after_of_isShown {g : Game} {es : List Event} (h : ∀ e ∈ es, e.isShown = true) :
    g.after es = g := by
  induction es with
  | nil => rfl
  | cons e es ih =>
    obtain ⟨he, hes⟩ := List.forall_mem_cons.mp h
    cases e with
    | update next => cases he
    | _ => exact ih hes

namespace Transcript

theorem joined_append (text : Event → String) (es fs : List Event) :
    joined text (es ++ fs) = joined text es ++ joined text fs := by
  simp [joined]

@[simp] theorem logText_nil : logText [] = "" := rfl

theorem logText_cons (e : Event) (es : List Event) :
    logText (e :: es) = e.logText ++ logText es := by
  simp [logText, joined]

theorem logText_append (es fs : List Event) : logText (es ++ fs) = logText es ++ logText fs :=
  joined_append Event.logText es fs

theorem consoleText_cons (e : Event) (es : List Event) :
    consoleText (e :: es) = e.consoleText ++ consoleText es := by
  simp [consoleText, joined]

theorem consoleText_append (es fs : List Event) :
    consoleText (es ++ fs) = consoleText es ++ consoleText fs :=
  joined_append Event.consoleText es fs

/-- Whether events show nothing on the console and have no fault of their own. -/
def Unshown (es : List Event) : Prop := ∀ e ∈ es, e.isSilent ∨ e.isEntry

theorem Unshown.append {es fs : List Event} (he : Unshown es) (hf : Unshown fs) :
    Unshown (es ++ fs) :=
  List.forall_mem_append.mpr ⟨he, hf⟩

end Transcript

namespace Sink

variable {s : Sink} (h : s.room = none)
include h

theorem accepts_of_room_eq_none (piece : String) : s.accepts piece = true := by
  simp [accepts, h]

theorem room_write_of_room_eq_none (piece : String) : (s.write piece).room = none := by
  simp [write, s.accepts_of_room_eq_none h piece, h]

theorem acceptsLine_of_room_eq_none (line : String) : s.acceptsLine line = true := by
  rw [acceptsLine, s.accepts_of_room_eq_none h,
    (s.write line).accepts_of_room_eq_none (s.room_write_of_room_eq_none h line)]
  rfl

theorem room_writeLine_of_room_eq_none (line : String) : (s.writeLine line).room = none := by
  rw [writeLine, s.accepts_of_room_eq_none h]
  exact (s.write line).room_write_of_room_eq_none (s.room_write_of_room_eq_none h line) "\n"

end Sink

namespace Session

variable {s : Session} {es : List Event}

theorem performOne_whole {next : Session} {e : Event} (h : s.performOne e = (next, none)) :
    (∀ fs, s.game.after (e :: fs) = next.game.after fs) ∧
      next.log.text = s.log.text ++ e.logText := by
  have hnext : (s.performOne e).1 = next := congrArg Prod.fst h
  rw [← hnext]
  cases e with
  | log entry =>
    have hfault : faultUnless (s.log.acceptsLine entry.text) = none := congrArg Prod.snd h
    have hacc : s.log.acceptsLine entry.text = true := by simpa [faultUnless] using hfault
    refine ⟨fun _ => rfl, ?_⟩
    rw [Event.logText, ← String.append_assoc]
    exact Sink.text_writeLine_of_acceptsLine hacc
  | _ => exact ⟨fun _ => rfl, by simp [performOne, Event.logText]⟩

theorem performed_whole {next : Session} (h : s.perform es = (next, none)) :
    next.game = s.game.after es ∧ next.log.text = s.log.text ++ Transcript.logText es := by
  induction es generalizing s with
  | nil =>
    obtain rfl : s = next := congrArg Prod.fst h
    simp
  | cons e es ih =>
    rcases hone : s.performOne e with ⟨mid, _ | f⟩
    · rw [perform_cons_of_none hone] at h
      obtain ⟨hgo, hwrite⟩ := performOne_whole hone
      obtain ⟨hgame, htext⟩ := ih h
      refine ⟨hgame.trans (hgo es).symm, ?_⟩
      rw [htext, hwrite, Transcript.logText_cons, String.append_assoc]
    · rw [perform_cons_of_some hone] at h
      simp at h

theorem performOne_unshown {e : Event} (hroom : s.log.room = none) (he : e.isSilent ∨ e.isEntry) :
    ∃ next, s.performOne e = (next, none) ∧ next.log.room = none := by
  cases e with
  | note n => exact ⟨_, rfl, hroom⟩
  | update g => exact ⟨_, rfl, hroom⟩
  | log entry =>
    let next : Session := { s with
      log := s.log.writeLine entry.text, notes := s.notes.push ⟨.trace, entry.text⟩ }
    have hacc := Sink.acceptsLine_of_room_eq_none hroom entry.text
    have hone : s.performOne (.log entry) = (next, none) := by
      simp [performOne, faultUnless, hacc, next]
    exact ⟨next, hone, Sink.room_writeLine_of_room_eq_none hroom entry.text⟩
  | _ => simp [Event.isSilent, Event.isEntry] at he

theorem perform_unshown (hroom : s.log.room = none) (h : Transcript.Unshown es) :
    ∃ next, s.perform es = (next, none) ∧ next.game = s.game.after es ∧
      next.log.text = s.log.text ++ Transcript.logText es ∧ next.log.room = none := by
  have hlast : ∃ next, s.perform es = (next, none) ∧ next.log.room = none := by
    induction es generalizing s with
    | nil => exact ⟨s, rfl, hroom⟩
    | cons e es ih =>
      obtain ⟨he, hes⟩ := List.forall_mem_cons.mp h
      obtain ⟨mid, hmid, hroom'⟩ := performOne_unshown hroom he
      rw [perform_cons_of_none hmid]
      exact ih hroom' hes
  obtain ⟨next, hp, hroom'⟩ := hlast
  obtain ⟨hgame, htext⟩ := performed_whole hp
  exact ⟨next, hp, hgame, htext, hroom'⟩

theorem perform_recorded (hroom : s.log.room = none) (h : ∀ e ∈ es, e.isRecorded = true) :
    ∃ next, s.perform es = (next, none) ∧ next.game = s.game.after es ∧
      next.log.text = s.log.text ++ Transcript.logText es ∧ next.log.room = none :=
  perform_unshown hroom fun e he => Event.isSilent_or_isEntry_of_isRecorded (h e he)

theorem game_of_perform {next : Session} (h : s.perform es = (next, none)) :
    next.game = s.game.after es := (performed_whole h).1

theorem fault_of_perform {f : Fault} (h : (s.perform es).2 = some f) :
    f = .sinkFull ∨ .fault f ∈ es := by
  induction es generalizing s with
  | nil => cases h
  | cons e es ih =>
    rcases hone : s.performOne e with ⟨mid, _ | found⟩
    · rw [perform_cons_of_none hone] at h
      exact (ih h).imp_right (List.mem_cons_of_mem e)
    · rw [perform_cons_of_some hone] at h
      obtain rfl : found = f := Option.some.inj h
      have hsink {accepted : Bool} (hf : faultUnless accepted = some found) : found = .sinkFull := by
        cases accepted with
        | true => cases hf
        | false => exact (Option.some.inj hf).symm
      have hfault : (s.performOne e).2 = some found := congrArg Prod.snd hone
      cases e with
      | log entry => exact .inl (hsink hfault)
      | say line => exact .inl (hsink hfault)
      | prompt => exact .inl (hsink hfault)
      | fault f =>
        obtain rfl : f = found := Option.some.inj hfault
        exact .inr List.mem_cons_self
      | _ => cases hfault

theorem perform_fails_of_fault {f : Fault} (h : .fault f ∈ es) : (s.perform es).2 ≠ none := by
  induction es generalizing s with
  | nil => cases h
  | cons e es ih =>
    rcases hone : s.performOne e with ⟨mid, _ | found⟩
    · rw [perform_cons_of_none hone]
      rcases List.mem_cons.mp h with rfl | h
      · cases hone
      · exact ih h
    · rw [perform_cons_of_some hone]
      exact Option.some_ne_none found

/-- The events that are performed, with the one that fails if one does. -/
def performed (s : Session) : List Event → List Event
  | [] => []
  | e :: es =>
    e ::
      match s.performOne e with
      | (next, none) => next.performed es
      | (_, some _) => []

theorem performed_prefix (s : Session) (es : List Event) : s.performed es <+: es := by
  induction es generalizing s with
  | nil => exact List.prefix_refl _
  | cons e es ih =>
    rw [performed]
    apply List.cons_prefix_cons.mpr ⟨rfl, _⟩
    split
    · exact ih _
    · exact List.nil_prefix

/-- What every event keeps is kept by all of them, wherever they break off. -/
theorem perform_keeps {P : Session → Prop} (hkeep : ∀ e ∈ es, ∀ s, P s → P (s.performOne e).1)
    (h : P s) : P (s.perform es).1 := by
  induction es generalizing s with
  | nil => exact h
  | cons e es ih =>
    obtain ⟨he, hes⟩ := List.forall_mem_cons.mp hkeep
    have hone := he s h
    rcases hp : s.performOne e with ⟨mid, _ | f⟩
    · rw [hp] at hone
      rw [perform_cons_of_none hp]
      exact ih hes hone
    · rw [hp] at hone
      rw [perform_cons_of_some hp]
      exact hone

theorem perform_shown (h : ∀ e ∈ es, e.isShown = true) :
    (s.perform es).1.game = s.game ∧ (s.perform es).1.log = s.log := by
  apply perform_keeps (P := fun next => next.game = s.game ∧ next.log = s.log) _ ⟨rfl, rfl⟩
  intro e he next hnext
  have hshown := h e he
  cases e with
  | log entry => cases hshown
  | update g => cases hshown
  | _ => exact hnext

end Session

theorem Board.isEntry_logged (b : Board) : ∀ e ∈ b.logged, e.isEntry = true := by
  intro e he
  obtain ⟨row, _, rfl⟩ := List.mem_map.mp he
  rfl

theorem Board.isRecorded_logged (b : Board) : ∀ e ∈ b.logged, e.isRecorded = true := by
  intro e he
  exact Event.isRecorded_of_isEntry (b.isEntry_logged e he)

end Scoresheet
