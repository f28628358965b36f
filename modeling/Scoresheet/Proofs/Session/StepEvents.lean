import Scoresheet.Proofs.Session.Lines
import Scoresheet.Proofs.Session.Steps
/-!
# What happens in a step

Whatever a step is given, every entry that it makes is one line, and the only fault of its own is a
line from the console that is not text. All other faults are those of log and console.
-/
namespace Scoresheet

open Transcript (Unshown Tidy OfPlay)

/-- Whether events have no other fault of their own than a line that is not text. -/
def Transcript.FaultsOfInput (es : List Event) : Prop := ∀ f, .fault f ∈ es → f = .notText

namespace Transcript

variable {es fs : List Event}

theorem FaultsOfInput.append (he : FaultsOfInput es) (hf : FaultsOfInput fs) :
    FaultsOfInput (es ++ fs) := by
  intro f h
  rcases List.mem_append.mp h with h | h
  · exact he f h
  · exact hf f h

private theorem faultsOfInput_of_unshown (h : Unshown es) : FaultsOfInput es := by
  intro f hf
  rcases h _ hf with hsilent | hentry
  · cases hsilent
  · cases hentry

end Transcript

open Transcript (FaultsOfInput)

namespace Game

variable {g : Game}

theorem unshown_logged (b : Board) : Unshown b.logged := fun e he => .inr (b.isEntry_logged e he)

private theorem unshown_notes (notes : List Note) : Unshown (notes.map .note) := by
  intro e he
  obtain ⟨n, _, rfl⟩ := List.mem_map.mp he
  exact .inl rfl

private theorem unshown_playIntent (g : Game) (i : Intent) : Unshown (g.playIntent i) := by
  have hentry (e : Entry) : Unshown [.log e] := by simp [Unshown, Event.isEntry]
  have haccepted (board : Board) (e : Entry) :
      Unshown (.update { g with board } :: .log e :: board.logged) :=
    List.forall_mem_cons.mpr ⟨.inl rfl, List.forall_mem_cons.mpr ⟨.inr rfl, unshown_logged board⟩⟩
  unfold playIntent
  cases i with
  | castle side =>
    dsimp only
    split
    · exact haccepted _ _
    · exact (unshown_notes _).append (hentry _)
  | move source target =>
    dsimp only
    split
    · simp [Unshown]
    · split
      · exact haccepted _ _
      · exact (unshown_notes _).append (hentry _)

private theorem faultsOfInput_beginTurn (g : Game) : FaultsOfInput g.beginTurn.events := by
  have hshown : FaultsOfInput g.turnShown := by
    intro f hf
    simp [turnShown] at hf
  have hcastles : FaultsOfInput g.castleNotes := Transcript.faultsOfInput_of_unshown (unshown_notes _)
  have hlast (e : Entry) : FaultsOfInput (.log e :: g.farewell) :=
    Transcript.faultsOfInput_of_unshown
      (List.forall_mem_cons.mpr ⟨.inr rfl, unshown_logged g.board⟩)
  unfold beginTurn
  split
  · exact hlast _
  split
  · exact (hshown.append hcastles).append (hlast _)
  · refine (hshown.append hcastles).append ?_
    intro f hf
    simp [Menu.shown] at hf

private theorem faultsOfInput_turnFrom (g : Game) (i : Intent) :
    FaultsOfInput (g.turnFrom i).events := by
  have hlast (next : Game) : Unshown [.update next] := by simp [Unshown, Event.isSilent]
  have hturn : Unshown (g.playTurn i) := (g.unshown_playIntent i).append (hlast _)
  exact (Transcript.faultsOfInput_of_unshown hturn).append (faultsOfInput_beginTurn _)

end Game

namespace Dialogue

variable {d : Dialogue} {line : Option Text.Line}

private theorem faultsOfInput_answered {α : Type} {m : Menu α} {chosen : α → Stretch}
    (h : ∀ option, FaultsOfInput (chosen option).events) :
    FaultsOfInput (d.answered m line chosen).events := by
  unfold answered
  cases m.reply line with
  | leave => exact Transcript.faultsOfInput_of_unshown (Game.unshown_logged d.game.board)
  | choose option => exact h option
  | refuse =>
    intro f hf
    simp [Menu.askedAgain] at hf
  | garbled =>
    intro f hf
    simpa using hf

private theorem faultsOfInput_step (d : Dialogue) (line : Option Text.Line) :
    FaultsOfInput (d.step line).events := by
  cases d with
  | choosingPiece g =>
    apply faultsOfInput_answered
    intro option
    cases option with
    | piece place p =>
      intro f hf
      simp [optionTaken, Menu.shown] at hf
    | castle side => exact g.faultsOfInput_turnFrom _
  | choosingTarget g p =>
    apply faultsOfInput_answered
    intro target
    exact g.faultsOfInput_turnFrom _

private theorem faultsOfInput_run (d : Dialogue) (lines : List Text.Line) :
    FaultsOfInput (d.run lines) := by
  induction lines generalizing d with
  | nil => exact d.faultsOfInput_step none
  | cons line lines ih =>
    apply (d.faultsOfInput_step (some line)).append
    cases (d.step (some line)).next with
    | none => simp [FaultsOfInput]
    | some following => exact ih following

end Dialogue

namespace Game

theorem faultsOfInput_interact (g : Game) (input : List Text.Line) :
    FaultsOfInput (g.interact input) := by
  have hbegun : FaultsOfInput g.interactionBegun.events := by
    intro f hf
    rcases List.mem_cons.mp hf with hf | hf
    · cases hf
    · exact g.faultsOfInput_beginTurn f hf
  apply hbegun.append
  cases g.interactionBegun.next with
  | none => simp [FaultsOfInput]
  | some d => exact d.faultsOfInput_run input

theorem Conversation.ofPlay {g : Game} {es : List Event} (h : g.Conversation es) : OfPlay es := by
  induction h with
  | ending h => exact h.ofPlay
  | fault f => simp [OfPlay]
  | shown hes _ ih =>
    apply OfPlay.append _ ih
    intro e he
    cases hes _ he
  | turn hi _ ih =>
    obtain ⟨token, hr⟩ := exists_replaysAs hi
    exact hr.ofPlay.append ih

private theorem onOneLine_trimmed {line : String} (h : OnOneLine line) :
    OnOneLine (trimmed line) := by
  rw [OnOneLine, trimmed, String.toList_ofList]
  intro hc
  exact h (Text.mem_of_mem_trim hc)

private theorem tidy_setUpLine (g : Game) {line : String} (h : OnOneLine line) :
    Tidy (g.setUpLine line) := by
  have hd := Directive.tidy_ofLine h
  have hreported : Tidy
      [.note ⟨.warn, "setup line is not a placement: " ++ trimmed line⟩,
        .log (.unrecognized (trimmed line))] := by
    intro e he
    obtain rfl : e = .unrecognized (trimmed line) := by simpa using he
    exact onOneLine_trimmed h
  unfold setUpLine
  cases hdir : Directive.ofLine line with
  | placement token =>
    rw [hdir] at hd
    exact g.tidy_place hd
  | blank => simp [Tidy]
  | _ => exact hreported

private theorem unshown_setUpLine (g : Game) (line : String) : Unshown (g.setUpLine line) := by
  unfold setUpLine
  split
  · exact g.unshown_place _
  · simp [Unshown]
  · simp [Unshown, Event.isSilent, Event.isEntry]

theorem exists_of_mem_setUpLines {g : Game} {lines : List String} {e : Event}
    (he : e ∈ g.setUpLines lines) : ∃ before : Game, ∃ line ∈ lines, e ∈ before.setUpLine line := by
  induction lines generalizing g with
  | nil => cases he
  | cons line lines ih =>
    rcases List.mem_append.mp he with he | he
    · exact ⟨g, line, List.mem_cons_self, he⟩
    · obtain ⟨before, other, hother, he⟩ := ih he
      exact ⟨before, other, List.mem_cons_of_mem _ hother, he⟩

theorem tidy_setUpLines (g : Game) {lines : List String} (h : ∀ line ∈ lines, OnOneLine line) :
    Tidy (g.setUpLines lines) := by
  intro e he
  obtain ⟨before, line, hline, he⟩ := exists_of_mem_setUpLines he
  exact before.tidy_setUpLine (h line hline) e he

private theorem unshown_setUpLines (g : Game) (lines : List String) :
    Unshown (g.setUpLines lines) := by
  intro e he
  obtain ⟨before, line, _, he⟩ := exists_of_mem_setUpLines he
  exact before.unshown_setUpLine line e he

theorem unshown_setUp (g : Game) (lines : List String) : Unshown (g.setUp lines) := by
  apply (g.unshown_setUpLines lines).append
  simp [Unshown, Event.isSilent]

end Game

namespace Step

/-- Whether a step's console takes everything, and a line that it is given is one. -/
def Smooth : Step → Prop
  | line text => OnOneLine text
  | interact _ room => room = none
  | _ => True

variable {g : Game} {step : Step}

theorem room_console (h : step.Smooth) : step.console.room = none := by
  cases step with
  | interact input room => exact h
  | _ => rfl

theorem faultsOfInput_events (g : Game) (step : Step) : FaultsOfInput (step.events g) := by
  cases step with
  | setUp text => exact Transcript.faultsOfInput_of_unshown (g.unshown_setUp _)
  | replay text => exact Transcript.faultsOfInput_of_unshown (g.unshown_replayFrom 1 _)
  | line text => exact Transcript.faultsOfInput_of_unshown (g.unshown_playLine text)
  | interact input room => exact g.faultsOfInput_interact _
  | writeBoard => exact Transcript.faultsOfInput_of_unshown (Game.unshown_logged g.board)
  | shutDown => simp [events, FaultsOfInput]

theorem tidy_events (hs : g.board.Seated) (h : step.Smooth) : Tidy (step.events g) := by
  have hlines (text : List UInt8) : ∀ line ∈ Text.textLines text, OnOneLine line :=
    fun _ hline => Text.onOneLine_of_mem_textLines hline
  cases step with
  | setUp text =>
    apply (g.tidy_setUpLines (hlines text)).append
    simp [Tidy]
  | replay text => exact g.tidy_replayFrom 1 (hlines text)
  | line text => exact g.tidy_playLine h
  | interact input room => exact (Game.conversation_interact hs _).ofPlay.tidy
  | writeBoard => exact g.board.ofPlay_logged.tidy
  | shutDown =>
    intro e he
    obtain rfl : e = .closing := by simpa [events] using he
    trivial

end Step

end Scoresheet
