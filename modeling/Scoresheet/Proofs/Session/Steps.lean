import Scoresheet.Proofs.Session.Conversing
import Scoresheet.Proofs.Session.Recording
/-!
# Steps of a session

A session is taken in steps: a setup file, a directive file, a line, interactive play on a console of
its own, a diagram, the closing line. A fault ends the step in which it happens and no other, so the
next step starts from whatever game the fault has left.

A step can leave only the game it started from or one to which its events lead. What placing and
playing keep is therefore kept by every step, wherever it breaks off.
-/
namespace Scoresheet

/-- Whether all games to which events lead have a property. -/
def Transcript.Lead (P : Game → Prop) (es : List Event) : Prop := ∀ g, .update g ∈ es → P g

namespace Transcript

variable {P : Game → Prop} {es fs : List Event}

theorem Lead.append (he : Lead P es) (hf : Lead P fs) : Lead P (es ++ fs) := by
  intro g hg
  rcases List.mem_append.mp hg with hg | hg
  · exact he g hg
  · exact hf g hg

theorem lead_of_isEntry (h : ∀ e ∈ es, e.isEntry = true) : Lead P es := by
  intro g hg
  cases h _ hg

private theorem lead_of_isShown (h : ∀ e ∈ es, e.isShown = true) : Lead P es := by
  intro g hg
  cases h _ hg

end Transcript

open Transcript (Lead)

theorem Game.after_of_lead {P : Game → Prop} {g : Game} {es : List Event} (hg : P g)
    (h : Lead P es) : P (g.after es) := by
  induction es generalizing g with
  | nil => exact hg
  | cons e es ih =>
    have hes : Lead P es := fun next hnext => h next (List.mem_cons_of_mem _ hnext)
    cases e with
    | update next => exact ih (h next List.mem_cons_self) hes
    | _ => exact ih hg hes

namespace Session

variable {P : Game → Prop} {s : Session} {es : List Event}

/-- Wherever events break off, the game is the one from before or one to which they lead. -/
theorem game_perform_of_lead (hs : P s.game) (h : Lead P es) : P (s.perform es).1.game := by
  apply perform_keeps (P := fun next => P next.game) _ hs
  intro e he next hnext
  cases e with
  | update g => exact h g he
  | _ => exact hnext

private theorem room_perform_of_full (h : s.log.room = some 0) :
    (s.perform es).1.log.room = some 0 := by
  apply perform_keeps (P := fun next => next.log.room = some 0) _ h
  intro e _ next hnext
  cases e with
  | log entry => exact Sink.room_writeLine_of_full hnext
  | _ => exact hnext

end Session

/-- A step of a session, with what it is given to read and the room on its console. -/
inductive Step where
  | setUp (text : List UInt8)
  | replay (text : List UInt8)
  | line (text : String)
  | interact (input : List UInt8) (room : Option Nat)
  | writeBoard
  | shutDown
deriving DecidableEq, Repr

namespace Step

/-- What happens in a step, if log and console go along. -/
def events (g : Game) : Step → List Event
  | setUp text => g.setUp (Text.textLines text)
  | replay text => g.replay (Text.textLines text)
  | line text => g.playLine text
  | interact input _ => g.interact (Text.lines input)
  | writeBoard => g.board.logged
  | shutDown => [.log .closing]

/-- The console of a step; only interactive play uses one. -/
def console : Step → Sink
  | interact _ room => .fresh room
  | _ => .fresh none

end Step

namespace Session

def opened (room : Option Nat) : Session := ((fresh room).perform [.log .opened]).1

/-- Takes a step, up to its first fault. -/
def step (s : Session) (step : Step) : Session :=
  ({ s with console := step.console }.perform (step.events s.game)).1

def afterSteps (s : Session) (steps : List Step) : Session := steps.foldl Session.step s

variable {s : Session} {steps : List Step}

theorem game_step_of_lead {P : Game → Prop} {step : Step} (hs : P s.game)
    (h : Lead P (step.events s.game)) : P (s.step step).game :=
  game_perform_of_lead hs h

private theorem room_step_of_full (h : s.log.room = some 0) (step : Step) :
    (s.step step).log.room = some 0 :=
  room_perform_of_full h

theorem room_afterSteps_of_full (h : s.log.room = some 0) (steps : List Step) :
    (s.afterSteps steps).log.room = some 0 := by
  induction steps generalizing s with
  | nil => exact h
  | cons step steps ih => exact ih (room_step_of_full h step)

theorem afterSteps_append_singleton (s : Session) (steps : List Step) (step : Step) :
    s.afterSteps (steps ++ [step]) = (s.afterSteps steps).step step := by
  simp [afterSteps]

@[simp] theorem game_opened (room : Option Nat) : (opened room).game = Game.fresh := by
  apply game_perform_of_lead (P := fun g => g = Game.fresh) rfl
  simp [Lead]

end Session

/-- What placing keeps, and what holds of every game in the course of an action. -/
structure Game.Kept (P : Game → Prop) : Prop where
  place : ∀ g p, P g → P { g with board := g.board.place p }
  action : ∀ g token, P g → Lead P (g.playAction token)

namespace Game.Kept

variable {P : Game → Prop} {g : Game}

private theorem lead_place (h : Kept P) (hg : P g) (token : String) : Lead P (g.place token) := by
  unfold Game.place
  split
  · next p _ =>
    intro next hnext
    obtain rfl : next = { g with board := g.board.place p } := by simpa using hnext
    exact h.place g p hg
  · exact Transcript.lead_of_isEntry (by simp [Event.isEntry])

private theorem lead_playActions (h : Kept P) (hg : P g) (tokens : List String) :
    Lead P (g.playActions tokens) := by
  induction tokens generalizing g with
  | nil => simp [playActions, Lead]
  | cons token tokens ih =>
    have haction := h.action g token hg
    exact haction.append (ih (after_of_lead hg haction))

private theorem lead_playLine (h : Kept P) (hg : P g) (line : String) :
    Lead P (g.playLine line) := by
  unfold playLine
  split
  · simp [Lead]
  · next token _ =>
    split
    · exact Transcript.lead_of_isEntry (by simp [Event.isEntry])
    · exact h.lead_place hg token
  · exact h.lead_playActions hg _
  · exact h.lead_playActions hg _
  · exact Transcript.lead_of_isEntry (by simp [Event.isEntry])

theorem lead_replayFrom (h : Kept P) (hg : P g) (number : Nat) (lines : List String) :
    Lead P (g.replayFrom number lines) := by
  induction lines generalizing g number with
  | nil => simp [replayFrom, Lead]
  | cons line lines ih =>
    have hline : Lead P (g.playNumbered number line) := by
      intro next hnext
      apply h.lead_playLine hg line next
      simpa [playNumbered] using hnext
    exact hline.append (ih (after_of_lead hg hline) (number + 1))

theorem lead_setUpLines (h : Kept P) (hg : P g) (lines : List String) :
    Lead P (g.setUpLines lines) := by
  induction lines generalizing g with
  | nil => simp [setUpLines, Lead]
  | cons line lines ih =>
    have hline : Lead P (g.setUpLine line) := by
      unfold setUpLine
      split
      · exact h.lead_place hg _
      · simp [Lead]
      · simp [Lead]
    exact hline.append (ih (after_of_lead hg hline))

theorem lead_events (h : Kept P) (hg : P g) {step : Step}
    (hstep : ∀ input room, step ≠ .interact input room) : Lead P (step.events g) := by
  cases step with
  | setUp text =>
    apply (h.lead_setUpLines hg (Text.textLines text)).append
    simp [Lead]
  | replay text => exact h.lead_replayFrom hg 1 (Text.textLines text)
  | line text => exact h.lead_playLine hg text
  | interact input room => exact absurd rfl (hstep input room)
  | writeBoard => exact Transcript.lead_of_isEntry g.board.isEntry_logged
  | shutDown => exact Transcript.lead_of_isEntry (by simp [Step.events, Event.isEntry])

end Game.Kept

theorem Game.kept_seated : Game.Kept fun g => g.board.Seated where
  place _ p hg := hg.place p
  action g token hg next hnext := by
    rcases (update_mem_playAction hnext).2 with hsame | hplayed
    · rw [hsame]
      exact hg
    · rw [hplayed]
      exact seated_boardAfter hg token

namespace Game

variable {g : Game} {es : List Event}

private theorem lead_seated_playTurn {i : Intent} (hs : g.board.Seated)
    (hi : g.board.Permits g.turn i) :
    Lead (fun g => g.board.Seated) (g.playTurn i) := by
  obtain ⟨board, hboard⟩ := hi
  obtain ⟨token, e, _, _, hturn, _⟩ := playTurn_eq hboard
  have hseated : board.Seated := hs.intend hboard
  intro next hnext
  rw [hturn] at hnext
  have hnot : .update next ∉ board.logged := by
    intro hmem
    cases board.isEntry_logged _ hmem
  rcases List.mem_cons.mp hnext with hnext | hnext
  · obtain rfl := Event.update.inj hnext
    exact hseated
  · obtain rfl : next = ⟨board, g.turn.opposite, true⟩ := by
      simpa [turnEnd, hnot] using hnext
    exact hseated

private theorem Conversation.lead_seated (h : g.Conversation es) (hs : g.board.Seated) :
    Lead (fun g => g.board.Seated) es := by
  induction h with
  | ending h => exact Transcript.lead_of_isEntry h.isEntry
  | fault f => simp [Lead]
  | shown hes _ ih => exact (Transcript.lead_of_isShown hes).append (ih hs)
  | turn hi _ ih => exact (lead_seated_playTurn hs hi).append (ih (seated_after_playTurn hs hi))

end Game

namespace Session

variable {s : Session}

private theorem seated_step (hs : s.game.board.Seated) (step : Step) :
    (s.step step).game.board.Seated := by
  apply game_step_of_lead (P := fun g => g.board.Seated) hs
  by_cases hplay : ∃ input room, step = .interact input room
  · obtain ⟨input, room, rfl⟩ := hplay
    exact (Game.conversation_interact hs (Text.lines input)).lead_seated hs
  · apply Game.kept_seated.lead_events hs
    intro input room hstep
    exact hplay ⟨input, room, hstep⟩

theorem seated_afterSteps (hs : s.game.board.Seated) (steps : List Step) :
    (s.afterSteps steps).game.board.Seated := by
  induction steps generalizing s with
  | nil => exact hs
  | cons step steps ih => exact ih (seated_step hs step)

end Session

end Scoresheet
