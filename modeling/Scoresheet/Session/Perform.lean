import Scoresheet.Log.Sink
import Scoresheet.Session.Event
/-!
# Performing events

A session in progress holds the game, the log and the console as far as they were written, and the
notes. Performing a list of events stops at the first fault, and a sink that refuses a piece of text
is one. A line for the log is noted before it is written, even if the log then refuses it.
-/
namespace Scoresheet

/-- A session in progress. -/
structure Session where
  game : Game
  log : Sink
  console : Sink
  notes : Array Note

namespace Session

def fresh (logRoom : Option Nat) : Session := ⟨Game.fresh, .fresh logRoom, .fresh none, #[]⟩

def faultUnless (accepted : Bool) : Option Fault := if accepted then none else some .sinkFull

def performOne (s : Session) : Event → Session × Option Fault
  | .note n => ({ s with notes := s.notes.push n }, none)
  | .log e =>
    ({ s with log := s.log.writeLine e.text, notes := s.notes.push ⟨.trace, e.text⟩ },
      faultUnless (s.log.acceptsLine e.text))
  | .say line =>
    ({ s with console := s.console.writeLine line }, faultUnless (s.console.acceptsLine line))
  | .prompt =>
    ({ s with console := s.console.write promptText }, faultUnless (s.console.accepts promptText))
  | .update g => ({ s with game := g }, none)
  | .fault f => (s, some f)

/-- Performs events up to the first fault. -/
def perform (s : Session) : List Event → Session × Option Fault
  | [] => (s, none)
  | e :: es =>
    match s.performOne e with
    | (next, none) => next.perform es
    | (next, some f) => (next, some f)

@[simp] theorem perform_nil (s : Session) : s.perform [] = (s, none) := rfl

theorem perform_cons_of_none {s next : Session} {e : Event} (h : s.performOne e = (next, none))
    (es : List Event) : s.perform (e :: es) = next.perform es := by
  simp [perform, h]

theorem perform_cons_of_some {s next : Session} {e : Event} {f : Fault}
    (h : s.performOne e = (next, some f)) (es : List Event) :
    s.perform (e :: es) = (next, some f) := by
  simp [perform, h]

theorem perform_append_of_some {s next : Session} {es : List Event} {f : Fault}
    (h : s.perform es = (next, some f)) (fs : List Event) :
    s.perform (es ++ fs) = (next, some f) := by
  induction es generalizing s with
  | nil => simp at h
  | cons e es ih =>
    rcases hone : s.performOne e with ⟨mid, _ | g⟩
    · rw [perform_cons_of_none hone] at h
      rw [List.cons_append, perform_cons_of_none hone, ih h]
    · rw [perform_cons_of_some hone] at h
      rw [List.cons_append, perform_cons_of_some hone, h]

theorem perform_append_of_none {s next : Session} {es : List Event}
    (h : s.perform es = (next, none)) (fs : List Event) :
    s.perform (es ++ fs) = next.perform fs := by
  induction es generalizing s with
  | nil =>
    simp only [perform_nil, Prod.mk.injEq, and_true] at h
    simp [h]
  | cons e es ih =>
    rcases hone : s.performOne e with ⟨mid, _ | g⟩
    · rw [perform_cons_of_none hone] at h
      rw [List.cons_append, perform_cons_of_none hone, ih h]
    · rw [perform_cons_of_some hone] at h
      simp at h

end Session

end Scoresheet
