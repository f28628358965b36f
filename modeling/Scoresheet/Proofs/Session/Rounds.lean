import Scoresheet.Proofs.Board.Material
import Scoresheet.Proofs.Session.Accounting
import Scoresheet.Proofs.Session.StepEvents
/-!
# The rounds of interactive play

The game itself could go on for ever, so what ends interactive play is the console. Every round takes
a line from it, or finds that there is none and leaves. A move is chosen in two menus: the line that
opens the second one is credit, and the move itself uses it up.
-/
namespace Scoresheet

open Text (Line)

namespace Event

def isMoved : Event → Bool
  | log (.moved ..) => true
  | _ => false

def isCastled : Event → Bool
  | log (.castled ..) => true
  | _ => false

end Event

namespace Transcript

variable {es fs : List Event}

def moves (es : List Event) : Nat := es.countP Event.isMoved

def castles (es : List Event) : Nat := es.countP Event.isCastled

/-- The lines that it takes to choose what was played. -/
def demand (es : List Event) : Nat := 2 * moves es + castles es

theorem demand_append : demand (es ++ fs) = demand es + demand fs := by
  simp only [demand, moves, castles, List.countP_append]
  omega

theorem demand_le_of_prefix (h : es <+: fs) : demand es ≤ demand fs := by
  obtain ⟨rest, rfl⟩ := h
  rw [demand_append]
  exact Nat.le_add_right _ _

/-- Whether events tell of nothing that was played. -/
def Idle (es : List Event) : Prop := ∀ e ∈ es, e.isMoved = false ∧ e.isCastled = false

theorem Idle.demand_eq (h : Idle es) : demand es = 0 := by
  have hmoves : moves es = 0 := List.countP_eq_zero.mpr fun e he => by simp [(h e he).1]
  have hcastles : castles es = 0 := List.countP_eq_zero.mpr fun e he => by simp [(h e he).2]
  rw [demand, hmoves, hcastles]

theorem Idle.append (he : Idle es) (hf : Idle fs) : Idle (es ++ fs) :=
  List.forall_mem_append.mpr ⟨he, hf⟩

theorem idle_of_isShown (h : ∀ e ∈ es, e.isShown = true) : Idle es := by
  intro e he
  have hshown := h e he
  cases e with
  | log entry => cases hshown
  | _ => exact ⟨rfl, rfl⟩

theorem idle_logged (b : Board) : Idle b.logged := by
  intro e he
  obtain ⟨row, _, rfl⟩ := List.mem_map.mp he
  exact ⟨rfl, rfl⟩

private theorem idle_notes (notes : List Note) : Idle (notes.map .note) := by
  intro e he
  obtain ⟨n, _, rfl⟩ := List.mem_map.mp he
  exact ⟨rfl, rfl⟩

end Transcript

open Transcript (demand Idle)

private def Intent.menus : Intent → Nat
  | move _ _ => 2
  | castle _ => 1

namespace Game

private theorem demand_refused (notes : List Note) {e : Entry} (h : Idle [.log e]) :
    demand (notes.map .note ++ [.log e]) = 0 :=
  ((Transcript.idle_notes notes).append h).demand_eq

private theorem demand_accepted (next : Game) (e : Entry) (b : Board) :
    demand (.update next :: .log e :: b.logged) = demand [.log e] := by
  have hparts : Event.update next :: .log e :: b.logged = [.update next] ++ ([.log e] ++ b.logged) :=
    rfl
  have hupdate : demand [.update next] = 0 := rfl
  rw [hparts, Transcript.demand_append, Transcript.demand_append, hupdate,
    (Transcript.idle_logged b).demand_eq]
  omega

private theorem demand_playTurn_le (g : Game) (i : Intent) : demand (g.playTurn i) ≤ i.menus := by
  have hlast (next : Game) : demand [.update next] = 0 := rfl
  rw [playTurn, Transcript.demand_append, hlast, Nat.add_zero]
  unfold playIntent
  cases i with
  | castle side =>
    dsimp only
    split
    · rw [demand_accepted]
      exact Nat.le_refl 1
    · rw [demand_refused _ (by simp [Idle, Event.isMoved, Event.isCastled])]
      exact Nat.zero_le _
  | move source target =>
    dsimp only
    split
    · exact Nat.zero_le _
    · split
      · rw [demand_accepted]
        exact Nat.le_refl 2
      · rw [demand_refused _ (by simp [Idle, Event.isMoved, Event.isCastled])]
        exact Nat.zero_le _

/-- Whether the side to move can do nothing although there are pieces. -/
structure Stuck (g : Game) : Prop where
  pieces : g.board.isEmpty = false
  nothing : ∀ i, ¬ g.board.Permits g.turn i

/-- What the beginning of a turn can come to. -/
inductive TurnBegun (g : Game) : Stretch → Prop where
  | boardEmpty (h : g.board.isEmpty = true) : TurnBegun g ⟨.log .boardEmpty :: g.farewell, none⟩
  | stuck {shown : List Event} (hshown : ∀ e ∈ shown, e.isShown = true) (h : g.Stuck) :
    TurnBegun g ⟨shown ++ .log (.stuck g.turn) :: g.farewell, none⟩
  | waiting {shown : List Event} (hshown : ∀ e ∈ shown, e.isShown = true) :
    TurnBegun g ⟨shown, some (.choosingPiece g)⟩

variable {g : Game}

theorem turnBegun_beginTurn (hs : g.board.Seated) : g.TurnBegun g.beginTurn := by
  have hshown := g.isShown_turnShown_castleNotes
  unfold beginTurn
  split
  · next hb => exact .boardEmpty hb
  · next hb =>
    split
    · next hnone =>
      have hnothing := (menus_empty_iff hs).mp
        (turnMenu_options_eq_nil_iff.mp (List.isEmpty_iff.mp hnone))
      exact .stuck hshown ⟨Bool.eq_false_iff.mpr hb, hnothing⟩
    · exact .waiting (List.forall_mem_append.mpr ⟨hshown, g.turnMenu.isShown_shown⟩)

private theorem isEmpty_after_playTurn {i : Intent} (hi : g.board.Permits g.turn i) :
    (g.after (g.playTurn i)).board.isEmpty = false := by
  obtain ⟨board, hboard⟩ := hi
  obtain ⟨_, e, _, _, hturn, _⟩ := playTurn_eq hboard
  obtain ⟨square, p, hp, _⟩ := Board.someMoved_of_intend hboard
  rw [hturn, after_update, after_turnEnd]
  exact Board.isEmpty_eq_false_iff.mpr ⟨square, p, hp⟩

end Game

namespace Menu

/-- Whether a line from the console leaves any menu; the end of the input does. -/
def Leaves : Option Line → Prop
  | none => True
  | some line => ∃ text, Text.Utf8.decode? line = some text ∧ Text.number? text = some 0

private theorem leaves_of_reply {α : Type} {m : Menu α} {line : Option Line}
    (h : m.reply line = .leave) :
    Leaves line := by
  unfold reply at h
  split at h
  · trivial
  · split at h
    · cases h
    · next text htext =>
      refine ⟨text, htext, ?_⟩
      unfold replyToText at h
      split at h
      · cases h
      · assumption
      · split at h <;> cases h

end Menu

namespace Dialogue

def credit : Dialogue → Nat
  | choosingPiece _ => 0
  | choosingTarget _ _ => 1

/-- What a line, or the end of the input, can bring a dialogue to. -/
inductive Stepped (d : Dialogue) : Option Line → Stretch → Prop where
  | left {line : Option Line} (h : Menu.Leaves line) : Stepped d line ⟨d.game.farewell, none⟩
  | garbled {line : Line} : Stepped d (some line) ⟨[.fault .notText], none⟩
  | onward {line : Line} {es : List Event} {next : Dialogue} (hsound : next.Sound)
    (hgame : d.game.after es = next.game) (hdemand : demand es + next.credit ≤ d.credit + 1) :
    Stepped d (some line) ⟨es, some next⟩
  | stuck {line : Line} {es : List Event} {final : Game} (hgame : d.game.after es = final)
    (h : final.Stuck) (hdemand : demand es ≤ d.credit + 1) :
    Stepped d (some line) ⟨es ++ .log (.stuck final.turn) :: final.farewell, none⟩

variable {d : Dialogue} {line : Option Line}

private theorem stepped_turnFrom {l : Line} {i : Intent} (hs : d.game.board.Seated)
    (hi : d.game.board.Permits d.game.turn i) (hmenus : i.menus ≤ d.credit + 1) :
    d.Stepped (some l) (d.game.turnFrom i) := by
  have hplayed : demand (d.game.playTurn i) ≤ d.credit + 1 :=
    Nat.le_trans (d.game.demand_playTurn_le i) hmenus
  let next := d.game.after (d.game.playTurn i)
  have hnext : d.game.turnFrom i =
      { next.beginTurn with events := d.game.playTurn i ++ next.beginTurn.events } := rfl
  have hseated : next.board.Seated := Game.seated_after_playTurn hs hi
  have hbegun := Game.turnBegun_beginTurn hseated
  rw [hnext]
  generalize next.beginTurn = begun at hbegun
  have hafter {shown : List Event} (hshown : ∀ e ∈ shown, e.isShown = true) :
      d.game.after (d.game.playTurn i ++ shown) = next ∧
        demand (d.game.playTurn i ++ shown) ≤ d.credit + 1 := by
    rw [Game.after_append, Transcript.demand_append, (Transcript.idle_of_isShown hshown).demand_eq]
    exact ⟨Game.after_of_isShown hshown, hplayed⟩
  cases hbegun with
  | boardEmpty h =>
    -- the piece that was moved is on the board
    rw [Game.isEmpty_after_playTurn hi] at h
    cases h
  | stuck hshown h =>
    obtain ⟨hgame, hdemand⟩ := hafter hshown
    rw [← List.append_assoc]
    exact .stuck hgame h hdemand
  | waiting hshown =>
    obtain ⟨hgame, hdemand⟩ := hafter hshown
    exact .onward hseated hgame hdemand

private theorem stepped_answered {α : Type} {m : Menu α} {chosen : α → Stretch} (hd : d.Sound)
    (hchosen : ∀ option ∈ m.options, ∀ l, d.Stepped (some l) (chosen option)) :
    d.Stepped line (d.answered m line chosen) := by
  cases line with
  | none => exact .left trivial
  | some l =>
    unfold answered
    cases hr : m.reply (some l) with
    | leave => exact .left (Menu.leaves_of_reply hr)
    | choose option => exact hchosen option (Menu.mem_options_of_reply hr) l
    | refuse =>
      have hidle := Transcript.idle_of_isShown m.isShown_askedAgain
      refine .onward hd (Game.after_of_isShown m.isShown_askedAgain) ?_
      rw [hidle.demand_eq]
      omega
    | garbled => exact .garbled

theorem stepped_step (hd : d.Sound) : d.Stepped line (d.step line) := by
  cases d with
  | choosingPiece g =>
    apply stepped_answered hd
    intro option ho l
    cases sound_of_mem_turnMenu hd ho with
    | @piece p place hsound =>
      have hshown := (squareMenu g p).isShown_shown
      refine .onward hsound (Game.after_of_isShown hshown) ?_
      rw [(Transcript.idle_of_isShown hshown).demand_eq]
      exact Nat.le_refl 1
    | castle hi => exact stepped_turnFrom (d := .choosingPiece g) hd hi (Nat.le_refl 1)
  | choosingTarget g p =>
    apply stepped_answered hd
    intro target ht l
    obtain ⟨hs, hocc, hc⟩ := hd
    have hi := Board.permits_move_iff.mpr ⟨p, hocc, hc, ht⟩
    exact stepped_turnFrom (d := .choosingTarget g p) hs hi (Nat.le_refl 2)

end Dialogue

end Scoresheet
