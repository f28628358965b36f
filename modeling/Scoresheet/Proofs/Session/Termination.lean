import Scoresheet.Proofs.Session.Rounds
/-!
# How interactive play ends

After one round more than the console has lines interactive play is over. Unless it ends by a fault,
the board was empty from the start, or the side to move is stuck, or someone leaves a menu; then the
diagram of the last board closes the log.
-/
namespace Scoresheet

open Text (Line)
open Transcript (demand moves castles written)

namespace Stretch

def goOn (stretch : Stretch) (line : Option Line) : Stretch :=
  match stretch.next with
  | none => stretch
  | some d => { d.step line with events := stretch.events ++ (d.step line).events }

variable {stretch : Stretch}

private theorem goOn_of_over (h : stretch.next = none) (line : Option Line) :
    stretch.goOn line = stretch := by
  rw [goOn, h]

private theorem goOn_waiting (es : List Event) (d : Dialogue) (line : Option Line) :
    Stretch.goOn ⟨es, some d⟩ line = ⟨es ++ (d.step line).events, (d.step line).next⟩ := rfl

private theorem followed_of_over (h : stretch.next = none) (lines : List Line) :
    stretch.followed lines = stretch.events := by
  rw [followed, h, List.append_nil]

private theorem followed_goOn (stretch : Stretch) (line : Line) (lines : List Line) :
    stretch.followed (line :: lines) = (stretch.goOn (some line)).followed lines := by
  obtain ⟨es, _ | d⟩ := stretch
  · rw [goOn_of_over rfl, followed_of_over rfl, followed_of_over rfl]
  · rw [goOn_waiting, followed, followed, List.append_assoc]
    rfl

private theorem goOn_none (stretch : Stretch) :
    stretch.goOn none = ⟨stretch.followed [], none⟩ := by
  obtain ⟨es, _ | d⟩ := stretch
  · rw [goOn_of_over rfl, followed_of_over rfl]
  · cases d <;> rfl

end Stretch

namespace Game

/-- Interactive play after so many rounds. Each takes the next line, or the end of the input. -/
def rounds (g : Game) (input : List Line) : Nat → Stretch
  | 0 => g.interactionBegun
  | n + 1 => (g.rounds input n).goOn input[n]?

/-- Why interactive play from a game ends without a fault, with the game it ends with and what the log
is told of it. -/
inductive Closing (g : Game) (input : List Line) : Game → List Entry → Prop where
  | boardEmpty (h : g.board.isEmpty = true) (hidle : demand (g.interact input) = 0) :
    Closing g input g [.boardEmpty]
  | stuck {final : Game} (h : final.Stuck) : Closing g input final [.stuck final.turn]
  | left {n : Nat} {d : Dialogue} (hwaits : (g.rounds input n).next = some d)
    (h : Menu.Leaves input[n]?) : Closing g input d.game []

/-- What interactive play from a game can have come to after so many rounds. -/
inductive Standing (g : Game) (input : List Line) (n : Nat) : Stretch → Prop where
  | waiting {es : List Event} {d : Dialogue} (hsound : d.Sound) (hgame : g.after es = d.game)
    (hdemand : demand es + d.credit ≤ n) (hlines : n ≤ input.length) : Standing g input n ⟨es, some d⟩
  | garbled {es : List Event} (hdemand : demand es ≤ input.length) :
    Standing g input n ⟨es ++ [.fault .notText], none⟩
  | closed {es : List Event} {final : Game} {said : List Entry} (hgame : g.after es = final)
    (hdemand : demand es ≤ input.length) (h : g.Closing input final said) :
    Standing g input n ⟨es ++ (said.map .log ++ final.farewell), none⟩

variable {g : Game} {input : List Line} {n : Nat}

theorem Closing.idle {final : Game} {said : List Entry} (h : g.Closing input final said) :
    Transcript.Idle (said.map .log ++ final.farewell) := by
  apply Transcript.Idle.append _ (Transcript.idle_logged final.board)
  cases h <;> simp [Transcript.Idle, Event.isMoved, Event.isCastled]

private theorem written_closing (es : List Event) (said : List Entry) (final : Game) :
    written (es ++ (said.map .log ++ final.farewell)) =
      written es ++ said.map Entry.text ++ final.board.diagram := by
  have hsaid : written (said.map .log) = said.map Entry.text := by
    rw [written, List.filterMap_map]
    exact congrArg (List.map Entry.text) List.filterMap_some
  rw [Transcript.written_append, Transcript.written_append, hsaid, farewell,
    Transcript.written_logged, List.append_assoc]

private theorem standing_begun (hs : g.board.Seated) : g.Standing input 0 g.interactionBegun := by
  let opening : Event := .note ⟨.info, "entering interactive mode"⟩
  have hopening {shown : List Event} (hshown : ∀ e ∈ shown, e.isShown = true) :
      g.after (opening :: shown) = g ∧ demand (opening :: shown) = 0 := by
    have hall : ∀ e ∈ opening :: shown, e.isShown = true :=
      List.forall_mem_cons.mpr ⟨rfl, hshown⟩
    exact ⟨after_of_isShown hall, (Transcript.idle_of_isShown hall).demand_eq⟩
  have hbegun := turnBegun_beginTurn hs
  have hinteract : g.interact input = opening :: g.beginTurn.followed input := rfl
  have hbeginning : g.interactionBegun = ⟨opening :: g.beginTurn.events, g.beginTurn.next⟩ := rfl
  rw [hbeginning]
  generalize g.beginTurn = begun at hbegun hinteract
  cases hbegun with
  | boardEmpty h =>
    have hidle : demand (g.interact input) = 0 := by
      rw [hinteract, Stretch.followed_of_over rfl]
      exact Transcript.Idle.demand_eq (List.forall_mem_cons.mpr
        ⟨⟨rfl, rfl⟩, List.forall_mem_cons.mpr ⟨⟨rfl, rfl⟩, Transcript.idle_logged g.board⟩⟩)
    have hgame : g.after [opening] = g := rfl
    have hclosed : g.Standing input 0 ⟨[opening] ++ ([.log .boardEmpty] ++ g.farewell), none⟩ :=
      .closed hgame (Nat.zero_le _) (.boardEmpty h hidle)
    exact hclosed
  | @stuck shown hshown h =>
    obtain ⟨hgame, hdemand⟩ := hopening hshown
    have hclosed : g.Standing input 0
        ⟨opening :: shown ++ ([.log (.stuck g.turn)] ++ g.farewell), none⟩ :=
      .closed hgame (by omega) (.stuck h)
    exact hclosed
  | waiting hshown =>
    obtain ⟨hgame, hdemand⟩ := hopening hshown
    exact .waiting hs hgame (Nat.le_of_eq hdemand) (Nat.zero_le _)

private theorem Standing.goOn {stretch : Stretch} (h : g.Standing input n stretch)
    (hrounds : g.rounds input n = stretch) : g.Standing input (n + 1) (stretch.goOn input[n]?) := by
  cases h with
  | garbled hdemand => exact .garbled hdemand
  | closed hgame hdemand h => exact .closed hgame hdemand h
  | @waiting es d hsound hgame hdemand hlines =>
    have hwaits : (g.rounds input n).next = some d := by rw [hrounds]
    have hstepped : d.Stepped input[n]? (d.step input[n]?) := Dialogue.stepped_step hsound
    rw [Stretch.goOn_waiting]
    have hplayed {fs : List Event} : demand (es ++ fs) = demand es + demand fs :=
      Transcript.demand_append
    -- a line makes room for one more, so what it plays is paid for by it and the credit
    have hmore {line : Line} (hline : input[n]? = some line) : n + 1 ≤ input.length :=
      (List.getElem?_eq_some_iff.mp hline).1
    generalize d.step input[n]? = stretch at hstepped
    generalize hread : input[n]? = line at hstepped hmore
    cases hstepped with
    | left h => exact .closed hgame (by omega) (.left hwaits (hread ▸ h))
    | garbled => exact .garbled (by omega)
    | @onward line fs next hnext hon hcost =>
      refine .waiting hnext ?_ ?_ (hmore rfl)
      · rw [after_append, hgame, hon]
      · change demand (es ++ fs) + next.credit ≤ n + 1
        rw [hplayed]
        omega
    | @stuck line fs final hon h hcost =>
      have hroom := hmore rfl
      have hcost' : demand (es ++ fs) ≤ input.length := by
        rw [hplayed]
        omega
      have hclosed : g.Standing input (n + 1)
          ⟨es ++ fs ++ ([.log (.stuck final.turn)] ++ final.farewell), none⟩ := by
        refine .closed ?_ hcost' (.stuck h)
        rw [after_append, hgame, hon]
      rw [← List.append_assoc]
      exact hclosed

private theorem standing_rounds (hs : g.board.Seated) (input : List Line) (n : Nat) :
    g.Standing input n (g.rounds input n) := by
  induction n with
  | zero => exact standing_begun hs
  | succ n ih => exact ih.goOn rfl

private theorem followed_rounds (g : Game) (input : List Line) (h : n ≤ input.length) :
    (g.rounds input n).followed (input.drop n) = g.interact input := by
  induction n with
  | zero => rfl
  | succ n ih =>
    have hn : n < input.length := h
    rw [← ih (Nat.le_of_lt hn), List.drop_eq_getElem_cons hn, Stretch.followed_goOn, rounds,
      List.getElem?_eq_getElem hn]

/-- One round more than there are lines is enough. -/
theorem rounds_eq_interact (g : Game) (input : List Line) (h : input.length < n) :
    g.rounds input n = ⟨g.interact input, none⟩ := by
  induction h with
  | refl =>
    have hlast := g.followed_rounds input (Nat.le_refl input.length)
    rw [List.drop_length] at hlast
    rw [rounds, List.getElem?_eq_none (Nat.le_refl _), Stretch.goOn_none, hlast]
  | step _ ih => rw [rounds, ih, Stretch.goOn_of_over rfl]

/-- Interactive play takes two lines for a move and one for a castle, and it ends by a line that is
not text or with the diagram of its last board. -/
theorem demand_interact_le (hs : g.board.Seated) (input : List Line) :
    demand (g.interact input) ≤ input.length ∧
      (.fault .notText ∈ g.interact input ∨
        ∃ es final said, g.interact input = es ++ (said.map .log ++ final.farewell) ∧
          g.after (g.interact input) = final ∧ g.Closing input final said) := by
  have hstands := standing_rounds hs input (input.length + 1)
  rw [rounds_eq_interact g input (Nat.lt_succ_self _)] at hstands
  generalize hall : (⟨g.interact input, none⟩ : Stretch) = stretch at hstands
  cases hstands with
  | waiting => cases hall
  | @garbled es hdemand =>
    have hevents : g.interact input = es ++ [.fault .notText] := congrArg Stretch.events hall
    have hfault : demand [.fault .notText] = 0 := rfl
    rw [hevents, Transcript.demand_append, hfault]
    exact ⟨hdemand, .inl (by simp)⟩
  | @closed es final said hgame hdemand h =>
    have hevents : g.interact input = es ++ (said.map .log ++ final.farewell) :=
      congrArg Stretch.events hall
    have hentries : ∀ e ∈ said.map .log ++ final.farewell, e.isEntry = true := by
      apply List.forall_mem_append.mpr ⟨_, final.board.isEntry_logged⟩
      simp [Event.isEntry]
    refine ⟨?_, .inr ⟨es, final, said, hevents, ?_, h⟩⟩
    · rw [hevents, Transcript.demand_append, h.idle.demand_eq]
      exact hdemand
    · rw [hevents, after_append, hgame, after_entries hentries]

end Game

namespace Session

variable {s : Session}

/-- Interactive play is over after one round more than the console has lines, whatever they are. What
was played, as far as log and console went along, took two lines for each move and one for each
castle. A fault is one of the log or the console. Without a fault play ends for one of three reasons:
the board was empty before the first turn, the side to move is stuck, or someone leaves a menu, which
the end of the input does as well. Then the last nine lines of the log are the diagram of the last
board. -/
theorem interactive_play_ends (hs : s.game.board.Seated) (bytes : List UInt8) :
    let input := Text.lines bytes
    let events := s.game.interact input
    let done := s.perform events
    (∀ n, input.length < n → s.game.rounds input n = ⟨events, none⟩) ∧
      2 * moves (s.performed events) + castles (s.performed events) ≤ input.length ∧
      (∀ f, done.2 = some f → f = .sinkFull ∨ f = .notText) ∧
      (done.2 = none → ∃ told said, s.game.Closing input done.1.game said ∧
        done.1.log.text =
          s.log.text ++ Log.ofLines (told ++ said.map Entry.text ++ done.1.game.board.diagram) ∧
        (∀ line ∈ told ++ said.map Entry.text ++ done.1.game.board.diagram, OnOneLine line) ∧
        done.1.game.board.diagram.length = 9) := by
  intro input events done
  obtain ⟨hdemand, hend⟩ := Game.demand_interact_le hs input
  refine ⟨?_, ?_, ?_, ?_⟩
  · intro n hn
    exact s.game.rounds_eq_interact input hn
  · exact Nat.le_trans (Transcript.demand_le_of_prefix (s.performed_prefix events)) hdemand
  · intro f hf
    rcases fault_of_perform hf with hfull | hfault
    · exact .inl hfull
    · exact .inr (s.game.faultsOfInput_interact input f hfault)
  · intro hnone
    have hdone : s.perform events = (done.1, none) := Prod.ext rfl hnone
    obtain ⟨hgame, htext⟩ := performed_whole hdone
    rcases hend with hfault | ⟨es, final, said, hevents, hfinal, hclosing⟩
    · exact absurd hnone (perform_fails_of_fault hfault)
    · obtain rfl : final = done.1.game := hfinal.symm.trans hgame.symm
      have hwritten : written events =
          written es ++ said.map Entry.text ++ done.1.game.board.diagram := by
        rw [← Game.written_closing, ← hevents]
      have htidy := (Game.conversation_interact hs input).ofPlay.tidy
      refine ⟨written es, said, hclosing, ?_, ?_, Board.length_diagram _⟩
      · rw [htext, Transcript.logText_eq_ofLines, hwritten]
      · rw [← hwritten]
        exact Transcript.onOneLine_of_mem_written htidy

/-- White, after a line that is no number, castles by the third option; Black moves the king by two
lines; White quits with a line left. -/
theorem play_ended_by_quitting :
    let s : Session := { fresh none with game := ⟨Board.empty.afterAll [.placeToken "Kle1",
      .placeToken "Rlh1", .placeToken "kde8"], .white, false⟩ }
    let bytes := "zz\n3\n1\n1\n0\n1".toList.map fun c => UInt8.ofNat c.toNat
    (s.game.board.Seated ∧ (s.perform (s.game.interact (Text.lines bytes))).2 = none) ∧
      2 * moves (s.performed (s.game.interact (Text.lines bytes))) +
        castles (s.performed (s.game.interact (Text.lines bytes))) ≤ (Text.lines bytes).length ∧
      (moves (s.performed (s.game.interact (Text.lines bytes))) = 1 ∧
        castles (s.performed (s.game.interact (Text.lines bytes))) = 1) ∧
      (s.game.rounds (Text.lines bytes) 5).next = none ∧
      ∃ said, s.game.Closing (Text.lines bytes)
        (s.perform (s.game.interact (Text.lines bytes))).1.game said := by
  intro s bytes
  have hs : s.game.board.Seated := Board.seated_empty.afterAll _
  have hnone : (s.perform (s.game.interact (Text.lines bytes))).2 = none := by decide +kernel
  obtain ⟨_, hdemand, _, hend⟩ := interactive_play_ends hs bytes
  obtain ⟨_, said, hclosing, _⟩ := hend hnone
  exact ⟨⟨hs, hnone⟩, hdemand, by decide +kernel, by decide +kernel, said, hclosing⟩

end Session

end Scoresheet
