import Scoresheet.Proofs.Session.Choices
import Scoresheet.Proofs.Session.Turns
/-!
# The course of interactive play

Whatever the console says, and wherever it fails, interactive play is a run of permitted turns and
an ending. Only turns and the ending bear on the record; what is shown and asked in between does
not, so a fault finds the record as the last turn left it.
-/
namespace Scoresheet

namespace Game

/-- What is still logged after the last turn. A fault cuts it off. -/
inductive Ending (g : Game) : Option Fault → List Event → Prop where
  | fault (f : Fault) : Ending g (some f) []
  | left : Ending g none g.farewell
  | boardEmpty (h : g.board.isEmpty = true) : Ending g none (.log .boardEmpty :: g.farewell)
  | stuck (hb : g.board.isEmpty = false) (h : g.turnMenu.options = []) :
    Ending g none (.log (.stuck g.turn) :: g.farewell)

variable {g : Game} {f? : Option Fault} {es fs : List Event}

theorem Ending.isEntry (h : g.Ending f? es) : ∀ e ∈ es, e.isEntry = true := by
  have hl := g.board.isEntry_logged
  cases h with
  | fault f => simp
  | left => exact hl
  | boardEmpty _ => exact List.forall_mem_cons.mpr ⟨rfl, hl⟩
  | stuck _ _ => exact List.forall_mem_cons.mpr ⟨rfl, hl⟩

theorem Ending.isRecorded (h : g.Ending f? es) : ∀ e ∈ es, e.isRecorded = true := by
  intro e he
  exact Event.isRecorded_of_isEntry (h.isEntry e he)

theorem Ending.ofPlay (h : g.Ending f? es) : Transcript.OfPlay es := by
  have hl := g.board.ofPlay_logged
  have hcons {e : Entry} (he : e.OfPlay) : Transcript.OfPlay (.log e :: g.farewell) := by
    intro other ho
    rcases List.mem_cons.mp ho with ho | ho
    · rwa [Event.log.inj ho]
    · exact hl other ho
  cases h with
  | fault f => simp [Transcript.OfPlay]
  | left => exact hl
  | boardEmpty _ => exact hcons .boardEmpty
  | stuck _ _ => exact hcons (.stuck g.turn)

theorem Ending.after (h : g.Ending f? es) : g.after es = g := after_entries h.isEntry

theorem Ending.filterMap_token? (h : g.Ending f? es) : es.filterMap Event.token? = [] := by
  have hl := g.board.filterMap_token?_logged
  cases h with
  | fault f => rfl
  | left => rw [farewell, hl]
  | _ =>
    rw [List.filterMap_cons, farewell, hl]
    rfl

/-- Whether events, performed for a game with a log that takes everything, come to permitted turns
and an ending. -/
def PlaysOut (g : Game) (es : List Event) : Prop :=
  ∀ s : Session, s.game = g → s.log.room = none → ∃ turns ending, g.Playable turns ∧
    (s.perform es).1.game = g.after (g.playTurns turns) ∧
    (s.perform es).1.log.text =
      s.log.text ++ Transcript.logText (g.playTurns turns) ++ Transcript.logText ending ∧
    (g.after (g.playTurns turns)).Ending (s.perform es).2 ending

theorem PlaysOut.ending (h : g.Ending none es) : g.PlaysOut es := by
  intro s hg hroom
  obtain ⟨next, hp, hgame, htext, _⟩ := Session.perform_recorded hroom h.isRecorded
  refine ⟨[], es, trivial, ?_, ?_, ?_⟩
  · rw [hp, hgame, hg, h.after]
    rfl
  · rw [hp, htext]
    simp [playTurns]
  · rw [hp]
    exact h

theorem PlaysOut.fault (f : Fault) : g.PlaysOut [.fault f] := by
  intro s hg _
  refine ⟨[], [], trivial, hg, ?_, .fault f⟩
  simp [playTurns, Session.perform, Session.performOne]

theorem PlaysOut.shown (hes : ∀ e ∈ es, e.isShown = true) (h : g.PlaysOut fs) :
    g.PlaysOut (es ++ fs) := by
  intro s hg hroom
  obtain ⟨hgame, hlog⟩ := Session.perform_shown (s := s) hes
  rcases hp : s.perform es with ⟨next, _ | f⟩
  · rw [hp] at hgame hlog
    rw [Session.perform_append_of_none hp, ← hlog]
    exact h next (hgame.trans hg) (hlog ▸ hroom)
  · -- the console failed here, so that nothing of what follows is performed
    rw [hp] at hgame hlog
    rw [Session.perform_append_of_some hp]
    refine ⟨[], [], trivial, hgame.trans hg, ?_, .fault f⟩
    have htext : next.log.text = s.log.text := congrArg Sink.text hlog
    simp [playTurns, htext]

theorem PlaysOut.turn {i : Intent} (hi : g.board.Permits g.turn i)
    (h : (g.after (g.playTurn i)).PlaysOut fs) : g.PlaysOut (g.playTurn i ++ fs) := by
  intro s hg hroom
  obtain ⟨token, hr⟩ := exists_replaysAs hi
  obtain ⟨next, hp, hgame, htext, hroom'⟩ := Session.perform_recorded hroom hr.isRecorded
  rw [hg] at hgame
  obtain ⟨turns, ending, hturns, hgame', htext', hend⟩ := h next hgame hroom'
  rw [Session.perform_append_of_none hp]
  refine ⟨i :: turns, ending, ⟨hi, hturns⟩, ?_, ?_, ?_⟩
  · rw [hgame', playTurns, after_append]
  · rw [htext', htext, playTurns, Transcript.logText_append]
    simp only [String.append_assoc]
  · rwa [playTurns, after_append]

/-- What interactive play from a game consists of. Between turns something may be shown, and in the
end there is an ending or a fault. -/
inductive Conversation : Game → List Event → Prop where
  | ending {g : Game} {es : List Event} (h : g.Ending none es) : Conversation g es
  | fault {g : Game} (f : Fault) : Conversation g [.fault f]
  | shown {g : Game} {es fs : List Event} (hes : ∀ e ∈ es, e.isShown = true)
    (h : Conversation g fs) : Conversation g (es ++ fs)
  | turn {g : Game} {i : Intent} {fs : List Event} (hi : g.board.Permits g.turn i)
    (h : Conversation (g.after (g.playTurn i)) fs) : Conversation g (g.playTurn i ++ fs)

private theorem Conversation.playsOut (h : g.Conversation es) : g.PlaysOut es := by
  induction h with
  | ending h => exact .ending h
  | fault f => exact .fault f
  | shown hes _ ih => exact .shown hes ih
  | turn hi _ ih => exact .turn hi ih

end Game

theorem Menu.mem_options_of_reply {α : Type} {m : Menu α} {line : Option Text.Line} {option : α}
    (h : m.reply line = .choose option) : option ∈ m.options := by
  unfold reply at h
  split at h
  · cases h
  · split at h
    · cases h
    · unfold replyToText at h
      split at h
      · cases h
      · cases h
      · split at h
        · cases h
        · next _ found hf =>
          rw [← Reply.choose.inj h]
          exact List.mem_of_getElem? hf

theorem Menu.isShown_shown {α : Type} (m : Menu α) : ∀ e ∈ m.shown, e.isShown = true := by
  intro e he
  rcases List.mem_append.mp he with he | he
  · obtain ⟨line, _, rfl⟩ := List.mem_map.mp he
    rfl
  · rw [List.mem_singleton.mp he]
    rfl

theorem Menu.isShown_askedAgain {α : Type} (m : Menu α) :
    ∀ e ∈ m.askedAgain, e.isShown = true := by
  simp [Menu.askedAgain, Event.isShown, Event.isRecorded]

/-- What happens from a stretch on, given the lines that the console will still give. -/
def Stretch.followed (stretch : Stretch) (lines : List Text.Line) : List Event :=
  stretch.events ++
    match stretch.next with
    | none => []
    | some dialogue => dialogue.run lines

/-- Whether a dialogue is one that play can come to: the chosen piece is on the board and of the
side to move. -/
def Dialogue.Sound : Dialogue → Prop
  | choosingPiece g => g.board.Seated
  | choosingTarget g p =>
    g.board.Seated ∧ g.board.occupant p.square = some p ∧ p.color = g.turn

namespace Game

variable {g : Game} {lines : List Text.Line}

theorem isShown_turnShown_castleNotes (g : Game) :
    ∀ e ∈ g.turnShown ++ g.castleNotes, e.isShown = true := by
  intro e he
  simp only [turnShown, castleNotes, List.mem_append, List.mem_map, List.mem_singleton] at he
  rcases he with (⟨row, _, rfl⟩ | rfl) | ⟨note, _, rfl⟩ <;> rfl

private theorem conversation_beginTurn (h : g.Conversation ((Dialogue.choosingPiece g).run lines)) :
    g.Conversation (g.beginTurn.followed lines) := by
  have hshown := g.isShown_turnShown_castleNotes
  unfold beginTurn
  split
  · next hb =>
    simp only [Stretch.followed, List.append_nil]
    exact .ending (.boardEmpty hb)
  · next hb =>
    rw [Bool.not_eq_true] at hb
    split
    · next ho =>
      simp only [Stretch.followed, List.append_nil]
      exact .shown hshown (.ending (.stuck hb (List.isEmpty_iff.mp ho)))
    · simp only [Stretch.followed, List.append_assoc (g.turnShown ++ g.castleNotes)]
      exact .shown hshown (.shown g.turnMenu.isShown_shown h)

private theorem conversation_turnFrom {i : Intent} (hs : g.board.Seated)
    (hi : g.board.Permits g.turn i)
    (hrun : ∀ d : Dialogue, d.Sound → d.game.Conversation (d.run lines)) :
    g.Conversation ((g.turnFrom i).followed lines) := by
  have hbegin : (g.after (g.playTurn i)).Conversation
      ((g.after (g.playTurn i)).beginTurn.followed lines) :=
    conversation_beginTurn (hrun (.choosingPiece _) (seated_after_playTurn hs hi))
  have heq : (g.turnFrom i).followed lines =
      g.playTurn i ++ (g.after (g.playTurn i)).beginTurn.followed lines := by
    simp [turnFrom, Stretch.followed]
  rw [heq]
  exact .turn hi hbegin

end Game

namespace Dialogue

variable {d : Dialogue} {lines : List Text.Line}

private theorem conversation_answered {α : Type} {m : Menu α} {line : Option Text.Line}
    {chosen : α → Stretch}
    (hd : d.game.Conversation (d.run lines))
    (hchosen : ∀ option ∈ m.options, d.game.Conversation ((chosen option).followed lines)) :
    d.game.Conversation ((d.answered m line chosen).followed lines) := by
  unfold answered
  cases hr : m.reply line with
  | leave =>
    simp only [Stretch.followed, List.append_nil]
    exact .ending .left
  | choose option => exact hchosen option (Menu.mem_options_of_reply hr)
  | refuse => exact .shown m.isShown_askedAgain hd
  | garbled => exact .fault .notText

/-- What the options of the first menu lead to: a sound choice of a square, or a permitted castle. -/
inductive SoundOption (g : Game) : TurnOption → Prop where
  | piece {p : Piece} (place : Nat) (h : (choosingTarget g p).Sound) :
    SoundOption g (.piece place p)
  | castle {side : CastleSide} (h : g.board.Permits g.turn (.castle side)) :
    SoundOption g (.castle side)

theorem sound_of_mem_turnMenu {g : Game} {option : TurnOption} (hs : g.board.Seated)
    (h : option ∈ g.turnMenu.options) : SoundOption g option := by
  obtain ⟨n, hn⟩ := List.mem_iff_getElem?.mp h
  cases option with
  | piece place p =>
    obtain ⟨_, hp⟩ := Game.turnMenu_eq_piece_iff.mp hn
    obtain ⟨hocc, hc, _⟩ := hs.mem_movable_iff.mp (List.mem_of_getElem? hp)
    exact .piece place ⟨hs, hocc, hc⟩
  | castle side =>
    obtain ⟨m, _, hm⟩ := Game.turnMenu_eq_castle_iff.mp hn
    exact .castle (Board.mem_castles_iff.mp (List.mem_of_getElem? hm))

/-- One line keeps a dialogue on a course of permitted turns. -/
theorem conversation_step {line : Option Text.Line} (hd : d.Sound)
    (hrun : ∀ d : Dialogue, d.Sound → d.game.Conversation (d.run lines)) :
    d.game.Conversation ((d.step line).followed lines) := by
  cases d with
  | choosingPiece g =>
    have hs : g.board.Seated := hd
    apply conversation_answered (hrun _ hd)
    intro option ho
    cases sound_of_mem_turnMenu hs ho with
    | @piece p place h => exact .shown (squareMenu g p).isShown_shown (hrun (.choosingTarget g p) h)
    | castle hi => exact Game.conversation_turnFrom hs hi hrun
  | choosingTarget g p =>
    obtain ⟨hs, hocc, hc⟩ := hd
    apply conversation_answered (hrun (.choosingTarget g p) ⟨hs, hocc, hc⟩)
    intro target ht
    exact Game.conversation_turnFrom hs (Board.permits_move_iff.mpr ⟨p, hocc, hc, ht⟩) hrun

private theorem conversation_run (hd : d.Sound) : d.game.Conversation (d.run lines) := by
  -- on the lines that the console still gives; every line leaves a sound dialogue or none
  induction lines generalizing d with
  | nil =>
    have hleft : d.run [] = d.game.farewell := by cases d <;> rfl
    rw [hleft]
    exact .ending .left
  | cons line lines ih =>
    exact conversation_step hd fun d hd => ih hd

end Dialogue

theorem Game.conversation_interact {g : Game} (h : g.board.Seated) (input : List Text.Line) :
    g.Conversation (g.interact input) := by
  let opening : Event := .note ⟨.info, "entering interactive mode"⟩
  have hopening : ∀ e ∈ [opening], e.isShown = true := by
    simp [opening, Event.isShown, Event.isRecorded]
  have hinteract : g.interact input = [opening] ++ g.beginTurn.followed input := rfl
  rw [hinteract]
  exact .shown hopening (conversation_beginTurn (Dialogue.conversation_run (d := .choosingPiece g) h))

/-- Interactive play comes to permitted turns and an ending, whatever lines the console gives. -/
theorem Game.playsOut_interact {g : Game} (h : g.board.Seated) (input : List Text.Line) :
    g.PlaysOut (g.interact input) :=
  (conversation_interact h input).playsOut

end Scoresheet
