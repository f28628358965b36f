import Scoresheet.Proofs.Session.Sequences
import Scoresheet.Proofs.Session.StepEvents
import Scoresheet.Proofs.Session.TurnOrder
/-!
# Setting up

A setup file puts its placements on the board one over the other, and does nothing else to the game:
each square ends with the last piece that was put there. Every line that is not blank is told of by
one line of the log. Until movement has begun, a directive file without actions comes to the same
board, and to the same log as well if all its lines are placements.
-/
namespace Scoresheet

open Transcript (bare written)

namespace Directive

def placement? (line : String) : Option Placement :=
  match ofLine line with
  | .placement token => (Placement.ofToken token).toOption
  | _ => none

def PutsOn (line : String) (t : Square) : Prop := ∃ p, placement? line = some p ∧ p.square = t

/-- Whether a placement is that of the last line that puts a piece on a square. -/
def LastOn (lines : List String) (t : Square) (p : Placement) : Prop :=
  ∃ before line rest, lines = before ++ line :: rest ∧ placement? line = some p ∧ p.square = t ∧
    ∀ other ∈ rest, ¬ PutsOn other t

/-- Whether a line of a setup file is told of by a line of the log. -/
def ToldInSetUp (line told : String) : Prop :=
  match ofLine line with
  | .blank => False
  | .placement token => ∃ p, placement? line = some p ∧ told = (Entry.placed token p).text
  | _ => told = (Entry.unrecognized (Game.trimmed line)).text

variable {line token : String} {lines : List String} {t : Square} {p : Placement}

private theorem exists_placement?_of_ofLine (h : ofLine line = .placement token) :
    ∃ p, Placement.ofToken token = .ok p ∧ placement? line = some p := by
  obtain ⟨p, hp⟩ := exists_placement (isPlacement_of_ofLine h)
  refine ⟨p, hp, ?_⟩
  rw [placement?, h]
  simp [hp, Except.toOption]

private theorem placement?_of_not_placement (h : ∀ token, ofLine line ≠ .placement token) :
    placement? line = none := by
  unfold placement?
  split
  · next token ht => exact absurd ht (h token)
  · rfl

theorem LastOn.cons (h : LastOn lines t p) (line : String) : LastOn (line :: lines) t p := by
  obtain ⟨before, last, rest, hlines, hlast⟩ := h
  exact ⟨line :: before, last, rest, by rw [hlines, List.cons_append], hlast⟩

end Directive

open Directive (placement? PutsOn LastOn ToldInSetUp)

namespace Board

def overlaid (b : Board) (line : String) : Board := (placement? line).elim b b.place

def overlaidAll (b : Board) (lines : List String) : Board := lines.foldl overlaid b

variable {b : Board} {line : String} {t : Square}

private theorem occupant_overlaid (b : Board) (line : String) (t : Square) :
    (∃ p, placement? line = some p ∧ p.square = t ∧
      (b.overlaid line).occupant t = some p.piece) ∨
    (¬ PutsOn line t ∧ (b.overlaid line).occupant t = b.occupant t) := by
  cases hp : placement? line with
  | none => simp [PutsOn, overlaid, hp]
  | some p =>
    have hover : b.overlaid line = b.place p := by rw [overlaid, hp, Option.elim_some]
    rw [hover, occupant_place]
    by_cases ht : t = p.square
    · exact .inl ⟨p, rfl, ht.symm, if_pos ht⟩
    · refine .inr ⟨?_, if_neg ht⟩
      intro hputs
      obtain ⟨q, hq, hqt⟩ := hputs
      rw [hp, Option.some.injEq] at hq
      rw [hq] at ht
      exact ht hqt.symm

/-- The last piece that lines put on a square stays there. -/
theorem occupant_overlaidAll (b : Board) (lines : List String) (t : Square) :
    (∃ p, LastOn lines t p ∧ (b.overlaidAll lines).occupant t = some p.piece) ∨
    ((∀ line ∈ lines, ¬ PutsOn line t) ∧ (b.overlaidAll lines).occupant t = b.occupant t) := by
  induction lines generalizing b with
  | nil => exact .inr ⟨by simp, rfl⟩
  | cons line rest ih =>
    rcases ih (b.overlaid line) with ⟨p, hlast, hp⟩ | ⟨hrest, hkept⟩
    · exact .inl ⟨p, hlast.cons line, hp⟩
    · rcases b.occupant_overlaid line t with ⟨p, hline, hpt, hp⟩ | ⟨hline, hsame⟩
      · exact .inl ⟨p, ⟨[], line, rest, rfl, hline, hpt, hrest⟩, hkept.trans hp⟩
      · exact .inr ⟨List.forall_mem_cons.mpr ⟨hline, hrest⟩, hkept.trans hsame⟩

end Board

namespace Game

open Directive (ofLine)

variable {g : Game} {line token : String} {lines : List String}

private theorem place_of_placement (h : ofLine line = .placement token) :
    ∃ p, placement? line = some p ∧
      g.place token = [.update { g with board := g.board.place p }, .log (.placed token p)] := by
  obtain ⟨p, hp, hline⟩ := Directive.exists_placement?_of_ofLine h
  exact ⟨p, hline, by rw [place, hp]⟩

private theorem after_setUpLine (g : Game) (line : String) :
    g.after (g.setUpLine line) = { g with board := g.board.overlaid line } := by
  rcases cases_of_line line with ⟨token, h⟩ | h
  · obtain ⟨p, hline, hplace⟩ := place_of_placement (g := g) h
    rw [Board.overlaid, hline, setUpLine, h]
    simp only [hplace]
    rfl
  · rw [Board.overlaid, Directive.placement?_of_not_placement h, setUpLine]
    split
    · next token ht => exact absurd ht (h token)
    · rfl
    · rfl

private theorem after_setUpLines (g : Game) (lines : List String) :
    g.after (g.setUpLines lines) = { g with board := g.board.overlaidAll lines } := by
  induction lines generalizing g with
  | nil => rfl
  | cons line lines ih =>
    rw [setUpLines, after_append, ih, after_setUpLine]
    rfl

private theorem written_setUpLine (g : Game) (line : String) :
    (ofLine line = .blank ∧ written (g.setUpLine line) = []) ∨
    (ofLine line ≠ .blank ∧ ∃ told, written (g.setUpLine line) = [told] ∧ ToldInSetUp line told) := by
  rcases cases_of_line line with ⟨token, h⟩ | h
  · obtain ⟨p, hline, hplace⟩ := place_of_placement (g := g) h
    refine .inr ⟨by simp [h], (Entry.placed token p).text, ?_, ?_⟩
    · rw [setUpLine, h]
      simp only [hplace]
      rfl
    · rw [ToldInSetUp, h]
      exact ⟨p, hline, rfl⟩
  · unfold setUpLine ToldInSetUp
    cases hd : ofLine line with
    | blank => exact .inl ⟨rfl, rfl⟩
    | placement token => exact absurd hd (h token)
    | _ => exact .inr ⟨by simp, _, rfl, rfl⟩

private theorem written_setUpLines (g : Game) (lines : List String) :
    List.Forall₂ ToldInSetUp (lines.filter fun line => ofLine line != .blank)
      (written (g.setUpLines lines)) := by
  induction lines generalizing g with
  | nil => exact .nil
  | cons line lines ih =>
    rw [setUpLines, Transcript.written_append]
    rcases g.written_setUpLine line with ⟨hblank, hnone⟩ | ⟨hline, told, hone, htold⟩
    · rw [hnone, List.filter_cons_of_neg (by simp [hblank])]
      exact ih _
    · rw [hone, List.filter_cons_of_pos (by simpa using hline)]
      exact .cons htold (ih _)

private theorem bare_setUp (g : Game) (lines : List String) :
    bare (g.setUp lines) = bare (g.setUpLines lines) := by
  rw [setUp, Transcript.bare_append]
  exact List.append_nil _

private theorem after_setUp (g : Game) (lines : List String) :
    g.after (g.setUp lines) = { g with board := g.board.overlaidAll lines } := by
  rw [setUp, after_append, ← after_setUpLines]
  rfl

private theorem carriedOut_eq_overlaid (hb : g.begun = false) (h : (ofLine line).actions? = none) :
    g.carriedOut line = { g with board := g.board.overlaid line } := by
  rcases cases_of_line line with ⟨token, hline⟩ | hline
  · obtain ⟨p, hp, hout⟩ := carriedOut_of_not_begun hb hline
    obtain ⟨q, hq, hputs⟩ := Directive.exists_placement?_of_ofLine hline
    obtain rfl : p = q := Except.ok.inj (hp.symm.trans hq)
    rw [hout, Board.overlaid, hputs, Option.elim_some]
  · rw [carriedOut_of_not_placement hline, Directive.actionTokens, h, Board.overlaid,
      Directive.placement?_of_not_placement hline]
    rfl

private theorem carriedOutAll_eq_overlaidAll (hb : g.begun = false)
    (h : ∀ line ∈ lines, (ofLine line).actions? = none) :
    g.carriedOutAll lines = { g with board := g.board.overlaidAll lines } := by
  induction lines generalizing g with
  | nil => rfl
  | cons line rest ih =>
    obtain ⟨hline, hrest⟩ := List.forall_mem_cons.mp h
    rw [carriedOutAll_cons, carriedOut_eq_overlaid hb hline]
    exact ih hb hrest

private theorem playLine_eq_setUpLine (hb : g.begun = false)
    (h : ofLine line = .blank ∨ ∃ token, ofLine line = .placement token) :
    g.playLine line = g.setUpLine line := by
  rcases h with h | ⟨token, h⟩
  · rw [playLine, setUpLine, h]
  · rw [playLine, setUpLine, h]
    simp [hb]

private theorem playAll_eq_setUpLines (hb : g.begun = false)
    (h : ∀ line ∈ lines, ofLine line = .blank ∨ ∃ token, ofLine line = .placement token) :
    g.playAll lines = g.setUpLines lines := by
  induction lines generalizing g with
  | nil => rfl
  | cons line rest ih =>
    obtain ⟨hline, hrest⟩ := List.forall_mem_cons.mp h
    have hstill : (g.after (g.setUpLine line)).begun = false := by
      rw [after_setUpLine]
      exact hb
    rw [playAll, setUpLines, playLine_eq_setUpLine hb hline, ih hstill hrest]

end Game

namespace Session

open Directive (ofLine)

variable {s : Session}

def prepared (s : Session) (text : List UInt8) : Session × Option Fault :=
  s.perform (s.game.setUp (Text.textLines text))

private theorem recorded_prepared (s : Session) (text : List UInt8) : recorded (s.prepared text) =
    s.game.record Sink.writer s.log (s.game.setUpLines (Text.textLines text)) := by
  rw [← Game.record_bare, ← Game.bare_setUp, Game.record_bare,
    perform_eq_record (s.game.unshown_setUp _)]
  rfl

private theorem recorded_replayed_eq_prepared (hb : s.game.begun = false) {text : List UInt8}
    (h : ∀ line ∈ Text.textLines text,
      ofLine line = .blank ∨ ∃ token, ofLine line = .placement token) :
    recorded (s.replayed text) = recorded (s.prepared text) := by
  rw [recorded_replayed, recorded_playLines_eq, recorded_prepared, Game.playAll_eq_setUpLines hb h]

private theorem game_replayed (hroom : s.log.room = none) (text : List UInt8) :
    (s.replayed text).1.game = s.game.carriedOutAll (Text.textLines text) := by
  obtain ⟨next, hplayed, hgame⟩ := playLines_of_room_eq_none hroom (Text.textLines text)
  have hsame := congrArg Recorded.game (s.recorded_replayed text)
  rw [hplayed] at hsame
  exact hsame.trans hgame

/-- With a log that takes everything, a setup file leaves on each square the unmoved piece of the last
line that puts one there, or what stood there before, and changes nothing else of the game. The log
has one more line for each line that is not blank. A directive file without actions comes to the
same game until movement has begun, and if all its lines are placements or blank, to the same log. -/
theorem setup_overlays_placements (hroom : s.log.room = none) (text : List UInt8) :
    let lines := Text.textLines text
    let done := s.prepared text
    done.2 = none ∧
    (∀ line token, ofLine line = .placement token →
      ∃ p, Placement.ofToken token = .ok p ∧ placement? line = some p) ∧
    (∀ t, (∃ p, LastOn lines t p ∧ done.1.game.board.occupant t = some p.piece) ∨
      ((∀ line ∈ lines, ¬ PutsOn line t) ∧
        done.1.game.board.occupant t = s.game.board.occupant t)) ∧
    done.1.game.turn = s.game.turn ∧ done.1.game.begun = s.game.begun ∧
    (∃ told, done.1.log.text = s.log.text ++ Log.ofLines told ∧
      (∀ line ∈ told, OnOneLine line) ∧
      List.Forall₂ ToldInSetUp (lines.filter fun line => ofLine line != .blank) told) ∧
    (s.game.begun = false → (∀ line ∈ lines, (ofLine line).actions? = none) →
      (s.replayed text).2 = none ∧ (s.replayed text).1.game = done.1.game ∧
      ((∀ line ∈ lines, ofLine line = .blank ∨ ∃ token, ofLine line = .placement token) →
        (s.replayed text).1.log = done.1.log)) := by
  intro lines done
  obtain ⟨next, hp, hgame, htext, -⟩ := perform_unshown hroom (s.game.unshown_setUp lines)
  have hdone : done = (next, none) := hp
  rw [Game.after_setUp] at hgame
  have htidy : Transcript.Tidy (s.game.setUpLines lines) :=
    s.game.tidy_setUpLines fun _ hline => Text.onOneLine_of_mem_textLines hline
  have hlog : next.log.text =
      s.log.text ++ Log.ofLines (written (s.game.setUpLines lines)) := by
    rw [htext, Transcript.logText_eq_ofLines, Game.setUp, Transcript.written_append]
    congr 2
    exact List.append_nil _
  refine ⟨by rw [hdone], fun line token => Directive.exists_placement?_of_ofLine, ?_, ?_, ?_,
    ⟨_, by rw [hdone]; exact hlog, Transcript.onOneLine_of_mem_written htidy,
      s.game.written_setUpLines lines⟩, ?_⟩
  · rw [hdone, hgame]
    exact s.game.board.occupant_overlaidAll lines
  · rw [hdone, hgame]
  · rw [hdone, hgame]
  · intro hb hnone
    refine ⟨fault_replayed hroom text, ?_, ?_⟩
    · rw [game_replayed hroom, Game.carriedOutAll_eq_overlaidAll hb hnone, hdone, hgame]
    · intro hplacements
      exact congrArg Recorded.log (recorded_replayed_eq_prepared hb hplacements)

/-- Black, who is to move, gets a king in place of White's queen. -/
theorem queen_replaced_in_setup :
    let s : Session := { fresh none with game := { Game.fresh with turn := .black } }
    let text := "Qle1\nqueen\n\nKdE1 // king".toList.map fun c => UInt8.ofNat c.toNat
    let done := s.prepared text
    s.log.room = none ∧ done.2 = none ∧
      LastOn (Text.textLines text) ⟨0, 4⟩ ⟨⟨.black, .king⟩, ⟨0, 4⟩⟩ ∧
      done.1.game.board.occupant ⟨0, 4⟩ = some ⟨⟨.black, .king⟩, ⟨0, 4⟩, false⟩ ∧
      done.1.game.turn = .black ∧ (s.replayed text).1.game = done.1.game := by
  intro s text done
  have hroom : s.log.room = none := rfl
  obtain ⟨hfault, -, hsquares, hturn, -, -, hsame⟩ := setup_overlays_placements hroom text
  have hnone : ∀ line ∈ Text.textLines text, (ofLine line).actions? = none := by decide
  have hmem : "Qle1" ∈ Text.textLines text := by decide
  have hqueen : PutsOn "Qle1" ⟨0, 4⟩ := ⟨⟨⟨.white, .queen⟩, ⟨0, 4⟩⟩, rfl, rfl⟩
  have hking : done.1.game.board.occupant ⟨0, 4⟩ =
      some ⟨⟨.black, .king⟩, ⟨0, 4⟩, false⟩ := by decide +kernel
  rcases hsquares ⟨0, 4⟩ with ⟨p, hlast, hp⟩ | ⟨hempty, -⟩
  · obtain rfl : p = ⟨⟨.black, .king⟩, ⟨0, 4⟩⟩ := by
      rw [hking, Placement.piece, Option.some.injEq] at hp
      obtain ⟨man, t⟩ := p
      simpa using hp.symm
    exact ⟨hroom, hfault, hlast, hking, hturn, (hsame rfl hnone).2.1⟩
  · exact absurd hqueen (hempty _ hmem)

end Session

end Scoresheet
