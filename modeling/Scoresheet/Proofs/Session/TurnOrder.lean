import Mathlib.Logic.Function.Iterate
import Scoresheet.Proofs.Board.Descent
import Scoresheet.Proofs.Session.Sequences
/-!
# Whose turn it is, and when pieces are placed

Along any lines the turn passes once for every action token, whatever comes of it, and for nothing
else. Until the first of these tokens every placement is carried out; from then on none is, so all
pieces descend from those that stood there.
-/
namespace Scoresheet

open Directive (actionTokens ofLine)

namespace Board

variable {b next : Board} {m : Movement} {c : Color} {side : CastleSide}

private theorem descends_of_move (h : b.move m c = .ok next) :
    ∃ origin, Descends origin b next := by
  obtain ⟨hr, rfl⟩ := move_eq_ok_iff.mp h
  obtain ⟨p, hp, hne, _⟩ := squares_of_accepted hr
  exact ⟨_, descends_relocate hp hne⟩

private theorem descends_of_canCastle (h : b.canCastle side c = true) :
    ∃ origin, Descends origin b (b.castle side c) := by
  obtain ⟨king, rook, hk, hr, _⟩ := canCastle_iff.mp h
  exact ⟨_, descends_castle (castleReady_iff.mpr ⟨king, rook, hk, hr⟩)⟩

private theorem exists_descends_trans {mid : Board} (h : ∃ origin, Descends origin b mid)
    (hrest : ∃ origin, Descends origin mid next) : ∃ origin, Descends origin b next := by
  obtain ⟨first, hfirst⟩ := h
  obtain ⟨rest, hrest⟩ := hrest
  exact ⟨first ∘ rest, hfirst.trans hrest⟩

end Board

namespace Game

open Board (Descends)

variable {g : Game} {line token : String} {tokens lines : List String}

private theorem turn_actedAll (g : Game) (tokens : List String) :
    (g.actedAll tokens).turn = Color.opposite^[tokens.length] g.turn := by
  induction tokens generalizing g with
  | nil => rfl
  | cons token tokens ih =>
    rw [actedAll_cons, ih, List.length_cons, Function.iterate_succ_apply]
    rfl

private theorem begun_actedAll (g : Game) (tokens : List String) :
    (g.actedAll tokens).begun = (g.begun || !tokens.isEmpty) := by
  induction tokens generalizing g with
  | nil => exact (Bool.or_false _).symm
  | cons token tokens ih =>
    rw [actedAll_cons, ih]
    show (true || !tokens.isEmpty) = (g.begun || true)
    rw [Bool.true_or, Bool.or_true]

private theorem descends_boardAfter (g : Game) (token : String) :
    ∃ origin, Descends origin g.board (g.boardAfter token) := by
  unfold boardAfter
  cases ha : g.accepted? token with
  | none => exact ⟨id, .refl g.board⟩
  | some board =>
    rcases cases_of_accepted? ha with ⟨side, hc, rfl⟩ | ⟨m, hm⟩
    · exact Board.descends_of_canCastle hc
    · exact Board.descends_of_move hm

private theorem descends_actedAll (g : Game) (tokens : List String) :
    ∃ origin, Descends origin g.board (g.actedAll tokens).board := by
  induction tokens generalizing g with
  | nil => exact ⟨id, .refl g.board⟩
  | cons token tokens ih =>
    exact Board.exists_descends_trans (g.descends_boardAfter token) (ih (g.acted token))

private theorem actionTokens_of_placement (h : ofLine line = .placement token) :
    actionTokens line = [] := by
  rw [actionTokens, h]
  rfl

private theorem carriedOut_of_placement (h : ofLine line = .placement token) :
    g.carriedOut line = g.placed token := by
  rw [carriedOut, h]

theorem carriedOut_of_not_placement (h : ∀ token, ofLine line ≠ .placement token) :
    g.carriedOut line = g.actedAll (actionTokens line) := by
  unfold carriedOut actionTokens
  cases hd : ofLine line with
  | placement token => exact absurd hd (h token)
  | _ => rfl

theorem cases_of_line (line : String) : (∃ token, ofLine line = .placement token) ∨
    ∀ token, ofLine line ≠ .placement token := by
  by_cases h : ∃ token, ofLine line = .placement token
  · exact .inl h
  · exact .inr (not_exists.mp h)

private theorem turn_carriedOut (g : Game) (line : String) :
    (g.carriedOut line).turn = Color.opposite^[(actionTokens line).length] g.turn := by
  rcases cases_of_line line with ⟨token, h⟩ | h
  · rw [carriedOut_of_placement h, actionTokens_of_placement h, turn_placed]
    rfl
  · rw [carriedOut_of_not_placement h, turn_actedAll]

private theorem begun_carriedOut (g : Game) (line : String) :
    (g.carriedOut line).begun = (g.begun || !(actionTokens line).isEmpty) := by
  rcases cases_of_line line with ⟨token, h⟩ | h
  · rw [carriedOut_of_placement h, actionTokens_of_placement h, begun_placed, List.isEmpty_nil,
      Bool.not_true, Bool.or_false]
  · rw [carriedOut_of_not_placement h, begun_actedAll]

private theorem turn_carriedOutAll (g : Game) (lines : List String) :
    (g.carriedOutAll lines).turn =
      Color.opposite^[(lines.flatMap actionTokens).length] g.turn := by
  induction lines generalizing g with
  | nil => rfl
  | cons line lines ih =>
    rw [carriedOutAll_cons, ih, turn_carriedOut, List.flatMap_cons, List.length_append,
      Nat.add_comm, Function.iterate_add_apply]

private theorem begun_carriedOutAll (g : Game) (lines : List String) :
    (g.carriedOutAll lines).begun = (g.begun || !(lines.flatMap actionTokens).isEmpty) := by
  induction lines generalizing g with
  | nil => exact (Bool.or_false _).symm
  | cons line lines ih =>
    rw [carriedOutAll_cons, ih, begun_carriedOut, List.flatMap_cons, Bool.or_assoc]
    cases actionTokens line <;> rfl

private theorem descends_carriedOut (h : g.begun = true ∨ actionTokens line ≠ []) :
    ∃ origin, Descends origin g.board (g.carriedOut line).board := by
  rcases cases_of_line line with ⟨token, hline⟩ | hline
  · rcases h with hb | hne
    · rw [carriedOut_of_placement hline, placed_of_begun hb]
      exact ⟨id, .refl g.board⟩
    · exact absurd (actionTokens_of_placement hline) hne
  · rw [carriedOut_of_not_placement hline]
    exact g.descends_actedAll _

private theorem descends_carriedOutAll (h : g.begun = true) (lines : List String) :
    ∃ origin, Descends origin g.board (g.carriedOutAll lines).board := by
  induction lines generalizing g with
  | nil => exact ⟨id, .refl g.board⟩
  | cons line lines ih =>
    have hb : (g.carriedOut line).begun = true := by rw [begun_carriedOut, h, Bool.true_or]
    exact Board.exists_descends_trans (descends_carriedOut (.inl h)) (ih hb)

/-- From a line with an action on, pieces are moved and captured, never added. -/
theorem descends_from_action (h : g.begun = true ∨ actionTokens line ≠ []) (rest : List String) :
    ∃ origin, Descends origin g.board ((g.carriedOut line).carriedOutAll rest).board := by
  have hb : (g.carriedOut line).begun = true := by
    rw [begun_carriedOut]
    rcases h with hb | hne
    · rw [hb, Bool.true_or]
    · simp [hne]
  exact Board.exists_descends_trans (descends_carriedOut h) (descends_carriedOutAll hb rest)

theorem carriedOut_of_not_begun (hb : g.begun = false) (h : ofLine line = .placement token) :
    ∃ p, Placement.ofToken token = .ok p ∧
      g.carriedOut line = { g with board := g.board.place p } := by
  obtain ⟨p, hp⟩ := Directive.exists_placement (Directive.isPlacement_of_ofLine h)
  refine ⟨p, hp, ?_⟩
  rw [carriedOut_of_placement h, placed, if_neg (Bool.eq_false_iff.mp hb), hp]

end Game

namespace Session

variable {s : Session}

/-- Along lines played on a log that takes everything: the turn passes with every action token.
Placement is closed once movement has begun or an action token has come; until then a placement line
puts a piece that has not moved on its square, and from then on it leaves the game alone, as blank
and unrecognised lines always do. From the first action token on no piece is added. -/
theorem turn_passes_with_each_action (hroom : s.log.room = none) (lines : List String) :
    let after (played : List String) : Game := (s.playLines played).1.game
    (s.playLines lines).2 = none ∧
    (after lines).turn = Color.opposite^[(lines.flatMap actionTokens).length] s.game.turn ∧
    ∀ before line rest, lines = before ++ line :: rest →
      let closed : Prop := s.game.begun = true ∨ before.flatMap actionTokens ≠ []
      (∀ token, ofLine line = .placement token → closed →
        after (before ++ [line]) = after before) ∧
      (∀ token, ofLine line = .placement token → ¬ closed →
        ∃ p, Placement.ofToken token = .ok p ∧ p.piece.moved = false ∧
          (after (before ++ [line])).board.occupant p.square = some p.piece ∧
          after (before ++ [line]) =
            { after before with board := (after before).board.place p }) ∧
      ((∀ token, ofLine line ≠ .placement token) → actionTokens line = [] →
        after (before ++ [line]) = after before) ∧
      (closed ∨ actionTokens line ≠ [] →
        ∃ origin, Board.Descends origin (after before).board (after lines).board) := by
  intro after
  have hafter (played : List String) : after played = s.game.carriedOutAll played := by
    obtain ⟨next, hp, hgame⟩ := playLines_of_room_eq_none hroom played
    rw [← hgame]
    exact congrArg (fun done => done.1.game) hp
  obtain ⟨next, hp, _⟩ := playLines_of_room_eq_none hroom lines
  refine ⟨congrArg Prod.snd hp, ?_, ?_⟩
  · rw [hafter, Game.turn_carriedOutAll]
  intro before line rest hlines closed
  let mid := s.game.carriedOutAll before
  have hmid : after before = mid := hafter before
  have hline : after (before ++ [line]) = mid.carriedOut line := by
    rw [hafter, Game.carriedOutAll, List.foldl_append]
    rfl
  have hlast : after lines = (mid.carriedOut line).carriedOutAll rest := by
    rw [hafter, hlines, Game.carriedOutAll, List.foldl_append]
    rfl
  have hclosed : closed ↔ mid.begun = true := by
    rw [Game.begun_carriedOutAll]
    simp [closed]
  rw [hline, hmid, hlast]
  refine ⟨?_, ?_, ?_, ?_⟩
  · intro token htoken hc
    rw [Game.carriedOut_of_placement htoken, Game.placed_of_begun (hclosed.mp hc)]
  · intro token htoken hc
    have hb : mid.begun = false := Bool.eq_false_iff.mpr fun hb => hc (hclosed.mpr hb)
    obtain ⟨p, hp, hgame⟩ := Game.carriedOut_of_not_begun hb htoken
    refine ⟨p, hp, rfl, ?_, hgame⟩
    rw [hgame, Board.occupant_place, if_pos rfl]
  · intro hno htokens
    rw [Game.carriedOut_of_not_placement hno, htokens]
    rfl
  · intro h
    exact Game.descends_from_action (h.imp_left hclosed.mp) rest

/-- A move that is refused and one that cannot be read pass the turn twice, and the queen comes too
late. -/
theorem turn_passes_without_accepted_action :
    let s := fresh none
    let before := ["Ple2", "e2-e5 B1-C3", "// Black has nothing to play."]
    let after (played : List String) : Game := (s.playLines played).1.game
    (s.log.room = none ∧ ofLine "Qld1" = .placement "Qld1") ∧
      (after (before ++ ["Qld1"])).turn = .white ∧
      after (before ++ ["Qld1"]) = after before := by
  intro s before after
  have hroom : s.log.room = none := rfl
  have hline : ofLine "Qld1" = .placement "Qld1" := by decide +kernel
  have htokens : before.flatMap actionTokens = ["e2-e5", "B1-C3"] := by decide +kernel
  have hall : (before ++ ["Qld1"]).flatMap actionTokens = ["e2-e5", "B1-C3"] := by decide +kernel
  obtain ⟨_, hturn, hsteps⟩ := turn_passes_with_each_action hroom (before ++ ["Qld1"])
  obtain ⟨hclosed, _⟩ := hsteps before "Qld1" [] rfl
  refine ⟨⟨hroom, hline⟩, ?_, hclosed "Qld1" hline (.inr ?_)⟩
  · rw [hturn, hall]
    rfl
  · rw [htokens]
    exact List.cons_ne_nil _ _

end Session

end Scoresheet
