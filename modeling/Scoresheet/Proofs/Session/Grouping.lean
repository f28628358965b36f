import Scoresheet.Proofs.Session.Sequences
import Scoresheet.Proofs.Token.Shapes
/-!
# Actions grouped into lines

A line with two actions does what two lines with one action each do: the game after the first action
is the one in which the second is played, and neither the blanks of a line nor its class have any
part in it. So actions can be grouped into lines in any way.
-/
namespace Scoresheet

open Directive (isAction isPlacement ofLine)
open Text (AllBlank)

/-- The ways to write tokens in lines of one or two, with blanks around and between them. -/
inductive Grouped : List String → List String → Prop where
  | nil : Grouped [] []
  | single {token before behind : String} {tokens lines : List String}
    (hbefore : AllBlank before.toList) (hbehind : AllBlank behind.toList)
    (rest : Grouped tokens lines) :
    Grouped (token :: tokens) ((before ++ token ++ behind) :: lines)
  | pair {first second before between behind : String} {tokens lines : List String}
    (hbefore : AllBlank before.toList) (hbetween : AllBlank between.toList) (hne : between ≠ "")
    (hbehind : AllBlank behind.toList) (rest : Grouped tokens lines) :
    Grouped (first :: second :: tokens)
      ((before ++ first ++ between ++ second ++ behind) :: lines)

variable {line : String} {tokens lines : List String}

private theorem Grouped.alone (tokens : List String) : Grouped tokens tokens := by
  have hblank : AllBlank "".toList := by simp [AllBlank]
  induction tokens with
  | nil => exact .nil
  | cons token tokens ih =>
    have hline : Grouped (token :: tokens) (("" ++ token ++ "") :: tokens) :=
      .single hblank hblank ih
    rwa [String.empty_append, String.append_empty] at hline

namespace Game

private theorem playActions_append (g : Game) (tokens others : List String) :
    g.playActions (tokens ++ others) =
      g.playActions tokens ++ (g.after (g.playActions tokens)).playActions others := by
  induction tokens generalizing g with
  | nil => rfl
  | cons token tokens ih =>
    rw [List.cons_append, playActions, ih, playActions, after_append, List.append_assoc]

private theorem playLine_of_actions? (h : (ofLine line).actions? = some tokens) (g : Game) :
    g.playLine line = g.playActions tokens := by
  unfold playLine
  cases hd : ofLine line with
  | movements found =>
    rw [hd] at h
    rw [Option.some.inj h]
  | castles found =>
    rw [hd] at h
    rw [Option.some.inj h]
  | _ =>
    rw [hd] at h
    cases h

/-- Lines that ask for actions come to all of these in order. -/
theorem playAll_of_actions? {cuts : List (List String)}
    (h : lines.map (fun line => (ofLine line).actions?) = cuts.map some) (g : Game) :
    g.playAll lines = g.playActions cuts.flatten := by
  induction lines generalizing g cuts with
  | nil =>
    rw [List.map_eq_nil_iff.mp h.symm]
    rfl
  | cons line lines ih =>
    obtain ⟨cut, rest, rfl, hcut, hrest⟩ := List.map_eq_cons_iff.mp h.symm
    rw [playAll, playLine_of_actions? hcut.symm, ih hrest.symm, List.flatten_cons,
      playActions_append]

end Game

private theorem Grouped.exists_cuts (h : Grouped tokens lines)
    (hall : ∀ token ∈ tokens, isAction token = true) : ∃ cuts : List (List String),
      cuts.flatten = tokens ∧ lines.map (fun line => (ofLine line).actions?) = cuts.map some := by
  induction h with
  | nil => exact ⟨[], rfl, rfl⟩
  | @single token _ _ _ _ hbefore hbehind _ ih =>
    obtain ⟨htoken, hrest⟩ := List.forall_mem_cons.mp hall
    obtain ⟨cuts, rfl, hlines⟩ := ih hrest
    refine ⟨[token] :: cuts, rfl, ?_⟩
    rw [List.map_cons, hlines, Directive.actions?_single hbefore hbehind htoken, List.map_cons]
  | @pair first second _ _ _ _ _ hbefore hbetween hne hbehind _ ih =>
    obtain ⟨hfirst, hall⟩ := List.forall_mem_cons.mp hall
    obtain ⟨hsecond, hrest⟩ := List.forall_mem_cons.mp hall
    obtain ⟨cuts, rfl, hlines⟩ := ih hrest
    refine ⟨[first, second] :: cuts, rfl, ?_⟩
    rw [List.map_cons, hlines, Directive.actions?_pair hbefore hbetween hne hbehind hfirst hsecond,
      List.map_cons]

namespace Session

private theorem playLines_of_grouped (h : Grouped tokens lines)
    (hall : ∀ token ∈ tokens, isAction token = true) (s : Session) :
    s.playLines lines = s.perform (s.game.playActions tokens) := by
  obtain ⟨cuts, rfl, hlines⟩ := h.exists_cuts hall
  rw [playLines_eq, Game.playAll_of_actions? hlines]

private theorem perform_playLine_of_actions? (h : (ofLine line).actions? = some tokens)
    (s : Session) :
    s.perform (s.game.playLine line) = s.playLines tokens := by
  have hall : ∀ token ∈ tokens, isAction token = true := fun token ht =>
    (Directive.actions?_ofLine h token ht).2
  rw [playLines_of_grouped (.alone tokens) hall, Game.playLine_of_actions? h]

/-- Actions do the same in whatever lines of one or two they come, with whatever blanks: all that a
session holds is the same as when each is a line of its own. A line of actions does what its tokens
do one by one, be it called a line of movements or of castles. No action is taken for a placement,
neither as a token nor in its line. -/
theorem actions_grouped_alike (hall : ∀ token ∈ tokens, isAction token = true)
    (hlines : Grouped tokens lines) (s : Session) :
    s.playLines lines = s.playLines tokens ∧
      (s.log.room = none → (s.playLines lines).2 = none) ∧
      (∀ line found, ofLine line = .movements found ∨ ofLine line = .castles found →
        s.perform (s.game.playLine line) = s.playLines found) ∧
      (∀ token ∈ tokens, isPlacement token = false) ∧
      ∀ line ∈ lines, ∀ token, ofLine line ≠ .placement token := by
  refine ⟨?_, fun hroom => fault_playLines hroom lines, ?_, ?_, ?_⟩
  · rw [playLines_of_grouped hlines hall, playLines_of_grouped (.alone tokens) hall]
  · intro line found hline
    apply perform_playLine_of_actions?
    rcases hline with hline | hline <;> rw [hline] <;> rfl
  · intro token ht
    exact Directive.isPlacement_of_isAction (hall token ht)
  · intro line hline token hplacement
    obtain ⟨cuts, _, hcuts⟩ := hlines.exists_cuts hall
    have hin : (ofLine line).actions? ∈ cuts.map some := by
      rw [← hcuts]
      exact List.mem_map_of_mem hline
    obtain ⟨cut, _, hcut⟩ := List.mem_map.mp hin
    rw [hplacement] at hcut
    cases hcut

/-- A move and a castle on one line, with a no-break space between them. -/
theorem castle_grouped_with_move :
    let tokens := ["h2-h4", "e7-e5", "O-O"]
    let lines := ["\u3000h2-h4\t", " e7-e5\u00a0O-O"]
    let s : Session := { fresh none with game := ⟨Board.empty.afterAll [.placeToken "Kle1",
      .placeToken "Rlh1", .placeToken "Plh2", .placeToken "Pde7"], .white, false⟩ }
    ((∀ token ∈ tokens, isAction token = true) ∧ Grouped tokens lines) ∧
      s.playLines lines = s.playLines tokens ∧
      ofLine " e7-e5\u00a0O-O" = .castles ["e7-e5", "O-O"] ∧
      ((s.playLines tokens).1.game.board.occupant ⟨0, 6⟩).isSome = true := by
  intro tokens lines s
  have hall : ∀ token ∈ tokens, isAction token = true := by decide
  have hpair : Grouped ["e7-e5", "O-O"] [" " ++ "e7-e5" ++ "\u00a0" ++ "O-O" ++ ""] :=
    .pair (by decide) (by decide) (by decide) (by decide) .nil
  have hlines : Grouped tokens ["\u3000" ++ "h2-h4" ++ "\t", " e7-e5\u00a0O-O"] :=
    .single (by decide) (by decide) hpair
  obtain ⟨hsame, _⟩ := actions_grouped_alike hall hlines s
  exact ⟨⟨hall, hlines⟩, hsame, by decide +kernel, by decide +kernel⟩

end Session

end Scoresheet
