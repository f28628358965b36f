import Scoresheet.Proofs.Session.StepEvents
import Scoresheet.Proofs.Session.Unreadable
import Scoresheet.Proofs.Token.Shapes
/-!
# Tokens that are always read

Placements and castles are recognised by their shape and read by their characters, and the two agree
whatever stands around the token. So none of them is ever answered as unreadable: when a line is
carried out, or a setup file, only a movement is.
-/
namespace Scoresheet

open Directive (isCastle isPlacement)

section Reading

variable {token : String} {side : CastleSide}

private theorem toList_trimmed (token : String) : (Game.trimmed token).toList = Token.chars token :=
  String.toList_ofList

private theorem CastleSide.toList_token_inj {other : CastleSide} :
    side.token.toList = other.token.toList ↔ side = other := by
  cases side <;> cases other <;> decide

theorem CastleSide.ofToken_eq_ok_iff :
    ofToken token = .ok side ↔ Game.trimmed token = side.token := by
  rw [← String.toList_inj, toList_trimmed, ofToken]
  split
  · next hking => rw [hking, toList_token_inj, Except.ok.injEq]
  · next hking =>
    split
    · next hqueen => rw [hqueen, toList_token_inj, Except.ok.injEq]
    · next hqueen => cases side <;> simp [hking, hqueen]

private theorem exists_ofToken_iff_isCastle :
    (∃ side, CastleSide.ofToken token = .ok side) ↔ isCastle (Game.trimmed token) = true := by
  simp only [CastleSide.ofToken_eq_ok_iff, Directive.isCastle_iff]

private theorem exists_ofToken_iff_isPlacement :
    (∃ p, Placement.ofToken token = .ok p) ↔ isPlacement (Game.trimmed token) = true := by
  rw [Placement.exists_ofToken_iff, isPlacement, toList_trimmed]

end Reading

namespace Game

variable {g : Game} {line t token : String} {e : TokenError}

private theorem unreadable_not_mem_place (h : isPlacement token = true) :
    .log (.unreadable t e) ∉ g.place token := by
  obtain ⟨p, hp⟩ := Directive.exists_placement h
  simp [place, hp]

private theorem unreadable_not_mem_setUp (g : Game) (lines : List String) :
    .log (.unreadable t e) ∉ g.setUp lines := by
  intro he
  have hlines : .log (.unreadable t e) ∈ g.setUpLines lines := by simpa [setUp] using he
  obtain ⟨before, line, -, hline⟩ := exists_of_mem_setUpLines hlines
  unfold setUpLine at hline
  cases hd : Directive.ofLine line with
  | placement token =>
    rw [hd] at hline
    exact unreadable_not_mem_place (Directive.isPlacement_of_ofLine hd) hline
  | _ => simp [hd] at hline

private theorem movement_of_unreadable_mem_playAction
    (he : .log (.unreadable t e) ∈ g.playAction token) :
    t = token ∧ isCastle token = false ∧ Movement.ofToken token = .error e := by
  unfold playAction at he
  cases hc : isCastle token with
  | true =>
    obtain ⟨side, rfl⟩ := Directive.isCastle_iff.mp hc
    simp [hc, unreadable_not_mem_playCastle side] at he
  | false =>
    have hmovement : t = token ∧ Movement.ofToken token = .error e := by
      simpa [hc, unreadable_mem_playMovement_iff] using he
    exact ⟨hmovement.1, rfl, hmovement.2⟩

private theorem movement_of_unreadable_mem_playLine
    (he : .log (.unreadable t e) ∈ g.playLine line) :
    (isCastle t = false ∧ isPlacement t = false) ∧ Movement.ofToken t = .error e := by
  cases eventOf_of_mem_playLine he with
  | placement h before hmem =>
    exact (unreadable_not_mem_place (Directive.isPlacement_of_ofLine h) hmem).elim
  | action h ht before hmem =>
    obtain ⟨rfl, hcastle, herror⟩ := movement_of_unreadable_mem_playAction hmem
    have haction := (Directive.actions?_ofLine h t ht).2
    exact ⟨⟨hcastle, Directive.isPlacement_of_isAction haction⟩, herror⟩

end Game

/-- A token is read as a placement, or as a castle, exactly if it has the shape of one without the
blanks around it, and it is the one that it spells. A line asks for a placement, or for a castle,
only if its token is read. So when a setup file is carried out no token is answered as unreadable,
and when a line is carried out none but that of a movement. -/
theorem recognised_tokens_always_read (token : String) :
    ((∃ p, Placement.ofToken token = .ok p) ↔ isPlacement (Game.trimmed token) = true) ∧
    (∀ p, Placement.ofToken token = .ok p ↔ ∃ letter marker file rank,
      (Game.trimmed token).toList = [letter, marker, file, rank] ∧
        p.SpelledBy letter marker file rank) ∧
    ((∃ side, CastleSide.ofToken token = .ok side) ↔ isCastle (Game.trimmed token) = true) ∧
    (CastleSide.ofToken token = .ok .king ↔ Game.trimmed token = "O-O") ∧
    (CastleSide.ofToken token = .ok .queen ↔ Game.trimmed token = "O-O-O") ∧
    (∀ line, Directive.ofLine line = .placement token →
      (∃ p, Placement.ofToken token = .ok p) ∧
        ∀ (g : Game) t e, .log (.unreadable t e) ∉ g.place token) ∧
    (∀ line tokens, (Directive.ofLine line).actions? = some tokens → token ∈ tokens →
      isCastle token = true → (∃ side, CastleSide.ofToken token = .ok side) ∧
        ∀ (g : Game) t e, .log (.unreadable t e) ∉ g.playCastle token) ∧
    (∀ (g : Game) lines e, .log (.unreadable token e) ∉ g.setUp lines) ∧
    ∀ (g : Game) line e, .log (.unreadable token e) ∈ g.playLine line →
      (isCastle token = false ∧ isPlacement token = false) ∧ Movement.ofToken token = .error e := by
  refine ⟨exists_ofToken_iff_isPlacement, ?_, exists_ofToken_iff_isCastle,
    CastleSide.ofToken_eq_ok_iff, CastleSide.ofToken_eq_ok_iff, ?_, ?_, ?_, ?_⟩
  · intro p
    rw [Placement.ofToken_eq_ok_iff, toList_trimmed]
  · intro line hline
    have hshape := Directive.isPlacement_of_ofLine hline
    exact ⟨Directive.exists_placement hshape, fun g t e => Game.unreadable_not_mem_place hshape⟩
  · intro line tokens _ _ hcastle
    obtain ⟨side, rfl⟩ := Directive.isCastle_iff.mp hcastle
    exact ⟨⟨side, CastleSide.ofToken_token side⟩,
      fun g t e => Game.unreadable_not_mem_playCastle side⟩
  · intro g lines e
    exact g.unreadable_not_mem_setUp lines
  · intro g line e he
    exact Game.movement_of_unreadable_mem_playLine he

/-- A placement and a castle among blanks outside ASCII, both in lines with other things on them,
and the movement that is answered as unreadable. -/
theorem padded_queen_and_castle_read :
    Placement.ofToken "\u3000qDH8\n" = .ok ⟨⟨.black, .queen⟩, ⟨7, 7⟩⟩ ∧
      CastleSide.ofToken "\u00A0O-O-O" = .ok .queen ∧
      (∃ p, Placement.ofToken "qDH8" = .ok p) ∧ (∃ side, CastleSide.ofToken "O-O" = .ok side) ∧
      Movement.ofToken "B1-C3" = .error (.noFile "B1-C3" 1) := by
  obtain ⟨-, hqueen, -⟩ := recognised_tokens_always_read "\u3000qDH8\n"
  obtain ⟨-, -, -, -, hcastle, -⟩ := recognised_tokens_always_read "\u00A0O-O-O"
  obtain ⟨-, -, -, -, -, hplaced, -⟩ := recognised_tokens_always_read "qDH8"
  obtain ⟨-, -, -, -, -, -, hcastled, -⟩ := recognised_tokens_always_read "O-O"
  obtain ⟨-, -, -, -, -, -, -, -, hmoved⟩ := recognised_tokens_always_read "B1-C3"
  refine ⟨(hqueen _).mpr ⟨'q', 'D', 'H', '8', by decide +kernel, ?_⟩,
    hcastle.mpr (by decide +kernel),
    (hplaced "  qDH8 // black" (by decide +kernel)).1,
    (hcastled "e2-e4 O-O" ["e2-e4", "O-O"] (by decide +kernel) (by decide) (by decide)).1,
    (hmoved Game.fresh "B1-C3" _ (by decide +kernel)).2⟩
  exact ⟨.inr (by decide), .inr rfl, by decide +kernel⟩

end Scoresheet
