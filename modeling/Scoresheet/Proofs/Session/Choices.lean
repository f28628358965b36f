import Mathlib.Logic.ExistsUnique
import Scoresheet.Proofs.Board.Seating
import Scoresheet.Session.Dialogue
/-!
# What the menus offer

A pick goes through the two menus of a turn by the places of their options. On a seated board the
picks correspond one to one to the intents that the side to move is permitted: the pieces of the
first menu stand on different squares, and the squares of the second are those that the piece can go
to.
-/
namespace Scoresheet

/-- What is picked from the menus of a turn, by places counted from zero: a piece and one of its
squares, or a castle. -/
inductive Pick where
  | move (option square : Nat)
  | castle (option : Nat)
deriving DecidableEq, Repr

/-- The intent that a pick leads to, if the menus have such options. -/
def Game.picked? (g : Game) : Pick → Option Intent
  | .move option square =>
    match g.turnMenu.options[option]? with
    | some (.piece _ p) => (Dialogue.squareMenu g p).options[square]?.map (.move p.square)
    | _ => none
  | .castle option =>
    match g.turnMenu.options[option]? with
    | some (.castle side) => some (.castle side)
    | _ => none

private theorem existsUnique_place {α : Type} {xs : List α} (h : xs.Nodup) {x : α} (hx : x ∈ xs) :
    ∃! n : Nat, xs[n]? = some x := by
  obtain ⟨n, hn⟩ := List.mem_iff_getElem?.mp hx
  refine ⟨n, hn, ?_⟩
  intro m hm
  obtain ⟨hlt, _⟩ := List.getElem?_eq_some_iff.mp hn
  exact ((List.getElem?_inj hlt h).mp (hn.trans hm.symm)).symm

namespace Board

variable {b : Board} {c : Color}

private theorem Seated.nodup_movable (h : b.Seated) (c : Color) : (b.movable c).Nodup := by
  have hp : b.pieces.Nodup := by
    apply h.pairwise_pieces.imp
    rintro p q hpq rfl
    exact hpq.ne rfl
  exact hp.filter _

theorem Seated.mem_movable_iff (h : b.Seated) {p : Piece} :
    p ∈ b.movable c ↔ b.occupant p.square = some p ∧ p.color = c ∧ b.reach p true ≠ [] := by
  rw [movable, List.mem_filter, h.mem_pieces_iff]
  simp

private theorem nodup_castles (b : Board) (c : Color) : (b.castles c).Nodup := by
  have hs : CastleSide.all.Nodup := by decide
  exact hs.filter _

theorem mem_castles_iff {side : CastleSide} : side ∈ b.castles c ↔ b.Permits c (.castle side) := by
  rw [permits_castle_iff, castles, List.mem_filter]
  cases side <;> simp [CastleSide.all]

end Board

namespace Game

variable {g : Game}

theorem turnMenu_eq_piece_iff {n m : Nat} {p : Piece} :
    g.turnMenu.options[n]? = some (.piece m p) ↔
      m = n ∧ (g.board.movable g.turn)[n]? = some p := by
  change ((g.board.movable g.turn).mapIdx TurnOption.piece ++
    (g.board.castles g.turn).map TurnOption.castle)[n]? = _ ↔ _
  rw [List.getElem?_append]
  split
  · rw [List.getElem?_mapIdx]
    cases (g.board.movable g.turn)[n]? with
    | none => simp
    | some q => simp [eq_comm]
  · next hn =>
    rw [List.length_mapIdx, Nat.not_lt] at hn
    rw [List.getElem?_map, List.getElem?_eq_none hn]
    simp

theorem turnMenu_eq_castle_iff {n : Nat} {side : CastleSide} :
    g.turnMenu.options[n]? = some (.castle side) ↔
      ∃ m, n = (g.board.movable g.turn).length + m ∧ (g.board.castles g.turn)[m]? = some side := by
  change ((g.board.movable g.turn).mapIdx TurnOption.piece ++
    (g.board.castles g.turn).map TurnOption.castle)[n]? = _ ↔ _
  rw [List.getElem?_append, List.length_mapIdx]
  split
  · next hn =>
    rw [List.getElem?_mapIdx]
    constructor
    · cases (g.board.movable g.turn)[n]? <;> simp
    · rintro ⟨m, rfl, _⟩
      omega
  · next hn =>
    rw [List.getElem?_map]
    constructor
    · intro h
      obtain ⟨found, hf, he⟩ := Option.map_eq_some_iff.mp h
      rw [TurnOption.castle.inj he] at hf
      exact ⟨_, by omega, hf⟩
    · rintro ⟨m, rfl, hm⟩
      simp [hm]

private theorem picked?_eq_move_iff {k : Pick} {s t : Square} :
    g.picked? k = some (.move s t) ↔ ∃ n m p, k = .move n m ∧
      (g.board.movable g.turn)[n]? = some p ∧ p.square = s ∧
        (g.board.reach p true)[m]? = some t := by
  cases k with
  | castle n =>
    rw [picked?]
    split <;> simp
  | move n m =>
    rw [picked?]
    split
    · next _ p hp =>
      have hq := (turnMenu_eq_piece_iff.mp hp).2
      change (g.board.reach p true)[m]?.map (Intent.move p.square) = _ ↔ _
      constructor
      · intro h
        obtain ⟨u, hu, he⟩ := Option.map_eq_some_iff.mp h
        obtain ⟨hs, rfl⟩ := Intent.move.inj he
        exact ⟨n, m, p, rfl, hq, hs, hu⟩
      · rintro ⟨n', m', q, hk, hn, rfl, hm⟩
        obtain ⟨rfl, rfl⟩ := Pick.move.inj hk
        obtain rfl : p = q := Option.some.inj (hq.symm.trans hn)
        rw [hm]
        rfl
    · next hno =>
      constructor
      · simp
      · rintro ⟨n', m', q, hk, hn, _, _⟩
        obtain ⟨rfl, rfl⟩ := Pick.move.inj hk
        exact (hno _ _ (turnMenu_eq_piece_iff.mpr ⟨rfl, hn⟩)).elim

private theorem picked?_eq_castle_iff {k : Pick} {side : CastleSide} :
    g.picked? k = some (.castle side) ↔ ∃ m, k = .castle ((g.board.movable g.turn).length + m) ∧
      (g.board.castles g.turn)[m]? = some side := by
  cases k with
  | move n m =>
    rw [picked?]
    split <;> simp
  | castle n =>
    have hc : g.turnMenu.options[n]? = some (.castle side) ↔ _ := turnMenu_eq_castle_iff
    simp only [Pick.castle.injEq, ← hc]
    rw [picked?]
    split
    · next found hf => simp [hf]
    · next hno =>
      constructor
      · simp
      · intro h
        exact (hno _ h).elim

/-- A pick leads to a permitted intent. -/
theorem permits_of_picked? (h : g.board.Seated) {k : Pick} {i : Intent}
    (hk : g.picked? k = some i) : g.board.Permits g.turn i := by
  cases i with
  | move s t =>
    obtain ⟨n, m, p, rfl, hp, rfl, ht⟩ := picked?_eq_move_iff.mp hk
    obtain ⟨ho, hc, _⟩ := h.mem_movable_iff.mp (List.mem_of_getElem? hp)
    exact Board.permits_move_iff.mpr ⟨p, ho, hc, List.mem_of_getElem? ht⟩
  | castle side =>
    obtain ⟨m, rfl, hm⟩ := picked?_eq_castle_iff.mp hk
    exact Board.mem_castles_iff.mp (List.mem_of_getElem? hm)

/-- A permitted intent is led to by one pick. -/
theorem existsUnique_pick (h : g.board.Seated) {i : Intent} (hi : g.board.Permits g.turn i) :
    ∃! k, g.picked? k = some i := by
  cases i with
  | move s t =>
    obtain ⟨p, hp, hc, ht⟩ := Board.permits_move_iff.mp hi
    obtain rfl : p.square = s := h s p hp
    have hmov : p ∈ g.board.movable g.turn :=
      h.mem_movable_iff.mpr ⟨hp, hc, List.ne_nil_of_mem ht⟩
    obtain ⟨n, hn, hn'⟩ := existsUnique_place (h.nodup_movable g.turn) hmov
    obtain ⟨m, hm, hm'⟩ := existsUnique_place (g.board.nodup_reach p true) ht
    refine ⟨.move n m, picked?_eq_move_iff.mpr ⟨n, m, p, rfl, hn, rfl, hm⟩, ?_⟩
    intro k hk
    obtain ⟨n', m', q, rfl, hq, hs, ht'⟩ := picked?_eq_move_iff.mp hk
    -- one piece stands on a square, so the other pick is of the same piece
    have ho := (h.mem_movable_iff.mp (List.mem_of_getElem? hq)).1
    obtain rfl : p = q := Option.some.inj (hp.symm.trans (hs ▸ ho))
    rw [hn' n' hq, hm' m' ht']
  | castle side =>
    have hs := Board.mem_castles_iff.mpr hi
    obtain ⟨m, hm, hm'⟩ := existsUnique_place (g.board.nodup_castles g.turn) hs
    refine ⟨_, picked?_eq_castle_iff.mpr ⟨m, rfl, hm⟩, ?_⟩
    intro k hk
    obtain ⟨m', rfl, hk'⟩ := picked?_eq_castle_iff.mp hk
    rw [hm' m' hk']

/-- Both menus of a turn are empty exactly if the side to move is permitted nothing. -/
theorem menus_empty_iff (h : g.board.Seated) :
    g.board.movable g.turn = [] ∧ g.board.castles g.turn = [] ↔
      ∀ i, ¬ g.board.Permits g.turn i := by
  constructor
  · rintro ⟨hp, hc⟩ i hi
    cases i with
    | move s t =>
      obtain ⟨p, ho, hcol, ht⟩ := Board.permits_move_iff.mp hi
      have hs := h s p ho
      have hmem : p ∈ g.board.movable g.turn :=
        h.mem_movable_iff.mpr ⟨hs.symm ▸ ho, hcol, List.ne_nil_of_mem ht⟩
      simp [hp] at hmem
    | castle side =>
      have hmem := Board.mem_castles_iff.mpr hi
      simp [hc] at hmem
  · intro hno
    constructor
    · apply List.eq_nil_iff_forall_not_mem.mpr
      intro p hp
      obtain ⟨ho, hcol, hne⟩ := h.mem_movable_iff.mp hp
      obtain ⟨t, ht⟩ := List.exists_mem_of_ne_nil _ hne
      exact hno _ (Board.permits_move_iff.mpr ⟨p, ho, hcol, ht⟩)
    · apply List.eq_nil_iff_forall_not_mem.mpr
      intro side hs
      exact hno _ (Board.mem_castles_iff.mp hs)

theorem turnMenu_options_eq_nil_iff :
    g.turnMenu.options = [] ↔ g.board.movable g.turn = [] ∧ g.board.castles g.turn = [] := by
  change (g.board.movable g.turn).mapIdx TurnOption.piece ++
    (g.board.castles g.turn).map TurnOption.castle = [] ↔ _
  rw [List.append_eq_nil_iff, List.mapIdx_eq_nil_iff, List.map_eq_nil_iff]

/-- With pieces on the board, a turn ends the play as stuck exactly if its menus are empty. -/
theorem stuck_mem_beginTurn_iff (hb : g.board.isEmpty = false) :
    .log (.stuck g.turn) ∈ g.beginTurn.events ↔
      g.board.movable g.turn = [] ∧ g.board.castles g.turn = [] := by
  rw [← turnMenu_options_eq_nil_iff]
  unfold beginTurn
  cases ho : g.turnMenu.options with
  | nil => simp [hb]
  | cons o os => simp [hb, turnShown, castleNotes, Menu.shown]

/-- The menus of a turn lead to every permitted intent by exactly one pick, and to no other intent;
every piece with every square of its menu, and every castle, is such a pick. With pieces on the
board the menus are empty, and play ends as stuck, exactly if nothing is permitted. -/
theorem menus_offer_permitted_once (os : List Operation) (c : Color) (begun : Bool) :
    let g : Game := ⟨Board.empty.afterAll os, c, begun⟩
    (∀ n m p t, (g.board.movable c)[n]? = some p → (g.board.reach p true)[m]? = some t →
        g.picked? (.move n m) = some (.move p.square t)) ∧
      (∀ m side, (g.board.castles c)[m]? = some side →
        g.picked? (.castle ((g.board.movable c).length + m)) = some (.castle side)) ∧
      (∀ k i, g.picked? k = some i → g.board.Permits c i) ∧
      (∀ i, g.board.Permits c i → ∃! k, g.picked? k = some i) ∧
      (g.board.isEmpty = false →
        (g.board.movable c = [] ∧ g.board.castles c = [] ↔ ∀ i, ¬ g.board.Permits c i) ∧
        (.log (.stuck c) ∈ g.beginTurn.events ↔ ∀ i, ¬ g.board.Permits c i)) := by
  intro g
  have h : g.board.Seated := Board.seated_empty.afterAll os
  refine ⟨?_, ?_, ?_, ?_, ?_⟩
  · intro n m p t hp ht
    exact picked?_eq_move_iff.mpr ⟨n, m, p, rfl, hp, rfl, ht⟩
  · intro m side hs
    exact picked?_eq_castle_iff.mpr ⟨m, rfl, hs⟩
  · intro k i hk
    exact permits_of_picked? h hk
  · intro i hi
    exact existsUnique_pick h hi
  · intro hb
    exact ⟨menus_empty_iff h, (stuck_mem_beginTurn_iff hb).trans (menus_empty_iff h)⟩

/-- A king and a rook on their home squares: the castle is the third option of the first menu. -/
theorem castle_offered_to_king_and_rook :
    let g : Game := ⟨Board.empty.afterAll [.placeToken "Kle1", .placeToken "Rlh1"], .white, false⟩
    g.picked? (.castle 2) = some (.castle .king) ∧ g.board.Permits .white (.castle .king) ∧
      (∃! k, g.picked? k = some (.castle .king)) ∧ g.board.isEmpty = false ∧
      .log (.stuck .white) ∉ g.beginTurn.events := by
  intro g
  obtain ⟨_, hcastle, hsound, honce, hempty⟩ :=
    menus_offer_permitted_once [.placeToken "Kle1", .placeToken "Rlh1"] .white false
  have hpick : g.picked? (.castle 2) = some (.castle .king) := hcastle 0 .king (by decide +kernel)
  have hp : g.board.Permits .white (.castle .king) := hsound _ _ hpick
  have hb : g.board.isEmpty = false := by decide +kernel
  refine ⟨hpick, hp, honce _ hp, hb, ?_⟩
  intro hs
  exact (hempty hb).2.mp hs _ hp

end Game

end Scoresheet
