import Mathlib.Algebra.Order.Group.Multiset
import Scoresheet.Proofs.Board.Descent
/-!
# Material

The chessmen on a board, counted as often as they occur. A relocation takes away what stood on its
target and nothing else, so a capture costs the other side one chessman, and a castle that was
judged before it is executed costs nothing. Following the pieces back, each came from a piece of the
same color and kind.
-/
namespace Scoresheet

namespace Board

def material (b : Board) : Multiset Chessman := ↑(b.pieces.map fun p => p.toChessman)

def man (found : Option Piece) : Multiset Chessman :=
  ↑(found.toList.map fun p => p.toChessman)

private def materialElsewhere (b : Board) (s : Square) : Multiset Chessman :=
  ↑(((Square.all.erase s).filterMap b.occupant).map fun p => p.toChessman)

def captures (b : Board) (o : Operation) : Bool :=
  match b.played? o with
  | some (m, _) => m.capture
  | none => false

def captureCount (b : Board) : List Operation → Nat
  | [] => 0
  | o :: os => (b.captures o).toNat + (b.after o).captureCount os

/-- Whether an operation is one of play that executes no castle unless it is open. -/
def isJudged (b : Board) (o : Operation) : Bool :=
  !o.isPlacement && (b.castled? o).all fun (side, c) => b.canCastle side c

def isJudgedRun (b : Board) : List Operation → Bool
  | [] => true
  | o :: os => b.isJudged o && (b.after o).isJudgedRun os

variable {b next : Board} {o : Operation} {m : Movement} {c : Color} {side : CastleSide}
  {source target : Square} {p : Piece}

@[simp] theorem man_none : man none = 0 := rfl

@[simp] theorem man_some (p : Piece) : man (some p) = {p.toChessman} := rfl

private theorem material_eq (b : Board) (s : Square) :
    b.material = man (b.occupant s) + b.materialElsewhere s := by
  have hall : Square.all.Perm (s :: Square.all.erase s) := List.perm_cons_erase (Square.mem_all s)
  have hpieces : b.pieces.Perm
      ((b.occupant s).toList ++ (Square.all.erase s).filterMap b.occupant) := by
    have h := hall.filterMap b.occupant
    cases hs : b.occupant s <;> simpa [pieces, hs] using h
  rw [material, man, materialElsewhere, Multiset.coe_add, ← List.map_append]
  exact Multiset.coe_eq_coe.mpr (hpieces.map _)

private theorem materialElsewhere_put (b : Board) (s : Square) (found : Option Piece) :
    (b.put s found).materialElsewhere s = b.materialElsewhere s := by
  have hnodup : Square.all.Nodup := by
    apply Square.pairwise_all.imp
    rintro s t h rfl
    exact Nat.lt_irrefl _ h
  rw [materialElsewhere, materialElsewhere]
  congr 2
  apply List.filterMap_congr
  intro t ht
  have hne : t ≠ s := by
    rintro rfl
    exact hnodup.not_mem_erase ht
  exact occupant_put_of_ne hne b found

private theorem material_relocate (hp : b.occupant source = some p) (hne : source ≠ target) :
    b.material = man (b.occupant target) + (b.relocate source target).material := by
  -- first the source is left, and then the target is overwritten
  let left := b.put source none
  have hleft : b.material = {p.toChessman} + left.material := by
    rw [material_eq b source, material_eq left source, hp, occupant_put_self,
      materialElsewhere_put, man_some, man_none, zero_add]
  have htarget : left.occupant target = b.occupant target := occupant_put_of_ne hne.symm b none
  have harrived : (b.relocate source target).material =
      {p.toChessman} + left.materialElsewhere target := by
    have heq : b.relocate source target = left.put target (some (p.movedTo target)) := by
      simp [relocate, hp, left]
    rw [heq, material_eq _ target, occupant_put_self, materialElsewhere_put]
    rfl
  rw [hleft, material_eq left target, htarget, harrived]
  exact add_left_comm _ _ _

private theorem material_relocate_of_vacant (hp : b.occupant source = some p)
    (hne : source ≠ target)
    (ht : b.occupant target = none) : (b.relocate source target).material = b.material := by
  rw [material_relocate hp hne, ht, man_none, zero_add]

theorem material_castle (h : b.canCastle side c = true) :
    (b.castle side c).material = b.material := by
  obtain ⟨king, rook, hk, hr, _, _, hpath⟩ := canCastle_iff.mp h
  have hready : b.castleReady side c = true := castleReady_iff.mpr ⟨king, rook, hk, hr⟩
  have hking : b.occupant (c.kingCastled side) = none := hpath _ (c.kingCastled_mem_castlePath side)
  have hrook : b.occupant (c.rookCastled side) = none := hpath _ (c.rookCastled_mem_castlePath side)
  -- the king arrives on a square of the vacant path, and the rook as well once the king has gone
  let mid := b.relocate c.kingHome (c.kingCastled side)
  have hr' : mid.occupant (c.rookHome side) = some rook := (occupant_rookHome_relocate hk).trans hr
  have hrook' : mid.occupant (c.rookCastled side) = none := by
    rw [occupant_relocate hk, if_neg (c.rookCastled_ne_kingCastled side),
      if_neg (c.rookCastled_ne_kingHome side), hrook]
  calc (b.castle side c).material
    _ = (mid.relocate (c.rookHome side) (c.rookCastled side)).material := by
      rw [castle_of_castleReady hready]
    _ = mid.material :=
      material_relocate_of_vacant hr' (c.rookCastled_ne_rookHome side).symm hrook'
    _ = b.material := material_relocate_of_vacant hk (c.kingCastled_ne_kingHome side).symm hking

/-- What an operation does to the material: a capture by a side takes one chessman of the other,
and anything else takes nothing. -/
structure Conserves (b : Board) (o : Operation) : Prop where
  capture : ∀ m c, b.played? o = some (m, c) → m.capture = true →
    ∃ man, man.color = c.opposite ∧ b.material = man ::ₘ (b.after o).material
  otherwise : b.captures o = false → (b.after o).material = b.material

private theorem isPlacement_eq_false_of_isJudged (h : b.isJudged o = true) :
    o.isPlacement = false := by
  obtain ⟨ho, _⟩ := Bool.and_eq_true_iff.mp h
  exact Bool.not_eq_true' _ ▸ ho

private theorem conserves_of_isJudged (h : b.isJudged o = true) : b.Conserves o := by
  obtain ⟨_, hcastle⟩ := Bool.and_eq_true_iff.mp h
  have he := effect_after (b := b) (isPlacement_eq_false_of_isJudged h)
  generalize hnext : b.after o = next at he
  cases he with
  | idle hp hc =>
    refine ⟨?_, ?_⟩
    · intro m c hm
      rw [hp] at hm
      cases hm
    · intro _
      rw [hnext]
  | moved m c hp hc hr =>
    obtain ⟨p, hsource, hne, hcapture, htarget⟩ := squares_of_accepted hr
    refine ⟨?_, ?_⟩
    · intro m' c' hm htakes
      obtain ⟨rfl, rfl⟩ : m = m' ∧ c = c' := by simpa [hp] using hm
      obtain ⟨q, hq⟩ := Option.isSome_iff_exists.mp (hcapture.trans htakes)
      refine ⟨q.toChessman, htarget q hq, ?_⟩
      rw [hnext, material_relocate hsource hne, hq]
      rfl
    · intro hno
      have hquiet : m.capture = false := by simpa [captures, hp] using hno
      have hvacant : b.occupant m.target = none := by
        rw [← Option.not_isSome_iff_eq_none, hcapture, hquiet]
        exact Bool.false_ne_true
      rw [hnext, material_relocate_of_vacant hsource hne hvacant]
  | castled side c hp hc hr =>
    have hopen : b.canCastle side c = true := by simpa [hc] using hcastle
    refine ⟨?_, ?_⟩
    · intro m c' hm
      rw [hp] at hm
      cases hm
    · intro _
      rw [hnext, material_castle hopen]

private theorem color?_of_played? (h : b.played? o = some (m, c)) : o.color? = some c := by
  have hm : b.movementOf? o = some (m, c) := (Option.filter_eq_some_iff.mp h).1
  cases o with
  | move m' c' =>
    obtain ⟨_, rfl⟩ : m' = m ∧ c' = c := by simpa [movementOf?] using hm
    rfl
  | moveToken token c' =>
    obtain ⟨m', _, he⟩ := Option.map_eq_some_iff.mp hm
    rw [← (Prod.mk.inj he).2]
    rfl
  | intend i c' =>
    cases i with
    | castle side => cases hm
    | move source target =>
      obtain ⟨m', _, he⟩ := Option.map_eq_some_iff.mp hm
      rw [← (Prod.mk.inj he).2]
      rfl
  | _ => cases hm

private theorem captures_iff :
    b.captures o = true ↔ ∃ m c, b.played? o = some (m, c) ∧ m.capture = true := by
  unfold captures
  rcases b.played? o with _ | ⟨m, c⟩
  · simp
  · simp

private theorem Conserves.own (h : b.Conserves o) (hc : o.color? = some c) :
    (b.after o).material.filter (fun man => man.color = c) =
      b.material.filter fun man => man.color = c := by
  cases hcap : b.captures o with
  | false => rw [h.otherwise hcap]
  | true =>
    obtain ⟨m, c', hp, hm⟩ := captures_iff.mp hcap
    obtain rfl : c' = c := Option.some.inj ((color?_of_played? hp).symm.trans hc)
    obtain ⟨man, hman, hlost⟩ := h.capture m c' hp hm
    have hother : man.color ≠ c' := by
      rw [hman]
      exact c'.opposite_ne
    have hdrop : (man ::ₘ (b.after o).material).filter (fun man => man.color = c') =
        (b.after o).material.filter fun man => man.color = c' :=
      Multiset.filter_cons_of_neg (b.after o).material hother
    rw [hlost, hdrop]

theorem card_material (b : Board) : b.material.card = b.count := by
  simp [material, count]

theorem Conserves.count (h : b.Conserves o) :
    (b.after o).count + (b.captures o).toNat = b.count := by
  rw [← card_material, ← card_material]
  cases hcap : b.captures o with
  | false => simp [h.otherwise hcap]
  | true =>
    obtain ⟨m, c, hp, hm⟩ := captures_iff.mp hcap
    obtain ⟨man, _, hlost⟩ := h.capture m c hp hm
    rw [hlost, Multiset.card_cons]
    rfl

private theorem isJudged_of_isJudgedRun {first rest : List Operation}
    (h : b.isJudgedRun (first ++ o :: rest) = true) : (b.afterAll first).isJudged o = true := by
  induction first generalizing b with
  | nil => exact (Bool.and_eq_true_iff.mp h).1
  | cons o' first ih => exact ih (Bool.and_eq_true_iff.mp h).2

private theorem isPlacement_eq_false_of_isJudgedRun {run : List Operation}
    (h : b.isJudgedRun run = true) :
    ∀ o ∈ run, o.isPlacement = false := by
  intro o ho
  obtain ⟨first, rest, rfl⟩ := List.append_of_mem ho
  exact isPlacement_eq_false_of_isJudged (isJudged_of_isJudgedRun h)

/-- The pieces that are missing at the end of a judged run are those that were captured. -/
theorem count_afterAll {run : List Operation} (h : b.isJudgedRun run = true) :
    (b.afterAll run).count + b.captureCount run = b.count := by
  induction run generalizing b with
  | nil => rfl
  | cons o run ih =>
    obtain ⟨ho, hrun⟩ := Bool.and_eq_true_iff.mp h
    have hone := (conserves_of_isJudged ho).count
    have hrest := ih hrun
    rw [afterAll_cons, captureCount]
    omega

theorem isEmpty_eq_false_iff : b.isEmpty = false ↔ ∃ s p, b.occupant s = some p := by
  rw [isEmpty, List.isEmpty_eq_false_iff_exists_mem]
  simp only [mem_pieces_iff]
  exact exists_comm

private theorem isEmpty_relocate (h : b.isEmpty = false) :
    (b.relocate source target).isEmpty = false := by
  cases hp : b.occupant source with
  | none => rwa [relocate_of_vacant hp]
  | some p =>
    apply isEmpty_eq_false_iff.mpr
    refine ⟨target, p.movedTo target, ?_⟩
    rw [occupant_relocate hp, if_pos rfl]

private theorem isEmpty_of_effect (he : b.Effect o next) (h : b.isEmpty = false) :
    next.isEmpty = false := by
  cases he with
  | idle hp hc => exact h
  | moved m c hp hc hr => exact isEmpty_relocate h
  | castled side c hp hc hr =>
    rw [castle_of_castleReady hr]
    exact isEmpty_relocate (isEmpty_relocate h)

private theorem isEmpty_afterAll {run : List Operation} (hrun : ∀ o ∈ run, o.isPlacement = false)
    (h : b.isEmpty = false) : (b.afterAll run).isEmpty = false :=
  afterAll_of_effect (fun _ _ _ => isEmpty_of_effect) hrun h

/-- Material is conserved along every run without placements that executes a castle only when it is
open. A capture takes one chessman of the other side, and every other operation, accepted or not,
takes nothing; so no side loses a chessman by its own operations, and the count goes down by the
captures. The pieces left at any time are different pieces of the start with their colors and kinds,
and a board with pieces keeps some. -/
theorem material_conserved (b : Board) (run : List Operation) (h : b.isJudgedRun run = true) :
    (∀ first o rest, run = first ++ o :: rest →
      let before := b.afterAll first
      (∀ m c, before.played? o = some (m, c) → m.capture = true →
        ∃ man, man.color = c.opposite ∧ before.material = man ::ₘ (before.after o).material) ∧
      ((∀ m c, before.played? o = some (m, c) → m.capture = false) →
        (before.after o).material = before.material) ∧
      ∀ c, o.color? = some c →
        (before.after o).material.filter (fun man => man.color = c) =
          before.material.filter fun man => man.color = c) ∧
    (b.afterAll run).count + b.captureCount run = b.count ∧
    ∀ first rest, run = first ++ rest →
      Descends (b.originAll first) b (b.afterAll first) ∧
      (b.isEmpty = false → (b.afterAll first).isEmpty = false) := by
  have hplays := isPlacement_eq_false_of_isJudgedRun h
  refine ⟨?_, count_afterAll h, ?_⟩
  · rintro first o rest rfl before
    have hone : before.Conserves o := conserves_of_isJudged (isJudged_of_isJudgedRun h)
    refine ⟨hone.capture, ?_, ?_⟩
    · intro hquiet
      apply hone.otherwise
      rw [← Bool.not_eq_true, captures_iff]
      rintro ⟨m, c, hp, hm⟩
      simp [hquiet m c hp] at hm
    · intro c hc
      exact hone.own hc
  · rintro first rest rfl
    have hfirst : ∀ o ∈ first, o.isPlacement = false := fun o hmem => hplays o (by simp [hmem])
    exact ⟨descends_afterAll hfirst, isEmpty_afterAll hfirst⟩

/-- A castle, a refused movement and a capture cost one piece of four. -/
theorem capture_after_castle_costs_one :
    let b := empty.afterAll
      [.placeToken "Kle1", .placeToken "Rlh1", .placeToken "pdf7", .placeToken "kdd8"]
    let run : List Operation := [.castleToken "O-O" .white, .moveToken "Rf1-f7" .white,
      .intend (.move ⟨0, 5⟩ ⟨6, 5⟩) .white]
    b.isJudgedRun run = true ∧ b.captureCount run = 1 ∧ b.count = 4 ∧ (b.afterAll run).count = 3 ∧
      (b.afterAll run).isEmpty = false := by
  intro b run
  have h : b.isJudgedRun run = true := by decide +kernel
  have hone : b.captureCount run = 1 := by decide +kernel
  have hfour : b.count = 4 := by decide +kernel
  obtain ⟨_, hcount, hend⟩ := material_conserved b run h
  have hsome : b.isEmpty = false := by decide +kernel
  refine ⟨h, hone, hfour, by omega, ?_⟩
  exact (hend run [] (List.append_nil run).symm).2 hsome

end Board

end Scoresheet
