import Scoresheet.Proofs.Board.Castling
import Scoresheet.Proofs.Board.Operation
/-!
# What play does

An operation that places nothing has one of three effects: it plays a movement, or it moves the two
pieces of a castle, or it leaves the board as it is. Movements are judged before they are played;
a castle may be executed unjudged, and then moves whatever stands on the two home squares.
-/
namespace Scoresheet

theorem Color.opposite_ne (c : Color) : c.opposite ≠ c := by cases c <;> decide

private theorem Color.eq_opposite_of_ne {a c : Color} (h : a ≠ c) : a = c.opposite := by
  cases a <;> cases c <;> first | rfl | exact absurd rfl h

theorem Color.ne_iff_eq_opposite {a c : Color} : a ≠ c ↔ a = c.opposite :=
  ⟨Color.eq_opposite_of_ne, fun h => h ▸ c.opposite_ne⟩

namespace Operation

def isPlacement : Operation → Bool
  | .place _ => true
  | .placeToken _ => true
  | _ => false

/-- The side for which an operation is made. A placement is made for neither. -/
def color? : Operation → Option Color
  | .place _ => none
  | .placeToken _ => none
  | .move _ c => some c
  | .moveToken _ c => some c
  | .intend _ c => some c
  | .castle _ c => some c
  | .castleToken _ c => some c

def castle? : Operation → Option (CastleSide × Color)
  | .intend (.castle side) c => some (side, c)
  | .castle side c => some (side, c)
  | .castleToken token c => (CastleSide.ofToken token).toOption.map fun side => (side, c)
  | _ => none

end Operation

namespace Board

/-- The movement that an operation asks for; a pair of squares asks for the one that the board
calls for. -/
def movementOf? (b : Board) : Operation → Option (Movement × Color)
  | .move m c => some (m, c)
  | .moveToken token c => (Movement.ofToken token).toOption.map fun m => (m, c)
  | .intend (.move source target) c => (b.movement? source target).map fun m => (m, c)
  | _ => none

def played? (b : Board) (o : Operation) : Option (Movement × Color) :=
  (b.movementOf? o).filter fun (m, c) => (b.refusal? m c).isNone

def castled? (b : Board) (o : Operation) : Option (CastleSide × Color) :=
  if b.after o = b then none else o.castle?

/-- The effects that an operation of play can have on a board. -/
inductive Effect (b : Board) (o : Operation) : Board → Prop where
  | idle (hp : b.played? o = none) (hc : b.castled? o = none) : b.Effect o b
  | moved (m : Movement) (c : Color) (hp : b.played? o = some (m, c)) (hc : b.castled? o = none)
      (hr : b.refusal? m c = none) : b.Effect o (b.relocate m.source m.target)
  | castled (side : CastleSide) (c : Color) (hp : b.played? o = none)
      (hc : b.castled? o = some (side, c)) (hr : b.castleReady side c = true) :
      b.Effect o (b.castle side c)

variable {b : Board} {o : Operation} {m : Movement} {side : CastleSide} {c : Color}

theorem afterAll_append (b : Board) (os ps : List Operation) :
    b.afterAll (os ++ ps) = (b.afterAll os).afterAll ps := by
  simp only [afterAll, List.foldl_append]

theorem squares_of_accepted (hr : b.refusal? m c = none) :
    ∃ p, b.occupant m.source = some p ∧ m.source ≠ m.target ∧
      (b.occupant m.target).isSome = m.capture ∧
      ∀ q, b.occupant m.target = some q → q.color = c.opposite := by
  obtain ⟨p, hp, hc, _, hcapture, hadmits, _⟩ := refusal?_eq_none_iff.mp hr
  have htarget := admits_iff.mp hadmits
  refine ⟨p, hp, ?_, hcapture, ?_⟩
  · intro h
    exact htarget p (h ▸ hp) hc
  · intro q hq
    exact Color.eq_opposite_of_ne (htarget q hq)

private theorem after_of_move (h : b.movementOf? o = some (m, c)) :
    b.after o = if (b.refusal? m c).isNone then b.relocate m.source m.target else b := by
  -- the three ways to ask for a movement are one way with the movement given
  have hm : b.after (.move m c) =
      if (b.refusal? m c).isNone then b.relocate m.source m.target else b := by
    simp only [after, attempt, move]
    cases b.refusal? m c <;> rfl
  rw [← hm]
  cases o with
  | move m' c' =>
    simp only [movementOf?, Option.some.injEq, Prod.mk.injEq] at h
    rw [h.1, h.2]
  | moveToken token c' =>
    cases ht : Movement.ofToken token with
    | error e => simp [movementOf?, ht, Except.toOption] at h
    | ok m' =>
      simp only [movementOf?, ht, Except.toOption, Option.map_some, Option.some.injEq,
        Prod.mk.injEq] at h
      simp only [after, attempt, ht, h.1, h.2]
      rfl
  | intend i c' =>
    cases i with
    | castle side => cases h
    | move source target =>
      obtain ⟨m', hm', he⟩ := Option.map_eq_some_iff.mp h
      simp only [Prod.mk.injEq] at he
      simp only [after, attempt, intend, hm', he.1, he.2]
      cases b.move m c <;> rfl
  | _ => cases h

private theorem after_of_castle (h : o.castle? = some (side, c)) :
    b.after o = b ∨ b.after o = b.castle side c := by
  cases o with
  | castle side' c' =>
    simp only [Operation.castle?, Option.some.injEq, Prod.mk.injEq] at h
    rw [h.1, h.2]
    exact .inr rfl
  | castleToken token c' =>
    cases ht : CastleSide.ofToken token with
    | error e => simp [Operation.castle?, ht, Except.toOption] at h
    | ok side' =>
      simp only [Operation.castle?, ht, Except.toOption, Option.map_some, Option.some.injEq,
        Prod.mk.injEq] at h
      simp only [after, attempt, ht, h.1, h.2]
      exact .inr rfl
  | intend i c' =>
    cases i with
    | move source target => cases h
    | castle side' =>
      simp only [Operation.castle?, Option.some.injEq, Prod.mk.injEq] at h
      simp only [after, attempt, intend, h.1, h.2]
      cases b.castleRefusal? side c with
      | none => exact .inr rfl
      | some reason => exact .inl rfl
  | _ => cases h

private theorem movementOf?_of_castle? (h : o.castle? = some (side, c)) :
    b.movementOf? o = none := by
  cases o with
  | intend i c' =>
    cases i with
    | move source target => cases h
    | castle side' => rfl
  | castle side' c' => rfl
  | castleToken token c' => rfl
  | _ => cases h

private theorem after_of_neither (hp : o.isPlacement = false) (hm : b.movementOf? o = none)
    (hc : o.castle? = none) : b.after o = b := by
  cases o with
  | place p => cases hp
  | placeToken token => cases hp
  | move m c => cases hm
  | moveToken token c =>
    cases ht : Movement.ofToken token with
    | error e =>
      simp only [after, attempt, ht]
      rfl
    | ok m => simp [movementOf?, ht, Except.toOption] at hm
  | intend i c =>
    cases i with
    | castle side => cases hc
    | move source target =>
      have hv : b.movement? source target = none := Option.map_eq_none_iff.mp hm
      simp only [after, attempt, intend, hv]
      rfl
  | castle side c => cases hc
  | castleToken token c =>
    cases ht : CastleSide.ofToken token with
    | error e =>
      simp only [after, attempt, ht]
      rfl
    | ok side => simp [Operation.castle?, ht, Except.toOption] at hc

/-- An operation that places nothing has one of the three effects. -/
theorem effect_after (h : o.isPlacement = false) : b.Effect o (b.after o) := by
  cases hm : b.movementOf? o with
  | some asked =>
    obtain ⟨m, c⟩ := asked
    have hc : b.castled? o = none := by
      cases hs : o.castle? with
      | none => simp [castled?, hs]
      | some found => simp [movementOf?_of_castle? hs] at hm
    have hafter := after_of_move hm
    cases hr : b.refusal? m c with
    | none =>
      have hp : b.played? o = some (m, c) := by simp [played?, hm, hr]
      rw [hafter, hr]
      exact .moved m c hp hc hr
    | some reason =>
      have hp : b.played? o = none := by simp [played?, hm, hr]
      rw [hafter, hr]
      exact .idle hp hc
  | none =>
    have hp : b.played? o = none := by simp [played?, hm]
    by_cases hsame : b.after o = b
    · have hc : b.castled? o = none := by simp [castled?, hsame]
      rw [hsame]
      exact .idle hp hc
    · cases hs : o.castle? with
      | none => exact absurd (after_of_neither h hm hs) hsame
      | some found =>
        obtain ⟨side, c⟩ := found
        have hc : b.castled? o = some (side, c) := by simp [castled?, hsame, hs]
        have hcastle : b.after o = b.castle side c := (after_of_castle hs).resolve_left hsame
        have hr : b.castleReady side c = true := by
          cases hready : b.castleReady side c with
          | true => rfl
          | false => exact absurd (hcastle.trans (castle_of_not_castleReady hready)) hsame
        rw [hcastle]
        exact .castled side c hp hc hr

/-- What every effect keeps is kept by a run without placements. -/
theorem afterAll_of_effect {P : Board → Prop}
    (hkeep : ∀ b o next, b.Effect o next → P b → P next) {run : List Operation}
    (hrun : ∀ o ∈ run, o.isPlacement = false) (h : P b) : P (b.afterAll run) := by
  induction run generalizing b with
  | nil => exact h
  | cons o run ih =>
    obtain ⟨ho, hrest⟩ := List.forall_mem_cons.mp hrun
    exact ih hrest (hkeep b o (b.after o) (effect_after ho) h)

end Board

end Scoresheet
