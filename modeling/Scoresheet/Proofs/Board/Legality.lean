import Scoresheet.Board.Intent
/-!
# What may be played

The checks of a movement, taken together, and what is left of them when kind and capture mark are
read off the board: an intent to move is permitted exactly if a piece of the side can go there. The
capture mark matters to pawns alone, and never more than what stands on the target.
-/
namespace Scoresheet.Board

def Permits (b : Board) (c : Color) (i : Intent) : Prop := ∃ next, b.intend i c = .ok next

instance (b : Board) (c : Color) (i : Intent) : Decidable (b.Permits c i) :=
  match h : b.intend i c with
  | .ok next => isTrue ⟨next, h⟩
  | .error _ => isFalse fun ⟨_, hn⟩ => by simp [h] at hn

variable {b : Board} {c : Color}

theorem isVacant_iff {s : Square} : b.isVacant s = true ↔ b.occupant s = none := by
  rw [isVacant, Option.isNone_iff_eq_none]

theorem hasOpponent_iff {s : Square} :
    b.hasOpponent c s = true ↔ ∃ p, b.occupant s = some p ∧ p.color ≠ c := by
  unfold hasOpponent
  cases b.occupant s <;> simp

theorem admits_iff {s : Square} :
    b.admits c s = true ↔ ∀ p, b.occupant s = some p → p.color ≠ c := by
  rw [admits, Bool.or_eq_true, isVacant_iff, hasOpponent_iff]
  cases b.occupant s <;> simp

private theorem admits_of_mem_clearPart {ray : List Square} {s : Square}
    (h : s ∈ b.clearPart c ray) :
    b.admits c s = true := by
  induction ray with
  | nil => simp [clearPart] at h
  | cons t ray ih =>
    rw [clearPart] at h
    split at h
    · next hv =>
      rcases List.mem_cons.mp h with rfl | h
      · simp [admits, hv]
      · exact ih h
    · split at h
      · next ho =>
        rw [List.mem_singleton.mp h]
        simp [admits, ho]
      · simp at h

private theorem admits_of_mem_steps {s t : Square} {shifts : List Shift}
    (h : t ∈ b.steps c s shifts) :
    b.admits c t = true := (List.mem_filter.mp h).2

private theorem admits_of_mem_slides {s t : Square} {directions : List Shift}
    (h : t ∈ b.slides c s directions) : b.admits c t = true := by
  obtain ⟨direction, _, ht⟩ := List.mem_flatMap.mp h
  exact admits_of_mem_clearPart ht

private theorem isVacant_of_mem_pawnAdvances {p : Piece} {t : Square} (h : t ∈ b.pawnAdvances p) :
    b.isVacant t = true := by
  have filtered {o : Option Square} {u : Square} (hu : o.filter b.isVacant = some u) :
      b.isVacant u = true := (Option.filter_eq_some_iff.mp hu).2
  unfold pawnAdvances at h
  cases hs : (p.square.offset? p.color.forward 0).filter b.isVacant with
  | none => simp [hs] at h
  | some one =>
    simp only [hs] at h
    split at h
    · rcases List.mem_cons.mp h with rfl | h
      · exact filtered hs
      · exact filtered (Option.mem_toList.mp h)
    · rw [List.mem_singleton.mp h]
      exact filtered hs

private theorem hasOpponent_of_mem_pawnCaptures {p : Piece} {t : Square}
    (h : t ∈ b.pawnCaptures p) :
    b.hasOpponent p.color t = true := (List.mem_filter.mp h).2

/-- A piece can go to no square on which a piece of its own side stands. -/
theorem admits_of_mem_targets {p : Piece} {captures : Bool} {t : Square}
    (h : t ∈ b.targets p captures) : b.admits p.color t = true := by
  unfold targets at h
  cases hk : p.kind <;> simp only [hk] at h
  case pawn =>
    rcases List.mem_append.mp h with h | h
    · simp [admits, isVacant_of_mem_pawnAdvances h]
    · split at h
      · simp [admits, hasOpponent_of_mem_pawnCaptures h]
      · simp at h
  case knight => exact admits_of_mem_steps h
  case bishop => exact admits_of_mem_slides h
  case rook => exact admits_of_mem_slides h
  case queen => exact admits_of_mem_slides h
  case king => exact admits_of_mem_steps h

private theorem mem_targets_of_isVacant {p : Piece} {t : Square} (ht : b.occupant t = none) :
    t ∈ b.targets p false ↔ t ∈ b.targets p true := by
  unfold targets
  cases hk : p.kind with
  | pawn =>
    have hc : t ∉ b.pawnCaptures p := by
      intro h
      obtain ⟨q, hq, _⟩ := hasOpponent_iff.mp (hasOpponent_of_mem_pawnCaptures h)
      simp [ht] at hq
    simp [hc]
  | _ => rfl

theorem nodup_reach (b : Board) (p : Piece) (captures : Bool) : (b.reach p captures).Nodup := by
  apply (b.pairwise_reach p captures).imp
  rintro s t h rfl
  exact Nat.lt_irrefl _ h

private theorem mem_reach_isSome_iff {p : Piece} {t : Square} :
    t ∈ b.reach p (b.occupant t).isSome ↔ t ∈ b.reach p true := by
  rw [mem_reach_iff, mem_reach_iff]
  cases ht : b.occupant t with
  | none => exact mem_targets_of_isVacant ht
  | some q => rfl

private theorem targetRefusal?_eq_none_iff {m : Movement} :
    b.targetRefusal? m c = none ↔
      (b.occupant m.target).isSome = m.capture ∧ b.admits c m.target = true := by
  rw [admits_iff]
  unfold targetRefusal?
  cases b.occupant m.target <;> cases m.capture <;> simp

theorem refusal?_eq_none_iff {m : Movement} :
    b.refusal? m c = none ↔ ∃ p, b.occupant m.source = some p ∧ p.color = c ∧ p.kind = m.kind ∧
      (b.occupant m.target).isSome = m.capture ∧ b.admits c m.target = true ∧
      m.target ∈ b.reach p m.capture := by
  unfold refusal?
  cases hs : b.occupant m.source with
  | none => simp
  | some p =>
    have ht := targetRefusal?_eq_none_iff (b := b) (c := c) (m := m)
    by_cases hc : p.color = c
    · by_cases hk : p.kind = m.kind
      · cases hr : b.targetRefusal? m c with
        | some r =>
          constructor
          · simp [hc, hk]
          · rintro ⟨_, _, _, _, ho, ha, _⟩
            rw [ht.mpr ⟨ho, ha⟩] at hr
            cases hr
        | none =>
          obtain ⟨ho, ha⟩ := ht.mp hr
          simp [hc, hk, ho, ha]
      · simp [hk]
    · simp [hc]

theorem move_eq_ok_iff {m : Movement} {next : Board} :
    b.move m c = .ok next ↔ b.refusal? m c = none ∧ b.relocate m.source m.target = next := by
  unfold move
  cases b.refusal? m c <;> simp

theorem movement?_eq_some_iff {s t : Square} {m : Movement} :
    b.movement? s t = some m ↔
      ∃ p, b.occupant s = some p ∧ ⟨p.kind, s, t, (b.occupant t).isSome⟩ = m :=
  Option.map_eq_some_iff

theorem intend_move_eq_ok_iff {s t : Square} {next : Board} :
    b.intend (.move s t) c = .ok next ↔
      ∃ m, b.movement? s t = some m ∧ b.move m c = .ok next := by
  rw [intend]
  cases b.movement? s t with
  | none => simp
  | some m => cases hm : b.move m c <;> simp [hm]

theorem castleRefusal?_eq_none_iff {side : CastleSide} :
    b.castleRefusal? side c = none ↔ b.canCastle side c = true := by
  rw [castleRefusal?, canCastle, Option.map_eq_none_iff, Option.isNone_iff_eq_none]

theorem intend_castle_eq_ok_iff {side : CastleSide} {next : Board} :
    b.intend (.castle side) c = .ok next ↔ b.canCastle side c = true ∧ b.castle side c = next := by
  rw [intend, ← castleRefusal?_eq_none_iff]
  cases b.castleRefusal? side c <;> simp

theorem permits_castle_iff {side : CastleSide} :
    b.Permits c (.castle side) ↔ b.canCastle side c = true := by
  simp [Permits, intend_castle_eq_ok_iff]

/-- A side may move from one square to another exactly if it has a piece on the first that can go to
the second, captures considered. -/
theorem permits_move_iff {s t : Square} :
    b.Permits c (.move s t) ↔ ∃ p, b.occupant s = some p ∧ p.color = c ∧ t ∈ b.reach p true := by
  unfold Permits
  constructor
  · rintro ⟨next, h⟩
    obtain ⟨m, hm, hn⟩ := intend_move_eq_ok_iff.mp h
    obtain ⟨p, hp, rfl⟩ := movement?_eq_some_iff.mp hm
    obtain ⟨q, hq, hc, _, _, _, ht⟩ := refusal?_eq_none_iff.mp (move_eq_ok_iff.mp hn).1
    obtain rfl : p = q := Option.some.inj (hp.symm.trans hq)
    exact ⟨p, hp, hc, mem_reach_isSome_iff.mp ht⟩
  · rintro ⟨p, hp, rfl, ht⟩
    have hr : b.refusal? ⟨p.kind, s, t, (b.occupant t).isSome⟩ p.color = none :=
      refusal?_eq_none_iff.mpr ⟨p, hp, rfl, rfl, rfl,
        admits_of_mem_targets (mem_reach_iff.mp ht), mem_reach_isSome_iff.mpr ht⟩
    exact ⟨b.relocate s t, intend_move_eq_ok_iff.mpr
      ⟨_, movement?_eq_some_iff.mpr ⟨p, hp, rfl⟩, move_eq_ok_iff.mpr ⟨hr, rfl⟩⟩⟩

end Scoresheet.Board
