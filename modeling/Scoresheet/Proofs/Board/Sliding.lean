import Mathlib.Logic.ExistsUnique
import Mathlib.Tactic.LinearCombination
import Mathlib.Tactic.Ring
import Scoresheet.Proofs.Board.Playing
/-!
# Sliding

Bishops, rooks and queens walk from square to square until something stands in their way or the board
ends. Looked at from above, a slider reaches the other squares of its lines to which nothing stands in
between, as long as it does not meet a piece of its own side there.
-/
namespace Scoresheet

namespace Square

/-- The ranks from one square up to another. -/
def ranksTo (s t : Square) : Int := t.rank.val - s.rank.val

/-- The files from one square to another on its right. -/
def filesTo (s t : Square) : Int := t.file.val - s.file.val

def OnLine (s t : Square) : Prop := s.rank = t.rank ∨ s.file = t.file

def OnDiagonal (s t : Square) : Prop := (s.ranksTo t).natAbs = (s.filesTo t).natAbs

/-- Whether a square lies strictly between two others, on the straight line through them. -/
structure Between (s t u : Square) : Prop where
  ne_left : u ≠ s
  ne_right : u ≠ t
  collinear : s.ranksTo u * s.filesTo t = s.filesTo u * s.ranksTo t
  ranks : min s.rank.val t.rank.val ≤ u.rank.val ∧ u.rank.val ≤ max s.rank.val t.rank.val
  files : min s.file.val t.file.val ≤ u.file.val ∧ u.file.val ≤ max s.file.val t.file.val

def steps (s t : Square) : Nat := max (s.ranksTo t).natAbs (s.filesTo t).natAbs

variable {s t u : Square} {d : Shift}

theorem eq_iff : t = s ↔ s.ranksTo t = 0 ∧ s.filesTo t = 0 := by
  obtain ⟨r, f⟩ := s
  obtain ⟨r', f'⟩ := t
  rw [Square.mk.injEq, Fin.ext_iff, Fin.ext_iff, ranksTo, filesTo]
  simp only
  omega

private theorem eq_iff_of_shift (s : Square) :
    u = t ↔ s.ranksTo u = s.ranksTo t ∧ s.filesTo u = s.filesTo t := by
  obtain ⟨r, f⟩ := u
  obtain ⟨r', f'⟩ := t
  rw [Square.mk.injEq, Fin.ext_iff, Fin.ext_iff]
  simp only [ranksTo, filesTo]
  omega

@[simp] theorem steps_self (s : Square) : s.steps s = 0 := by
  simp [steps, ranksTo, filesTo]

private theorem steps_le (s t : Square) : s.steps t ≤ 7 := by
  simp only [steps, ranksTo, filesTo]
  omega

private theorem cases_of_mem_kingShifts (hd : d ∈ kingShifts) :
    (d = (1, 0) ∨ d = (-1, 0) ∨ d = (0, 1) ∨ d = (0, -1)) ∨
      d = (1, 1) ∨ d = (1, -1) ∨ d = (-1, 1) ∨ d = (-1, -1) := by
  simpa [kingShifts, straightShifts, diagonalShifts, or_assoc] using hd

private theorem exists_steps (hd : d ∈ kingShifts) {n : Nat} {r f : Int} (hline : r * d.2 = f * d.1)
    (hr : min 0 (n * d.1) ≤ r ∧ r ≤ max 0 (n * d.1))
    (hf : min 0 (n * d.2) ≤ f ∧ f ≤ max 0 (n * d.2)) :
    ∃ k : Nat, k ≤ n ∧ r = k * d.1 ∧ f = k * d.2 := by
  refine ⟨max r.natAbs f.natAbs, ?_⟩
  rcases cases_of_mem_kingShifts hd with (rfl | rfl | rfl | rfl) | rfl | rfl | rfl | rfl <;>
    dsimp only at * <;> omega

private theorem within_of_le (hd : d ∈ kingShifts) {k n : Nat} (hkn : k ≤ n) :
    (min 0 (n * d.1) ≤ k * d.1 ∧ k * d.1 ≤ max 0 (n * d.1)) ∧
      min 0 (n * d.2) ≤ k * d.2 ∧ k * d.2 ≤ max 0 (n * d.2) := by
  rcases cases_of_mem_kingShifts hd with (rfl | rfl | rfl | rfl) | rfl | rfl | rfl | rfl <;>
    dsimp only <;> omega

private theorem max_natAbs_of_mem_kingShifts (hd : d ∈ kingShifts) :
    max d.1.natAbs d.2.natAbs = 1 := by
  revert d
  decide

theorem steps_eq (hd : d ∈ kingShifts) {n : Nat} (hr : s.ranksTo u = n * d.1)
    (hf : s.filesTo u = n * d.2) : s.steps u = n := by
  rw [steps, hr, hf, Int.natAbs_mul, Int.natAbs_mul, Int.natAbs_natCast, Nat.mul_max_mul_left,
    max_natAbs_of_mem_kingShifts hd, Nat.mul_one]

theorem offset?_iff {r f : Int} :
    s.offset? r f = some u ↔ s.ranksTo u = r ∧ s.filesTo u = f := by
  rw [offset?_eq_some_iff, ranksTo, filesTo]
  omega

private theorem mem_ray_iff_lt :
    u ∈ s.ray d ↔ ∃ n < 7, s.offset? ((n + 1 : Nat) * d.1) ((n + 1 : Nat) * d.2) = some u := by
  simp [ray]

/-- The squares of a ray are those so many steps away in its direction. -/
theorem mem_ray_iff (hd : d ∈ kingShifts) :
    u ∈ s.ray d ↔ ∃ n : Nat, 0 < n ∧ s.ranksTo u = n * d.1 ∧ s.filesTo u = n * d.2 := by
  rw [mem_ray_iff_lt]
  constructor
  · rintro ⟨n, _, h⟩
    exact ⟨n + 1, n.succ_pos, offset?_iff.mp h⟩
  · rintro ⟨n, hn, hr, hf⟩
    have hle : n ≤ 7 := steps_eq hd hr hf ▸ steps_le s u
    obtain ⟨k, rfl⟩ := Nat.exists_eq_add_one_of_ne_zero (Nat.ne_of_gt hn)
    exact ⟨k, hle, offset?_iff.mpr ⟨hr, hf⟩⟩

private theorem pairwise_ray (hd : d ∈ kingShifts) :
    (s.ray d).Pairwise fun u v => s.steps u < s.steps v := by
  have hsteps {n : Nat} {u : Square}
      (hu : s.offset? ((n + 1 : Int) * d.1) ((n + 1 : Int) * d.2) = some u) : s.steps u = n + 1 := by
    obtain ⟨hr, hf⟩ := offset?_iff.mp hu
    exact steps_eq hd (by exact_mod_cast hr) (by exact_mod_cast hf)
  rw [ray, List.pairwise_filterMap]
  apply List.pairwise_lt_range.imp
  intro n m hnm u hu v hv
  rw [hsteps hu, hsteps hv]
  exact Nat.succ_lt_succ hnm

private theorem between_iff (hd : d ∈ kingShifts) (ht : t ∈ s.ray d) :
    s.Between t u ↔ u ∈ s.ray d ∧ s.steps u < s.steps t := by
  obtain ⟨n, hn, htr, htf⟩ := (mem_ray_iff hd).mp ht
  have hranks : min s.rank.val t.rank.val ≤ u.rank.val ∧ u.rank.val ≤ max s.rank.val t.rank.val ↔
      min 0 (n * d.1) ≤ s.ranksTo u ∧ s.ranksTo u ≤ max 0 (n * d.1) := by
    simp only [← htr, ranksTo]
    omega
  have hfiles : min s.file.val t.file.val ≤ u.file.val ∧ u.file.val ≤ max s.file.val t.file.val ↔
      min 0 (n * d.2) ≤ s.filesTo u ∧ s.filesTo u ≤ max 0 (n * d.2) := by
    simp only [← htf, filesTo]
    omega
  rw [mem_ray_iff hd, steps_eq hd htr htf]
  constructor
  · rintro ⟨hs, ht, hline, hr, hf⟩
    have hcancel : s.ranksTo u * d.2 = s.filesTo u * d.1 := by
      have hpos : (n : Int) ≠ 0 := by omega
      apply mul_left_cancel₀ hpos
      rw [htr, htf] at hline
      linear_combination hline
    obtain ⟨k, hkn, hur, huf⟩ := exists_steps hd hcancel (hranks.mp hr) (hfiles.mp hf)
    have hk : k ≠ 0 := by
      intro hk
      exact hs (eq_iff.mpr (by simp [hur, huf, hk]))
    have hne : k ≠ n := by
      intro hkn
      exact ht ((eq_iff_of_shift s).mpr (by simp [hur, huf, htr, htf, hkn]))
    rw [steps_eq hd hur huf]
    exact ⟨⟨k, by omega, hur, huf⟩, by omega⟩
  · rintro ⟨⟨k, hk, hur, huf⟩, hlt⟩
    have hsteps := steps_eq hd hur huf
    rw [hsteps] at hlt
    obtain ⟨hr, hf⟩ := within_of_le hd (Nat.le_of_lt hlt)
    refine ⟨?_, ?_, ?_, hranks.mpr (hur ▸ hr), hfiles.mpr (huf ▸ hf)⟩
    · intro hus
      rw [hus, steps_self] at hsteps
      omega
    · intro hut
      rw [hut, steps_eq hd htr htf] at hsteps
      omega
    · rw [hur, huf, htr, htf]
      ring

private theorem ne_of_mem_ray (hd : d ∈ kingShifts) (h : t ∈ s.ray d) : t ≠ s := by
  obtain ⟨n, hn, hr, hf⟩ := (mem_ray_iff hd).mp h
  rintro rfl
  have hsteps := steps_eq hd hr hf
  rw [steps_self] at hsteps
  omega

private theorem onLine_iff : s.OnLine t ↔ s.ranksTo t = 0 ∨ s.filesTo t = 0 := by
  rw [OnLine, Fin.ext_iff, Fin.ext_iff, ranksTo, filesTo]
  omega

private theorem exists_mem_ray {directions : List Shift} (hking : ∀ d ∈ directions, d ∈ kingShifts)
    (hne : ¬ (s.ranksTo t = 0 ∧ s.filesTo t = 0))
    (h : ∃ d ∈ directions, s.ranksTo t = s.steps t * d.1 ∧ s.filesTo t = s.steps t * d.2) :
    ∃ d ∈ directions, t ∈ s.ray d := by
  obtain ⟨d, hd, hr, hf⟩ := h
  have hpos : 0 < s.steps t := by
    rw [steps]
    omega
  exact ⟨d, hd, (mem_ray_iff (hking d hd)).mpr ⟨s.steps t, hpos, hr, hf⟩⟩

private theorem mem_straight_ray_iff :
    (∃ d ∈ straightShifts, t ∈ s.ray d) ↔ t ≠ s ∧ s.OnLine t := by
  rw [onLine_iff, ne_eq, eq_iff]
  constructor
  · rintro ⟨d, hd, ht⟩
    have hking : d ∈ kingShifts := List.mem_append_left _ hd
    have hne := ne_of_mem_ray hking ht
    rw [ne_eq, eq_iff] at hne
    obtain ⟨n, _, hr, hf⟩ := (mem_ray_iff hking).mp ht
    have hflat : ∀ d ∈ straightShifts, d.1 = 0 ∨ d.2 = 0 := by decide
    refine ⟨hne, (hflat d hd).imp ?_ ?_⟩
    · intro hzero
      rw [hr, hzero, Int.mul_zero]
    · intro hzero
      rw [hf, hzero, Int.mul_zero]
  · rintro ⟨hne, hline⟩
    apply exists_mem_ray (fun d hd => List.mem_append_left _ hd) hne
    rw [steps]
    by_cases hr : s.ranksTo t = 0
    · by_cases hf : 0 < s.filesTo t
      · exact ⟨(0, 1), by decide, by dsimp only; omega⟩
      · exact ⟨(0, -1), by decide, by dsimp only; omega⟩
    · by_cases hr : 0 < s.ranksTo t
      · exact ⟨(1, 0), by decide, by dsimp only; omega⟩
      · exact ⟨(-1, 0), by decide, by dsimp only; omega⟩

private theorem mem_diagonal_ray_iff :
    (∃ d ∈ diagonalShifts, t ∈ s.ray d) ↔ t ≠ s ∧ s.OnDiagonal t := by
  rw [OnDiagonal, ne_eq, eq_iff]
  constructor
  · rintro ⟨d, hd, ht⟩
    have hking : d ∈ kingShifts := List.mem_append_right _ hd
    have hne := ne_of_mem_ray hking ht
    rw [ne_eq, eq_iff] at hne
    obtain ⟨n, _, hr, hf⟩ := (mem_ray_iff hking).mp ht
    have hequal : ∀ d ∈ diagonalShifts, d.1.natAbs = d.2.natAbs := by decide
    refine ⟨hne, ?_⟩
    rw [hr, hf, Int.natAbs_mul, Int.natAbs_mul, hequal d hd]
  · rintro ⟨hne, hline⟩
    apply exists_mem_ray (fun d hd => List.mem_append_right _ hd) hne
    rw [steps]
    by_cases hr : 0 < s.ranksTo t
    · by_cases hf : 0 < s.filesTo t
      · exact ⟨(1, 1), by decide, by dsimp only; omega⟩
      · exact ⟨(1, -1), by decide, by dsimp only; omega⟩
    · by_cases hf : 0 < s.filesTo t
      · exact ⟨(-1, 1), by decide, by dsimp only; omega⟩
      · exact ⟨(-1, -1), by decide, by dsimp only; omega⟩

private theorem ray_of_edge (hd : d ∈ kingShifts) (h : s.offset? d.1 d.2 = none) :
    s.ray d = [] := by
  rw [List.eq_nil_iff_forall_not_mem]
  intro u hu
  obtain ⟨n, hn, hr, hf⟩ := (mem_ray_iff hd).mp hu
  -- the board has no gaps, so the first step is on it if a later one is
  obtain ⟨hranks, hfiles⟩ := within_of_le hd (k := 1) hn
  rw [← hr] at hranks
  rw [← hf] at hfiles
  simp only [ranksTo, filesTo, Nat.cast_one, Int.one_mul] at hranks hfiles
  have hboard : (0 ≤ s.rank.val + d.1 ∧ s.rank.val + d.1 < 8) ∧
      0 ≤ s.file.val + d.2 ∧ s.file.val + d.2 < 8 := by omega
  simp [offset?, at?, hboard] at h

private theorem ray_of_next (hd : d ∈ kingShifts) (h : s.offset? d.1 d.2 = some t) :
    s.ray d = t :: t.ray d := by
  obtain ⟨hr, hf⟩ := offset?_eq_some_iff.mp h
  let place (u : Square) (n : Nat) : Option Square :=
    u.offset? ((n + 1 : Int) * d.1) ((n + 1 : Int) * d.2)
  have hfirst : place s 0 = some t := by simpa [place] using h
  have hshift (n : Nat) : place s (n + 1) = place t n := by
    simp only [place, offset?, ← hr, ← hf]
    congr 1 <;> push_cast <;> ring
  -- an eighth step would leave the board
  have heighth : place s 7 = none := by
    rw [Option.eq_none_iff_forall_ne_some]
    intro u hu
    obtain ⟨hur, huf⟩ := offset?_iff.mp hu
    have hsteps := steps_eq hd (n := 8) hur huf
    have hle := steps_le s u
    omega
  have hlonger : s.ray d = (List.range 8).filterMap (place s) := by
    rw [List.range_succ, List.filterMap_append, List.filterMap_cons, heighth, List.filterMap_nil,
      List.append_nil]
    rfl
  rw [hlonger, List.range_succ_eq_map, List.filterMap_cons, hfirst, List.filterMap_map]
  exact congrArg (fun f => t :: (List.range 7).filterMap f) (funext hshift)

end Square

namespace Board

variable {b : Board} {c : Color} {s t : Square} {d : Shift} {ray : List Square}

/-- On squares that lie ever farther away, the clear part is what has only empty squares before it and
no piece of the side itself. -/
theorem mem_clearPart_iff {distance : Square → Nat}
    (h : ray.Pairwise fun u v => distance u < distance v) :
    t ∈ b.clearPart c ray ↔
      t ∈ ray ∧ (∀ u ∈ ray, distance u < distance t → b.isVacant u = true) ∧
        b.admits c t = true := by
  induction ray with
  | nil => simp [clearPart]
  | cons u ray ih =>
    obtain ⟨hfar, hray⟩ := List.pairwise_cons.mp h
    have hnear (v : Square) (hv : v ∈ u :: ray) (hlt : distance v < distance u) : False := by
      rcases List.mem_cons.mp hv with rfl | hv
      · exact Nat.lt_irrefl _ hlt
      · exact Nat.lt_asymm hlt (hfar v hv)
    rw [clearPart]
    cases hvacant : b.isVacant u with
    | true =>
      rw [if_pos rfl, List.mem_cons, List.mem_cons, ih hray, List.forall_mem_cons]
      constructor
      · rintro (rfl | ⟨ht, hclear, hadmits⟩)
        · refine ⟨.inl rfl, ⟨fun _ => hvacant, fun v hv hlt => ?_⟩, by simp [admits, hvacant]⟩
          exact (hnear v (List.mem_cons_of_mem _ hv) hlt).elim
        · exact ⟨.inr ht, ⟨fun _ => hvacant, hclear⟩, hadmits⟩
      · rintro ⟨rfl | ht, ⟨_, hclear⟩, hadmits⟩
        · exact .inl rfl
        · exact .inr ⟨ht, hclear, hadmits⟩
    | false =>
      -- nothing behind an occupied square is reached
      have honly : (t ∈ u :: ray ∧ (∀ v ∈ u :: ray, distance v < distance t → b.isVacant v = true) ∧
          b.admits c t = true) ↔ t = u ∧ b.hasOpponent c u = true := by
        constructor
        · rintro ⟨ht, hclear, hadmits⟩
          rcases List.mem_cons.mp ht with rfl | ht
          · exact ⟨rfl, by simpa [admits, hvacant] using hadmits⟩
          · have hbefore := hclear u List.mem_cons_self (hfar t ht)
            rw [hvacant] at hbefore
            cases hbefore
        · rintro ⟨rfl, hopponent⟩
          refine ⟨List.mem_cons_self, fun v hv hlt => (hnear v hv hlt).elim, ?_⟩
          simp [admits, hopponent]
      rw [honly]
      cases b.hasOpponent c u <;> simp

/-- Whether nothing stands between two squares and a side has no piece on the second. -/
structure SlidesTo (b : Board) (c : Color) (s t : Square) : Prop where
  clear : ∀ u, s.Between t u → b.occupant u = none
  admitted : b.occupant t = none ∨ ∃ p, b.occupant t = some p ∧ p.color = c.opposite

private theorem admits_iff_opposite :
    b.admits c t = true ↔
      b.occupant t = none ∨ ∃ p, b.occupant t = some p ∧ p.color = c.opposite := by
  rw [admits_iff]
  cases b.occupant t <;> simp [← Color.ne_iff_eq_opposite]

private theorem mem_clearPart_ray_iff (hd : d ∈ kingShifts) :
    t ∈ b.clearPart c (s.ray d) ↔ t ∈ s.ray d ∧ b.SlidesTo c s t := by
  rw [mem_clearPart_iff (Square.pairwise_ray hd)]
  constructor
  · rintro ⟨ht, hclear, hadmits⟩
    refine ⟨ht, fun u hu => ?_, admits_iff_opposite.mp hadmits⟩
    obtain ⟨hray, hlt⟩ := (Square.between_iff hd ht).mp hu
    exact isVacant_iff.mp (hclear u hray hlt)
  · rintro ⟨ht, hclear, hadmits⟩
    refine ⟨ht, fun u hray hlt => ?_, admits_iff_opposite.mpr hadmits⟩
    exact isVacant_iff.mpr (hclear u ((Square.between_iff hd ht).mpr ⟨hray, hlt⟩))

private theorem mem_slides_iff {directions : List Shift} (h : ∀ d ∈ directions, d ∈ kingShifts) :
    t ∈ b.slides c s directions ↔ (∃ d ∈ directions, t ∈ s.ray d) ∧ b.SlidesTo c s t := by
  rw [slides, List.mem_flatMap]
  constructor
  · rintro ⟨d, hd, ht⟩
    obtain ⟨hray, hslides⟩ := (mem_clearPart_ray_iff (h d hd)).mp ht
    exact ⟨⟨d, hd, hray⟩, hslides⟩
  · rintro ⟨⟨d, hd, hray⟩, hslides⟩
    exact ⟨d, hd, (mem_clearPart_ray_iff (h d hd)).mpr ⟨hray, hslides⟩⟩

/-- The walk of a slider in one direction, square by square: it ends where the board ends, before a
piece of the side itself, or on a piece of the other side. -/
inductive Walk (b : Board) (c : Color) (d : Shift) : Square → List Square → Prop where
  | edge {s : Square} (h : s.offset? d.1 d.2 = none) : Walk b c d s []
  | onward {s next : Square} {stops : List Square} (h : s.offset? d.1 d.2 = some next)
    (hvacant : b.occupant next = none) (rest : Walk b c d next stops) :
    Walk b c d s (next :: stops)
  | taken {s next : Square} {p : Piece} (h : s.offset? d.1 d.2 = some next)
    (hp : b.occupant next = some p) (hc : p.color ≠ c) : Walk b c d s [next]
  | stopped {s next : Square} {p : Piece} (h : s.offset? d.1 d.2 = some next)
    (hp : b.occupant next = some p) (hc : p.color = c) : Walk b c d s []

private theorem Walk.eq_clearPart (hd : d ∈ kingShifts) {stops : List Square}
    (h : b.Walk c d s stops) :
    stops = b.clearPart c (s.ray d) := by
  induction h with
  | edge h => rw [Square.ray_of_edge hd h, clearPart]
  | onward h hvacant _ ih =>
    rw [Square.ray_of_next hd h, clearPart, if_pos (isVacant_iff.mpr hvacant), ← ih]
  | taken h hp hc => simp [Square.ray_of_next hd h, clearPart, isVacant, hasOpponent, hp, hc]
  | stopped h hp hc => simp [Square.ray_of_next hd h, clearPart, isVacant, hasOpponent, hp, hc]

theorem walk_clearPart (hd : d ∈ kingShifts) : b.Walk c d s (b.clearPart c (s.ray d)) := by
  -- on the squares to the edge of the board, of which each step leaves one behind
  generalize hray : s.ray d = ray
  induction ray generalizing s with
  | nil =>
    apply Walk.edge
    cases hnext : s.offset? d.1 d.2 with
    | none => rfl
    | some next => simp [Square.ray_of_next hd hnext] at hray
  | cons u ray ih =>
    cases hnext : s.offset? d.1 d.2 with
    | none => simp [Square.ray_of_edge hd hnext] at hray
    | some next =>
      obtain ⟨rfl, hrest⟩ := List.cons.inj ((Square.ray_of_next hd hnext).symm.trans hray)
      cases hp : b.occupant next with
      | none =>
        rw [clearPart, if_pos (isVacant_iff.mpr hp)]
        exact .onward hnext hp (ih hrest)
      | some p =>
        by_cases hc : p.color = c
        · simpa [clearPart, isVacant, hasOpponent, hp, hc] using Walk.stopped hnext hp hc
        · simpa [clearPart, isVacant, hasOpponent, hp, hc] using Walk.taken hnext hp hc

/-- The walk from a square in a direction always comes to an end, the same one each time. -/
theorem existsUnique_walk (b : Board) (c : Color) (s : Square) (hd : d ∈ kingShifts) :
    ∃! stops, b.Walk c d s stops :=
  ⟨_, walk_clearPart hd, fun _ h => h.eq_clearPart hd⟩

/-- The squares reached by sliding are those of the walks. -/
theorem mem_slides_iff_walk {directions : List Shift} (h : ∀ d ∈ directions, d ∈ kingShifts) :
    t ∈ b.slides c s directions ↔ ∃ d ∈ directions, ∃ stops, b.Walk c d s stops ∧ t ∈ stops := by
  rw [slides, List.mem_flatMap]
  constructor
  · rintro ⟨d, hd, ht⟩
    exact ⟨d, hd, _, walk_clearPart (h d hd), ht⟩
  · rintro ⟨d, hd, stops, hwalk, ht⟩
    exact ⟨d, hd, hwalk.eq_clearPart (h d hd) ▸ ht⟩

theorem mem_straight_slides_iff :
    t ∈ b.slides c s straightShifts ↔ t ≠ s ∧ s.OnLine t ∧ b.SlidesTo c s t := by
  rw [mem_slides_iff fun d hd => List.mem_append_left _ hd, Square.mem_straight_ray_iff, and_assoc]

theorem mem_diagonal_slides_iff :
    t ∈ b.slides c s diagonalShifts ↔ t ≠ s ∧ s.OnDiagonal t ∧ b.SlidesTo c s t := by
  rw [mem_slides_iff fun d hd => List.mem_append_right _ hd, Square.mem_diagonal_ray_iff, and_assoc]

theorem mem_king_slides_iff :
    t ∈ b.slides c s (straightShifts ++ diagonalShifts) ↔
      t ≠ s ∧ (s.OnLine t ∨ s.OnDiagonal t) ∧ b.SlidesTo c s t := by
  have hparts : t ∈ b.slides c s (straightShifts ++ diagonalShifts) ↔
      t ∈ b.slides c s straightShifts ∨ t ∈ b.slides c s diagonalShifts := by
    simp [slides]
  rw [hparts, mem_straight_slides_iff, mem_diagonal_slides_iff]
  tauto

/-- A slider, whether or not it stands on the board, reaches the squares other than its own that are
on a line with it, a diagonal for a bishop, a rank or file for a rook, either for a queen, with nothing
standing strictly between and no piece of its own side there. Captures need not be considered for it.
It finds them by walks in the four or eight directions, each of which comes to an end. -/
theorem sliders_reach_open_lines (b : Board) (c : Color) (s t : Square) (moved captures : Bool) :
    (t ∈ b.reach ⟨⟨c, .bishop⟩, s, moved⟩ captures ↔
      t ≠ s ∧ s.OnDiagonal t ∧ b.SlidesTo c s t) ∧
    (t ∈ b.reach ⟨⟨c, .rook⟩, s, moved⟩ captures ↔
      t ≠ s ∧ s.OnLine t ∧ b.SlidesTo c s t) ∧
    (t ∈ b.reach ⟨⟨c, .queen⟩, s, moved⟩ captures ↔
      t ≠ s ∧ (s.OnLine t ∨ s.OnDiagonal t) ∧ b.SlidesTo c s t) ∧
    (∀ d ∈ kingShifts, ∃! stops, b.Walk c d s stops) ∧
    (t ∈ b.reach ⟨⟨c, .bishop⟩, s, moved⟩ captures ↔
      ∃ d ∈ diagonalShifts, ∃ stops, b.Walk c d s stops ∧ t ∈ stops) ∧
    (t ∈ b.reach ⟨⟨c, .rook⟩, s, moved⟩ captures ↔
      ∃ d ∈ straightShifts, ∃ stops, b.Walk c d s stops ∧ t ∈ stops) ∧
    (t ∈ b.reach ⟨⟨c, .queen⟩, s, moved⟩ captures ↔
      ∃ d ∈ kingShifts, ∃ stops, b.Walk c d s stops ∧ t ∈ stops) := by
  simp only [mem_reach_iff, targets]
  refine ⟨mem_diagonal_slides_iff, mem_straight_slides_iff, mem_king_slides_iff, ?_, ?_, ?_, ?_⟩
  · intro d hd
    exact existsUnique_walk b c s hd
  · exact mem_slides_iff_walk fun d hd => List.mem_append_right _ hd
  · exact mem_slides_iff_walk fun d hd => List.mem_append_left _ hd
  · exact mem_slides_iff_walk fun d hd => hd

end Board

end Scoresheet
