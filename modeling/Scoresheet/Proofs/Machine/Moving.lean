import Scoresheet.Board.Castle
import Scoresheet.Proofs.Board.Sliding
import Scoresheet.Proofs.Machine.Cutting
import Scoresheet.Proofs.Machine.Reading
/-!
# Moving on a machine

Coordinates are bytes, and a displacement is added to them with a sign. The displacements of all pieces
leave room for that, the files of a castle stay on the board, and no walk has more than seven stops. A
square is on the board by its type, so the check stands wherever one is made of two bytes.

The main result takes in the readers of tokens and lines: nothing traps, and what comes out is what the
definitions without checks say.
-/
namespace Scoresheet.Machine

abbrev ByteShift : Type := Int8 × Int8

def narrow (d : Shift) : ByteShift := (.ofInt d.1, .ofInt d.2)

def coordinate (n : Fin 8) : UInt8 := .ofNat n.val

/-- The square of coordinates that are known to lie on the board. -/
def squareKnown (rank file : UInt8) : Run Square := orHalt (squareOf? rank file) (.trapped .offBoard)

/-- The square reached by a displacement, if it lies on the board. -/
def offset (s : Square) (d : ByteShift) : Run (Option Square) := do
  let rank ← signedByte ((coordinate s.rank).toInt8.toInt + d.1.toInt)
  let file ← signedByte ((coordinate s.file).toInt8.toInt + d.2.toInt)
  if (0 ≤ rank ∧ rank < 8) ∧ 0 ≤ file ∧ file < 8 then
    return some (← squareKnown rank.toUInt8 file.toUInt8)
  else return none

def places (s : Square) (shifts : List ByteShift) : Run (List Square) := do
  let found ← shifts.mapM (offset s)
  return found.filterMap id

def steps (b : Board) (c : Color) (s : Square) (shifts : List ByteShift) : Run (List Square) := do
  let found ← places s shifts
  return found.filter (b.admits c)

/-- A walk in one direction, which has to end within so many turns. -/
def walk (b : Board) (c : Color) (d : ByteShift) : Nat → Square → Run (List Square)
  | 0, _ => .error (.trapped .endless)
  | turns + 1, s => do
    match ← offset s d with
    | none => return []
    | some next =>
      match b.occupant next with
      | none => return next :: (← walk b c d turns next)
      | some p => return if p.color != c then [next] else []

/-- The squares reached by sliding. A line of the board has eight squares. -/
def slides (b : Board) (c : Color) (s : Square) (directions : List ByteShift) :
    Run (List Square) := do
  let walks ← directions.mapM fun d => walk b c d 8 s
  return walks.flatten

/-- The empty squares before a pawn. The step is doubled only where a double step is open. -/
def pawnAdvances (b : Board) (p : Piece) : Run (List Square) := do
  let forward : Int8 := .ofInt p.color.forward
  let single ← offset p.square (forward, 0)
  match single.filter b.isVacant with
  | none => return []
  | some one =>
    if !p.moved && p.square.rank == p.color.pawnRank then
      let twice ← signedByte (2 * forward.toInt)
      let double ← offset p.square (twice, 0)
      return one :: (double.filter b.isVacant).toList
    else return [one]

def pawnCaptures (b : Board) (p : Piece) : Run (List Square) := do
  let forward : Int8 := .ofInt p.color.forward
  let found ← places p.square [(forward, -1), (forward, 1)]
  return found.filter (b.hasOpponent p.color)

def targets (b : Board) (p : Piece) (captures : Bool) : Run (List Square) :=
  match p.kind with
  | .pawn => do
    let advances ← pawnAdvances b p
    if captures then return advances ++ (← pawnCaptures b p) else return advances
  | .knight => steps b p.color p.square (knightShifts.map narrow)
  | .bishop => slides b p.color p.square (diagonalShifts.map narrow)
  | .rook => slides b p.color p.square (straightShifts.map narrow)
  | .queen => do
    let straight ← slides b p.color p.square (straightShifts.map narrow)
    let diagonal ← slides b p.color p.square (diagonalShifts.map narrow)
    return straight ++ diagonal
  | .king => steps b p.color p.square (kingShifts.map narrow)

def reach (b : Board) (p : Piece) (captures : Bool) : Run (List Square) := do
  let found ← targets b p captures
  return Square.all.filter fun s => found.contains s

def kingHome (c : Color) : Run Square := squareKnown (coordinate c.backRank) 4

def rookHome (c : Color) : CastleSide → Run Square
  | .king => do squareKnown (coordinate c.backRank) (← byte (8 - 1))
  | .queen => squareKnown (coordinate c.backRank) 0

def filesBetween (low high : UInt8) : Run (List UInt8) := do
  let first ← byte (low.toNat + 1)
  return (List.range' first.toNat (high.toNat - first.toNat)).map .ofNat

def ordered (m n : Fin 8) : Fin 8 × Fin 8 := if m < n then (m, n) else (n, m)

/-- Whether something stands on a side's back rank between two files. -/
def isBlocked (b : Board) (c : Color) (m n : Fin 8) : Run Bool := do
  let ends := ordered m n
  (← filesBetween (coordinate ends.1) (coordinate ends.2)).anyM fun file => do
    return (b.occupant (← squareKnown (coordinate c.backRank) file)).isSome

def castleObstacle? (b : Board) (side : CastleSide) (c : Color) :
    Run (Option CastleObstacle) := do
  let kingSquare ← kingHome c
  let rookSquare ← rookHome c side
  match b.occupant kingSquare, b.occupant rookSquare with
  | some king, some rook =>
    if king.toChessman != ⟨c, .king⟩ || rook.toChessman != ⟨c, .rook⟩ then return some .wrongPieces
    else if king.moved && rook.moved then return some .bothMoved
    else return if ← isBlocked b c kingSquare.file rookSquare.file then some .blocked else none
  | _, _ => return some .missing

def castledFiles : CastleSide → Run (UInt8 × UInt8)
  | .king => do return (← byte (4 + 2), ← byte (4 + 1))
  | .queen => do return (← byte (4 - 2), ← byte (4 - 1))

def castle (b : Board) (side : CastleSide) (c : Color) : Run Board := do
  let kingSquare ← kingHome c
  let rookSquare ← rookHome c side
  if (b.occupant kingSquare).isNone || (b.occupant rookSquare).isNone then return b
  else
    let (kingFile, rookFile) ← castledFiles side
    let kingTarget ← squareKnown (coordinate c.backRank) kingFile
    let moved := b.relocate kingSquare kingTarget
    let rookTarget ← squareKnown (coordinate c.backRank) rookFile
    return moved.relocate rookSquare rookTarget

variable {b : Board} {c : Color} {s t : Square} {d : Shift} {p : Piece} {side : CastleSide}

section Offsets

/-- Whether a displacement is in the range of signed bytes, with room for any coordinate before it. -/
def Fits (d : Shift) : Prop := (-128 ≤ d.1 ∧ d.1 ≤ 120) ∧ -128 ≤ d.2 ∧ d.2 ≤ 120

instance (d : Shift) : Decidable (Fits d) := inferInstanceAs (Decidable (_ ∧ _))

private theorem fits_of_mem_kingShifts (h : d ∈ kingShifts) : Fits d := by
  revert d
  decide

private theorem fits_of_mem_knightShifts (h : d ∈ knightShifts) : Fits d := by
  revert d
  decide

private theorem toInt_coordinate (n : Fin 8) : (coordinate n).toInt8.toInt = n.val := by
  revert n
  decide

private theorem squareKnown_coordinate (s : Square) :
    squareKnown (coordinate s.rank) (coordinate s.file) = .ok s := by
  rw [squareKnown, coordinate, coordinate, squareOf?_ofNat, orHalt_some]

private theorem toUInt8_ofInt (n : Fin 8) : (Int8.ofInt n.val).toUInt8 = coordinate n := by
  revert n
  decide

/-- A displacement that fits is added without leaving the signed byte. -/
theorem offset_narrow (h : Fits d) : offset s (narrow d) = .ok (s.offset? d.1 d.2) := by
  obtain ⟨hranks, hfiles⟩ := h
  have htoInt {v : Int} (hv : -128 ≤ v ∧ v < 128) : (Int8.ofInt v).toInt = v :=
    Int8.toInt_ofInt_of_le hv.1 hv.2
  have hcompare {v : Int} (hv : -128 ≤ v ∧ v < 128) :
      (0 ≤ Int8.ofInt v ∧ Int8.ofInt v < 8) ↔ 0 ≤ v ∧ v < 8 := by
    rw [Int8.le_iff_toInt_le, Int8.lt_iff_toInt_lt, htoInt hv]
    exact Iff.rfl
  have hrank : -128 ≤ (s.rank.val : Int) + d.1 ∧ (s.rank.val : Int) + d.1 < 128 := by omega
  have hfile : -128 ≤ (s.file.val : Int) + d.2 ∧ (s.file.val : Int) + d.2 < 128 := by omega
  simp only [offset, narrow, toInt_coordinate, htoInt (v := d.1) (by omega),
    htoInt (v := d.2) (by omega), signedByte, check_of hrank, check_of hfile, ok_bind,
    hcompare hrank, hcompare hfile]
  cases hnext : s.offset? d.1 d.2 with
  | none =>
    have hedge : ¬ ((0 ≤ (s.rank.val : Int) + d.1 ∧ (s.rank.val : Int) + d.1 < 8) ∧
        0 ≤ (s.file.val : Int) + d.2 ∧ (s.file.val : Int) + d.2 < 8) := by
      intro hboard
      simp [Square.offset?, Square.at?, hboard] at hnext
    rw [if_neg hedge]
    rfl
  | some t =>
    obtain ⟨htrank, htfile⟩ := Square.offset?_eq_some_iff.mp hnext
    rw [if_pos (by omega), htrank, htfile, toUInt8_ofInt, toUInt8_ofInt, squareKnown_coordinate]
    rfl

-- A displacement without that room would not do.
example : offset ⟨7, 0⟩ (121, 0) = .error (.trapped .outOfWidth) := rfl

private theorem places_eq {shifts : List Shift} (h : ∀ d ∈ shifts, Fits d) :
    places s (shifts.map narrow) = .ok (shifts.filterMap fun d => s.offset? d.1 d.2) := by
  have hall : (shifts.map narrow).mapM (offset s) = .ok (shifts.map fun d => s.offset? d.1 d.2) :=
    mapM_map_eq_ok fun d hd => offset_narrow (h d hd)
  rw [places, hall, ok_bind, List.filterMap_map]
  rfl

end Offsets

section Targets

theorem steps_eq {shifts : List Shift} (h : ∀ d ∈ shifts, Fits d) :
    steps b c s (shifts.map narrow) = .ok (b.steps c s shifts) := by
  rw [steps, places_eq h]
  rfl

private theorem walk_eq_of_walk (hd : Fits d) {stops : List Square} (h : b.Walk c d s stops)
    {turns : Nat}
    (hturns : stops.length < turns) : walk b c (narrow d) turns s = .ok stops := by
  obtain ⟨turns, rfl⟩ := Nat.exists_eq_add_one_of_ne_zero (Nat.ne_zero_of_lt hturns)
  induction h generalizing turns with
  | edge hnext =>
    rw [walk, offset_narrow hd, hnext]
    rfl
  | onward hnext hvacant rest ih =>
    rw [List.length_cons] at hturns
    have hrest := Nat.lt_of_succ_lt_succ hturns
    obtain ⟨turns, rfl⟩ := Nat.exists_eq_add_one_of_ne_zero (Nat.ne_zero_of_lt hrest)
    rw [walk, offset_narrow hd, hnext, ok_bind]
    simp only [hvacant]
    rw [ih turns hrest]
    rfl
  | taken hnext hp hc =>
    rw [walk, offset_narrow hd, hnext, ok_bind]
    simp [hp, hc]
  | stopped hnext hp hc =>
    rw [walk, offset_narrow hd, hnext, ok_bind]
    simp [hp, hc]

private theorem length_clearPart_le (ray : List Square) :
    (b.clearPart c ray).length ≤ ray.length := by
  induction ray with
  | nil => exact Nat.le_refl 0
  | cons s ray ih =>
    rw [Board.clearPart]
    split
    · exact Nat.succ_le_succ ih
    · split <;> simp

private theorem length_ray_le (s : Square) (d : Shift) : (s.ray d).length ≤ 7 := by
  rw [Square.ray]
  exact (List.length_filterMap_le _ _).trans (Nat.le_of_eq List.length_range)

/-- A walk has ended after eight turns. -/
theorem walk_eq (hd : d ∈ kingShifts) :
    walk b c (narrow d) 8 s = .ok (b.clearPart c (s.ray d)) := by
  have hle := Nat.le_trans (length_clearPart_le (b := b) (c := c) (s.ray d)) (length_ray_le s d)
  exact walk_eq_of_walk (fits_of_mem_kingShifts hd) (Board.walk_clearPart hd) (Nat.lt_succ_of_le hle)

private theorem slides_eq {directions : List Shift} (h : ∀ d ∈ directions, d ∈ kingShifts) :
    slides b c s (directions.map narrow) = .ok (b.slides c s directions) := by
  have hall : (directions.map narrow).mapM (fun d => walk b c d 8 s) =
      .ok (directions.map fun d => b.clearPart c (s.ray d)) :=
    mapM_map_eq_ok fun d hd => walk_eq (h d hd)
  rw [slides, hall, ok_bind, Board.slides, List.flatMap]
  rfl

private theorem narrow_ahead (n : Int) : narrow (n, 0) = (.ofInt n, 0) := rfl

private theorem offset_ahead {n : Int} (hn : 0 ≤ n ∧ n ≤ 2) :
    offset s (.ofInt (n * c.forward), 0) = .ok (s.offset? (n * c.forward) 0) := by
  have hfits : Fits (n * c.forward, 0) := by
    cases c <;> simp only [Fits, Color.forward] <;> omega
  rw [← narrow_ahead, offset_narrow hfits]

private theorem pawnAdvances_eq (b : Board) (p : Piece) :
    pawnAdvances b p = .ok (b.pawnAdvances p) := by
  have hsingle := offset_ahead (s := p.square) (c := p.color) (n := 1) (by decide)
  have hdouble := offset_ahead (s := p.square) (c := p.color) (n := 2) (by decide)
  have htwice : signedByte (2 * (Int8.ofInt p.color.forward).toInt) =
      .ok (.ofInt (2 * p.color.forward)) := by
    cases p.color <;> rfl
  rw [Int.one_mul] at hsingle
  simp only [pawnAdvances, Board.pawnAdvances, hsingle, htwice, hdouble, ok_bind]
  cases (p.square.offset? p.color.forward 0).filter b.isVacant with
  | none => rfl
  | some one =>
    cases !p.moved && p.square.rank == p.color.pawnRank <;> rfl

private theorem pawnCaptures_eq (b : Board) (p : Piece) :
    pawnCaptures b p = .ok (b.pawnCaptures p) := by
  have hfits : ∀ d ∈ [(p.color.forward, -1), (p.color.forward, 1)], Fits d := by
    cases p.color <;> decide
  have hplaces := places_eq (s := p.square) hfits
  change places p.square [(.ofInt p.color.forward, -1), (.ofInt p.color.forward, 1)] = _ at hplaces
  rw [pawnCaptures, hplaces, ok_bind]
  rfl

private theorem targets_eq (b : Board) (p : Piece) (captures : Bool) :
    targets b p captures = .ok (b.targets p captures) := by
  have hstraight : ∀ d ∈ straightShifts, d ∈ kingShifts := fun d hd => List.mem_append_left _ hd
  have hdiagonal : ∀ d ∈ diagonalShifts, d ∈ kingShifts := fun d hd => List.mem_append_right _ hd
  rw [targets, Board.targets]
  cases p.kind with
  | pawn =>
    simp only [pawnAdvances_eq, pawnCaptures_eq, ok_bind]
    cases captures with
    | true => rfl
    | false => simp
  | knight => exact steps_eq fun d hd => fits_of_mem_knightShifts hd
  | bishop => exact slides_eq hdiagonal
  | rook => exact slides_eq hstraight
  | queen =>
    simp only [slides_eq hstraight, slides_eq hdiagonal, ok_bind, Board.slides, List.flatMap_append]
    rfl
  | king => exact steps_eq fun d hd => fits_of_mem_kingShifts hd

private theorem reach_eq (b : Board) (p : Piece) (captures : Bool) :
    reach b p captures = .ok (b.reach p captures) := by
  rw [reach, targets_eq]
  rfl

end Targets

section Castles

private theorem kingHome_eq (c : Color) :
    kingHome c = .ok c.kingHome := squareKnown_coordinate c.kingHome

private theorem rookHome_eq (c : Color) (side : CastleSide) :
    rookHome c side = .ok (c.rookHome side) := by
  cases side with
  | king => exact squareKnown_coordinate (c.rookHome .king)
  | queen => exact squareKnown_coordinate (c.rookHome .queen)

private theorem filesBetween_coordinate (low high : Fin 8) :
    filesBetween (coordinate low) (coordinate high) =
      .ok (((List.finRange 8).filter fun n => low < n ∧ n < high).map coordinate) := by
  have hfirst : ((coordinate low).toNat : Int) + 1 = (low.val + 1 : Nat) := by
    revert low
    decide
  rw [filesBetween, hfirst, byte_natCast (by omega), ok_bind]
  refine congrArg Except.ok ?_
  revert low high
  decide

/-- Every file between king and rook names a square of the back rank. -/
theorem isBlocked_eq (b : Board) (side : CastleSide) (c : Color) :
    isBlocked b c kingFile side.rookFile =
      .ok ((c.castlePath side).any fun s => (b.occupant s).isSome) := by
  have hpath : ((List.finRange 8).filter fun n => (ordered kingFile side.rookFile).1 < n ∧
      n < (ordered kingFile side.rookFile).2) = side.pathFiles := by
    cases side <;> decide
  rw [isBlocked, filesBetween_coordinate, hpath, ok_bind, Color.castlePath, List.any_map]
  apply anyM_map_eq_ok
  intro file _
  rw [squareKnown_coordinate ⟨c.backRank, file⟩]
  rfl

private theorem castledFiles_eq (side : CastleSide) :
    castledFiles side = .ok (coordinate side.kingTargetFile, coordinate side.rookTargetFile) := by
  cases side <;> rfl

private theorem castleObstacle?_eq (b : Board) (side : CastleSide) (c : Color) :
    castleObstacle? b side c = .ok (b.castleObstacle? side c) := by
  rw [castleObstacle?, Board.castleObstacle?, kingHome_eq, ok_bind, rookHome_eq, ok_bind]
  cases hking : b.occupant c.kingHome with
  | none => rfl
  | some king =>
    cases hrook : b.occupant (c.rookHome side) with
    | none => rfl
    | some rook =>
      dsimp only
      split
      · rfl
      split
      · rfl
      rw [Color.kingHome, Color.rookHome, isBlocked_eq, ok_bind]
      rfl

private theorem castle_eq (b : Board) (side : CastleSide) (c : Color) :
    castle b side c = .ok (b.castle side c) := by
  have hking : squareKnown (coordinate c.backRank) (coordinate side.kingTargetFile) =
      .ok (c.kingCastled side) := squareKnown_coordinate (c.kingCastled side)
  have hrook : squareKnown (coordinate c.backRank) (coordinate side.rookTargetFile) =
      .ok (c.rookCastled side) := squareKnown_coordinate (c.rookCastled side)
  rw [castle, Board.castle, Board.castleReady, kingHome_eq, ok_bind, rookHome_eq, ok_bind]
  cases b.occupant c.kingHome with
  | none => rfl
  | some king =>
    cases b.occupant (c.rookHome side) with
    | none => rfl
    | some rook =>
      simp only [castledFiles_eq, hking, hrook, ok_bind]
      rfl

end Castles

/-- No check ever strikes. A token of any characters is read or refused as it would be without the
checks, and never refused for coordinates beyond the board. A line is cut between two of its characters.
On whatever board, a castle is judged and executed over squares of the board, and adding displacements
to find what a piece reaches stays within a signed byte. -/
theorem reading_and_moving_never_trap :
    (∀ token, (∀ half, Untrapped (square token half)) ∧ Untrapped (kind token) ∧
      Untrapped (movement token) ∧ Untrapped (placement token)) ∧
    (∀ token, square token .source = answer (Movement.sourceOf token) ∧
      square token .target = answer (Movement.targetOf token) ∧
      kind token = answer (Movement.kindOf token) ∧
      movement token = answer (Movement.ofToken token) ∧
      placement token = answer (Placement.ofToken token)) ∧
    (∀ token cs offset t, squareAt token cs offset ≠ .error (.refused (.wrongLength t))) ∧
    (∀ line, stripComment line = .ok (Directive.stripComment line)) ∧
    (∀ b side c, castleObstacle? b side c = .ok (b.castleObstacle? side c) ∧
      castle b side c = .ok (b.castle side c)) ∧
    ∀ b p captures, reach b p captures = .ok (b.reach p captures) := by
  refine ⟨fun token => ⟨fun half => ?_, ?_, ?_, ?_⟩, fun token => ⟨?_, ?_, ?_, ?_, ?_⟩, ?_, ?_,
    fun b side c => ⟨?_, ?_⟩, ?_⟩
  · exact square_eq token half ▸ untrapped_answer _
  · exact kind_eq token ▸ untrapped_answer _
  · exact movement_eq token ▸ untrapped_answer _
  · exact placement_eq token ▸ untrapped_answer _
  · exact square_eq token .source
  · exact square_eq token .target
  · exact kind_eq token
  · exact movement_eq token
  · exact placement_eq token
  · exact squareAt_ne_wrongLength
  · exact stripComment_eq
  · exact castleObstacle?_eq b side c
  · exact castle_eq b side c
  · exact reach_eq

end Scoresheet.Machine
