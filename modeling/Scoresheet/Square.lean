/-!
# Squares

The 64 squares in their order, a1 to h1, then a2 to h2, up to h8; their written forms; and the
displacement that stays on the board.
-/
namespace Scoresheet

/-- A square by rank and file, both counted from zero. -/
structure Square where
  rank : Fin 8
  file : Fin 8
deriving DecidableEq, Repr

namespace Square

def index (s : Square) : Fin 64 := ⟨8 * s.rank.val + s.file.val, by omega⟩

theorem index_injective {s t : Square} (h : s.index = t.index) : s = t := by
  obtain ⟨r, f⟩ := s
  obtain ⟨r', f'⟩ := t
  simp only [index, Fin.mk.injEq] at h
  rw [Square.mk.injEq, Fin.ext_iff, Fin.ext_iff]
  omega

instance : LE Square := ⟨fun s t => s.index ≤ t.index⟩

instance (s t : Square) : Decidable (s ≤ t) := inferInstanceAs (Decidable (s.index ≤ t.index))

def all : List Square :=
  (List.finRange 8).flatMap fun r => (List.finRange 8).map fun f => ⟨r, f⟩

@[simp] theorem mem_all (s : Square) : s ∈ all := by
  obtain ⟨r, f⟩ := s
  simp [all]

theorem pairwise_all : all.Pairwise fun s t => s.index < t.index := by decide

/-- Puts squares in order and keeps repeated ones. -/
def sort (squares : List Square) : List Square := squares.mergeSort fun s t => decide (s ≤ t)

def at? (rank file : Int) : Option Square :=
  if h : (0 ≤ rank ∧ rank < 8) ∧ (0 ≤ file ∧ file < 8) then
    some ⟨⟨rank.toNat, by omega⟩, ⟨file.toNat, by omega⟩⟩
  else none

/-- The square so many ranks up and files to the right, if it lies on the board. -/
def offset? (s : Square) (ranks files : Int) : Option Square :=
  at? (s.rank.val + ranks) (s.file.val + files)

theorem at?_eq_some_iff {rank file : Int} {s : Square} :
    at? rank file = some s ↔ rank = s.rank.val ∧ file = s.file.val := by
  obtain ⟨r, f⟩ := s
  unfold at?
  split
  · rw [Option.some.injEq, Square.mk.injEq, Fin.ext_iff, Fin.ext_iff]
    simp only
    omega
  · simp only [reduceCtorEq, false_iff]
    omega

theorem offset?_eq_some_iff {s t : Square} {ranks files : Int} :
    s.offset? ranks files = some t ↔
      s.rank.val + ranks = t.rank.val ∧ s.file.val + files = t.file.val := at?_eq_some_iff

def fileLetter (file : Fin 8) : Char := Char.ofNat ('a'.toNat + file.val)

def fileCapital (file : Fin 8) : Char := Char.ofNat ('A'.toNat + file.val)

def rankDigit (rank : Fin 8) : Char := Char.ofNat ('1'.toNat + rank.val)

def fileOf? (c : Char) : Option (Fin 8) :=
  (List.finRange 8).find? fun file => fileLetter file == c.toLower

def rankOf? (c : Char) : Option (Fin 8) :=
  (List.finRange 8).find? fun rank => rankDigit rank == c

def ofChars? (file rank : Char) : Option Square :=
  match fileOf? file, rankOf? rank with
  | some f, some r => some ⟨r, f⟩
  | _, _ => none

/-- The square that a text such as `e4` names. -/
def ofName? (text : String) : Option Square :=
  match text.toList with
  | [file, rank] => ofChars? file rank
  | _ => none

def chars (s : Square) : List Char := [fileLetter s.file, rankDigit s.rank]

/-- The name used in tokens, such as `e4`. -/
def name (s : Square) : String := String.ofList s.chars

/-- The name used in the log and the menus, such as `E4`. -/
def capitalName (s : Square) : String := String.ofList [fileCapital s.file, rankDigit s.rank]

@[simp] theorem fileOf?_fileLetter (file : Fin 8) : fileOf? (fileLetter file) = some file := by
  revert file; decide

@[simp] theorem fileOf?_fileCapital (file : Fin 8) : fileOf? (fileCapital file) = some file := by
  revert file; decide

@[simp] theorem rankOf?_rankDigit (rank : Fin 8) : rankOf? (rankDigit rank) = some rank := by
  revert rank; decide

theorem toLower_fileLetter (file : Fin 8) : (fileLetter file).toLower = fileLetter file := by
  revert file; decide

theorem fileOf?_eq_some_iff {c : Char} {file : Fin 8} :
    fileOf? c = some file ↔ c.toLower = fileLetter file := by
  constructor
  · intro h
    have hf := List.find?_some h
    exact (beq_iff_eq.mp hf).symm
  · intro h
    have hl : fileOf? (fileLetter file) = some file := fileOf?_fileLetter file
    rw [fileOf?, toLower_fileLetter] at hl
    rw [fileOf?, h, hl]

theorem rankOf?_eq_some_iff {c : Char} {rank : Fin 8} :
    rankOf? c = some rank ↔ c = rankDigit rank := by
  constructor
  · intro h
    have hr := List.find?_some h
    exact (beq_iff_eq.mp hr).symm
  · rintro rfl
    exact rankOf?_rankDigit rank

/-- A square's name is read back as the square. -/
theorem ofName?_name (s : Square) : ofName? s.name = some s := by
  simp [ofName?, name, chars, ofChars?]

end Square

end Scoresheet
