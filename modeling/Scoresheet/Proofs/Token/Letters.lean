import Scoresheet.Directive
import Scoresheet.Piece
/-!
# The letters of tokens

The letters that the shapes of directives go by are those that name something: a file, a rank, a
kind. No letter names both a file and a rank, and the marks between squares name neither.
-/
namespace Scoresheet

namespace Square

variable {c d : Char}

private theorem isUpper_iff {c : Char} : c.isUpper = true ↔ c.val ≥ 'A'.val ∧ c.val ≤ 'Z'.val :=
  decide_eq_true_iff

theorem toNat_toLower_of_isUpper {c : Char} (h : c.isUpper = true) :
    c.toLower.toNat = c.toNat + 32 := by
  have hc := isUpper_iff.mp h
  have hv : c.val.toNat = c.toNat := rfl
  have hZ : c.val.toNat ≤ 90 := UInt32.le_iff_toNat_le.mp hc.2
  have hl : c.toLower.val = c.val + 32 := congrArg Char.val (dif_pos hc)
  rw [← Char.toNat_val, hl, UInt32.toNat_add, hv]
  change (c.toNat + 32) % 4294967296 = c.toNat + 32
  omega

theorem toLower_of_not_isUpper {c : Char} (h : c.isUpper = false) : c.toLower = c :=
  dif_neg fun hc => Bool.eq_false_iff.mp h (isUpper_iff.mpr hc)

private theorem isUpper_iff_toNat : c.isUpper = true ↔ 65 ≤ c.toNat ∧ c.toNat ≤ 90 := by
  rw [isUpper_iff, ge_iff_le, UInt32.le_iff_toNat_le, UInt32.le_iff_toNat_le]
  exact Iff.rfl

private theorem isLower_iff : c.isLower = true ↔ 'a'.val ≤ c.val ∧ c.val ≤ 'z'.val := by
  change (decide ('a'.val ≤ c.val) && decide (c.val ≤ 'z'.val)) = true ↔ _
  rw [Bool.and_eq_true, decide_eq_true_iff, decide_eq_true_iff]

private theorem isLower_iff_toNat : c.isLower = true ↔ 97 ≤ c.toNat ∧ c.toNat ≤ 122 := by
  rw [isLower_iff, UInt32.le_iff_toNat_le, UInt32.le_iff_toNat_le]
  exact Iff.rfl

private theorem toUpper_of_not_isLower (h : c.isLower = false) : c.toUpper = c :=
  dif_neg fun hc => Bool.eq_false_iff.mp h (isLower_iff.mpr hc)

private theorem toNat_toUpper_of_isLower (h : c.isLower = true) :
    c.toUpper.toNat = c.toNat - 32 := by
  have hn := isLower_iff_toNat.mp h
  have hu : c.toUpper.toNat = (c.val + ('A'.val - 'a'.val)).toNat := by
    delta Char.toUpper
    rw [dif_pos (isLower_iff.mp h)]
    rfl
  rw [hu, UInt32.toNat_add, Char.toNat_val, show ('A'.val - 'a'.val).toNat = 4294967264 by decide]
  omega

theorem toUpper_eq_iff (h : d.isUpper = true) : c.toUpper = d ↔ c = d ∨ c = d.toLower := by
  have hd := isUpper_iff_toNat.mp h
  have hsmall := toNat_toLower_of_isUpper h
  simp only [← Char.toNat_inj]
  by_cases hc : c.isLower = true
  · have hupper := toNat_toUpper_of_isLower hc
    have hc := isLower_iff_toNat.mp hc
    omega
  · rw [toUpper_of_not_isLower (Bool.eq_false_iff.mpr hc)]
    rw [isLower_iff_toNat] at hc
    omega

theorem toLower_eq_iff (h : d.isUpper = true) : c.toLower = d.toLower ↔ c = d ∨ c = d.toLower := by
  have hd := isUpper_iff_toNat.mp h
  have hsmall := toNat_toLower_of_isUpper h
  simp only [← Char.toNat_inj]
  by_cases hc : c.isUpper = true
  · have hlower := toNat_toLower_of_isUpper hc
    have hc := isUpper_iff_toNat.mp hc
    omega
  · rw [toLower_of_not_isUpper (Bool.eq_false_iff.mpr hc)]
    rw [isUpper_iff_toNat] at hc
    omega

theorem toNat_fileLetter (file : Fin 8) : (fileLetter file).toNat = 97 + file.val := by
  revert file; decide

private theorem toNat_fileCapital (file : Fin 8) : (fileCapital file).toNat = 65 + file.val := by
  revert file; decide

private theorem fileOf?_eq_some_iff_letter {c : Char} {file : Fin 8} :
    fileOf? c = some file ↔ c = fileLetter file ∨ c = fileCapital file := by
  constructor
  · intro h
    have hl := fileOf?_eq_some_iff.mp h
    by_cases hu : c.isUpper = true
    · right
      have hn := toNat_toLower_of_isUpper hu
      rw [hl, toNat_fileLetter] at hn
      apply Char.toNat_inj.mp
      rw [toNat_fileCapital]
      omega
    · left
      rw [← hl, toLower_of_not_isUpper (Bool.eq_false_iff.mpr hu)]
  · rintro (rfl | rfl)
    · exact fileOf?_fileLetter file
    · exact fileOf?_fileCapital file

theorem ofChars?_eq_some_iff {file rank : Char} {s : Square} :
    ofChars? file rank = some s ↔ fileOf? file = some s.file ∧ rankOf? rank = some s.rank := by
  obtain ⟨r, f⟩ := s
  unfold ofChars?
  cases fileOf? file <;> cases rankOf? rank <;> simp [and_comm]

@[simp] theorem isUpper_fileLetter (file : Fin 8) : (fileLetter file).isUpper = false := by
  revert file; decide

@[simp] theorem fileOf?_rankDigit (rank : Fin 8) : fileOf? (rankDigit rank) = none := by
  revert rank; decide

end Square

namespace PieceKind

@[simp] theorem isUpper_letter (k : PieceKind) : k.letter.isUpper = true := by
  cases k <;> decide

end PieceKind

namespace Directive

open Square

theorem contains_iff_names {α : Type} {letters : List Char} {named? : Char → Option α}
    (hsome : (letters.all fun c => (named? c).isSome) = true)
    (hmem : ∀ c a, named? c = some a → c ∈ letters) {c : Char} :
    letters.contains c = true ↔ ∃ a, named? c = some a := by
  rw [List.contains_iff_mem]
  constructor
  · intro h
    exact Option.isSome_iff_exists.mp (List.all_eq_true.mp hsome c h)
  · rintro ⟨a, h⟩
    exact hmem c a h

theorem eq_isSome_of_iff {α : Type} {test : Bool} {named : Option α}
    (h : test = true ↔ ∃ a, named = some a) : test = named.isSome := by
  rw [Bool.eq_iff_iff, h, Option.isSome_iff_exists]

theorem eq_none_of_iff {α : Type} {test : Bool} {named : Option α}
    (h : test = true ↔ ∃ a, named = some a) (ht : test = false) : named = none := by
  rwa [eq_isSome_of_iff h, Option.isSome_eq_false_iff, Option.isNone_iff_eq_none] at ht

theorem isFile_iff {c : Char} : isFile c = true ↔ ∃ file, fileOf? c = some file := by
  apply contains_iff_names (by decide)
  intro d file h
  rcases fileOf?_eq_some_iff_letter.mp h with rfl | rfl <;>
    (clear h; revert file; decide)

theorem isRank_iff {c : Char} : isRank c = true ↔ ∃ rank, rankOf? c = some rank := by
  apply contains_iff_names (by decide)
  intro d rank h
  rw [rankOf?_eq_some_iff.mp h]
  clear h
  revert rank
  decide

theorem isPieceLetter_iff {c : Char} :
    isPieceLetter c = true ↔ ∃ kind, PieceKind.ofLetter? c = some kind := by
  apply contains_iff_names (by decide)
  intro d kind h
  rw [PieceKind.ofLetter?_eq_some_iff.mp h]
  cases kind <;> decide

end Directive

end Scoresheet
