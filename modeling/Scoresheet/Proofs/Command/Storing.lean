import Scoresheet.Command.FileTable
/-!
# Storing a file

A stored file is found with its new content, and all that was found elsewhere is found as before:
a path that led to a file still leads there.
-/
namespace Scoresheet.Command.FileTable

variable {t : FileTable} {place other : Place} {bytes : List UInt8}

@[simp] theorem content?_store_self (t : FileTable) (place : Place) (bytes : List UInt8) :
    (t.store place bytes).content? place = some bytes := by
  simp [content?, store]

private theorem content?_store_of_ne (h : other ≠ place) :
    (t.store place bytes).content? other = t.content? other := by
  have hplace : (place == other) = false := beq_false_of_ne h.symm
  have hfind : (t.files.filter fun file => file.1 != place).find? (·.1 == other) =
      t.files.find? (·.1 == other) := by
    rw [List.find?_filter]
    congr 1
    funext file
    by_cases hfile : file.1 = other
    · simp [hfile, h]
    · simp [hfile]
  simp only [content?, store, List.find?_cons, hplace, hfind]

private theorem isSome_content?_store (h : (t.content? other).isSome) :
    ((t.store place bytes).content? other).isSome := by
  by_cases hother : other = place
  · rw [hother, content?_store_self]
    rfl
  · rwa [content?_store_of_ne hother]

@[simp] theorem isDirectory_store (t : FileTable) (place : Place) (bytes : List UInt8) :
    (t.store place bytes).isDirectory = t.isDirectory := rfl

private theorem follow_store {here source : Place} {parts : List String}
    (h : t.follow here parts = .file source) :
    (t.store place bytes).follow here parts = .file source := by
  induction parts generalizing here with
  | nil => cases h
  | cons part rest ih =>
    rw [follow, isDirectory_store]
    rw [follow] at h
    by_cases hname : (!isName part) = true
    · rw [if_pos hname] at h ⊢
      exact ih h
    rw [if_neg hname] at h ⊢
    by_cases hlong : nameBytes < part.utf8ByteSize
    · rw [if_pos hlong] at h
      split at h <;> cases h
    rw [if_neg hlong] at h ⊢
    by_cases hdir : t.isDirectory (here ++ [part]) = true
    · rw [if_pos hdir] at h ⊢
      exact ih h
    rw [if_neg hdir] at h ⊢
    by_cases hfile : (t.content? (here ++ [part])).isSome = true
    · rw [if_pos hfile] at h
      rwa [if_pos (isSome_content?_store hfile)]
    · rw [if_neg hfile] at h
      split at h <;> cases h

private theorem locate_store {path : String} {source : Place} (h : t.locate path = .file source) :
    (t.store place bytes).locate path = .file source := by
  unfold locate at h ⊢
  split
  · next hlong =>
    rw [if_pos hlong] at h
    cases h
  · next hlong =>
    rw [if_neg hlong] at h
    exact follow_store h

private theorem openFile_eq_content_iff {path : String} {found : List UInt8} :
    t.openFile path = .content found ↔
      ∃ source, t.locate path = .file source ∧ (t.content? source).getD [] = found := by
  unfold openFile
  cases t.locate path <;> simp

/-- A file that is read is read as before when another one is stored. -/
theorem openFile_store {path : String} {found : List UInt8} (h : t.openFile path = .content found)
    (hother : t.locate path ≠ .file place) :
    (t.store place bytes).openFile path = .content found := by
  obtain ⟨source, hsource, hfound⟩ := openFile_eq_content_iff.mp h
  have hne : source ≠ place := by
    rintro rfl
    exact hother hsource
  refine openFile_eq_content_iff.mpr ⟨source, locate_store hsource, ?_⟩
  rw [content?_store_of_ne hne, hfound]

end Scoresheet.Command.FileTable
