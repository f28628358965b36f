import Scoresheet.Proofs.Text.OneLine
/-!
# Cutting into lines

A byte string is cut into the same lines whether it is cut as a whole or at one of its line feeds
first, and whether it is cut before it is read or after.
-/
namespace Scoresheet.Text

section DropEmptyEnd

variable {α β : Type}

private theorem dropEmptyEnd_append {xs ys : List (List α)} (h : ys ≠ []) :
    dropEmptyEnd (xs ++ ys) = xs ++ dropEmptyEnd ys := by
  have hlast : (xs ++ ys).getLast? = ys.getLast? := by
    rw [List.getLast?_append, List.getLast?_eq_some_getLast h]
    rfl
  unfold dropEmptyEnd
  rw [hlast]
  split
  · rw [List.dropLast_append_of_ne_nil h]
  · rfl

private theorem dropEmptyEnd_map {f : List α → List β} (hf : ∀ xs, f xs = [] ↔ xs = [])
    (found : List (List α)) : dropEmptyEnd (found.map f) = (dropEmptyEnd found).map f := by
  unfold dropEmptyEnd
  rw [List.getLast?_map]
  cases found.getLast? with
  | none => rfl
  | some last =>
    cases last with
    | nil => simp [(hf []).mpr rfl]
    | cons x xs =>
      have hne : f (x :: xs) ≠ [] := fun h => List.cons_ne_nil x xs ((hf _).mp h)
      obtain ⟨y, ys, hy⟩ := List.exists_cons_of_ne_nil hne
      simp [hy]

end DropEmptyEnd

def splitLines (text : String) : List String :=
  (dropEmptyEnd (pieces (· == '\n') text.toList)).map String.ofList

variable {bytes : List UInt8}

private theorem pieces_of_lineFeed_not_mem (h : lineFeed ∉ bytes) :
    pieces (· == lineFeed) bytes = [bytes] :=
  pieces_of_no_separator _ _ (Utf8.beq_eq_false_of_not_mem h)

private theorem lines_append_lineFeed (before behind : List UInt8) :
    lines (before ++ lineFeed :: behind) = pieces (· == lineFeed) before ++ lines behind := by
  rw [lines, pieces_append_separator (· == lineFeed) _ _ _ (beq_self_eq_true lineFeed),
    dropEmptyEnd_append (pieces_ne_nil _ _), lines]

theorem lines_append (before behind : List UInt8) :
    lines (before ++ lineFeed :: behind) = lines (before ++ [lineFeed]) ++ lines behind := by
  rw [lines_append_lineFeed, lines_append_lineFeed, lines_nil, List.append_nil]

private theorem lines_cons {line : Line} (h : lineFeed ∉ line) (behind : List UInt8) :
    lines (line ++ lineFeed :: behind) = line :: lines behind := by
  rw [lines_append_lineFeed, pieces_of_lineFeed_not_mem h, List.singleton_append]

theorem lines_ended (h : lineFeed ∉ bytes) : lines (bytes ++ [lineFeed]) = [bytes] := by
  rw [lines_cons h, lines_nil]

theorem lines_unended (h : lineFeed ∉ bytes) (hne : bytes ≠ []) : lines bytes = [bytes] := by
  obtain ⟨b, rest, rfl⟩ := List.exists_cons_of_ne_nil hne
  rw [lines, pieces_of_lineFeed_not_mem h]
  rfl

theorem lines_eq_nil_iff : lines bytes = [] ↔ bytes = [] := by
  constructor
  · intro h
    by_cases hf : lineFeed ∈ bytes
    · obtain ⟨as, bs, rfl⟩ := List.append_of_mem hf
      rw [lines_append_lineFeed] at h
      exact absurd (List.append_eq_nil_iff.mp h).1 (pieces_ne_nil _ _)
    · cases bytes with
      | nil => rfl
      | cons b bytes => simp [lines_unended hf] at h
  · rintro rfl
    rfl

private theorem exists_of_lines_eq_cons {line : Line} {rest : List Line}
    (h : lines bytes = line :: rest) :
    (bytes = line ∧ rest = []) ∨
      ∃ behind, bytes = line ++ lineFeed :: behind ∧ lines behind = rest := by
  by_cases hf : lineFeed ∈ bytes
  · obtain ⟨as, bs, rfl, has⟩ := List.eq_append_cons_of_mem hf
    rw [lines_cons has] at h
    obtain ⟨rfl, hrest⟩ := List.cons.inj h
    exact .inr ⟨bs, rfl, hrest⟩
  · have hne : bytes ≠ [] := fun hb => by simp [hb] at h
    rw [lines_unended hf hne] at h
    obtain ⟨rfl, hrest⟩ := List.cons.inj h
    exact .inl ⟨rfl, hrest.symm⟩

theorem exists_taken {found rest : List Line} (h : lines bytes = found ++ rest) :
    ∃ taken left, bytes = taken ++ left ∧ lines taken = found ∧ lines left = rest ∧
      (left = [] ∨ ∀ b ∈ taken.getLast?, b = lineFeed) := by
  induction found generalizing bytes with
  | nil => exact ⟨[], bytes, rfl, rfl, h, .inr (by simp)⟩
  | cons line found ih =>
    rcases exists_of_lines_eq_cons h with ⟨rfl, hnone⟩ | ⟨behind, rfl, hbehind⟩
    · obtain ⟨rfl, rfl⟩ := List.append_eq_nil_iff.mp hnone
      exact ⟨bytes, [], (List.append_nil _).symm, h, rfl, .inl rfl⟩
    · have hmem : line ∈ lines (line ++ lineFeed :: behind) := by simp [h]
      have hline := lineFeed_not_mem_of_mem_lines hmem
      obtain ⟨taken, left, rfl, htaken, hleft, hend⟩ := ih hbehind
      refine ⟨line ++ lineFeed :: taken, left, by simp, ?_, hleft, ?_⟩
      · rw [lines_cons hline, htaken]
      · apply hend.imp_right
        intro hlast b hb
        cases hl : taken.getLast? with
        | none => simpa [List.getLast?_append, List.getLast?_cons, hl, eq_comm] using hb
        | some last =>
          have hb : last = b := by simpa [List.getLast?_append, List.getLast?_cons, hl] using hb
          rw [← hb, hlast last hl]

/-- A byte string that is read and then cut has the lines that it is cut into, each read by itself. -/
theorem splitLines_lossy (bytes : List UInt8) :
    splitLines (Utf8.lossy bytes) = (lines bytes).map Utf8.lossy := by
  have hread : (Utf8.lossy bytes).toList = Utf8.lossyChars bytes := rfl
  have hline : String.ofList ∘ Utf8.lossyChars = Utf8.lossy := by
    funext line
    exact String.ofList_toList
  rw [splitLines, hread, Utf8.isByteOf_lineFeed.pieces_lossyChars,
    dropEmptyEnd_map fun _ => Utf8.lossyChars_eq_nil_iff, List.map_map, hline, lines]

end Scoresheet.Text
