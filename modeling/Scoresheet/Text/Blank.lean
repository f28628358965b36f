/-!
# Blanks and words

The characters with the Unicode property White_Space, and cutting a text at them. A text is handled
as its list of characters.
-/
namespace Scoresheet.Text

/-- The closed ranges of code points that have the property White_Space. -/
def blankRanges : List (Nat × Nat) :=
  [(0x09, 0x0D), (0x20, 0x20), (0x85, 0x85), (0xA0, 0xA0), (0x1680, 0x1680), (0x2000, 0x200A),
    (0x2028, 0x2029), (0x202F, 0x202F), (0x205F, 0x205F), (0x3000, 0x3000)]

/-- White space in Unicode's sense; the zero-width characters are not blank. -/
def isBlank (c : Char) : Bool :=
  blankRanges.any fun range => range.1 ≤ c.toNat && c.toNat ≤ range.2

def dropEndWhile (p : Char → Bool) (cs : List Char) : List Char :=
  (cs.reverse.dropWhile p).reverse

def trim (cs : List Char) : List Char :=
  dropEndWhile isBlank (cs.dropWhile isBlank)

/-- The pieces between the separators, empty ones included: always one more than there are
separators. -/
def pieces {α : Type} (separates : α → Bool) (xs : List α) : List (List α) :=
  xs.foldr (fun x found =>
    if separates x then [] :: found else (x :: found.headD []) :: found.tail) [[]]

/-- The maximal blank-free runs. -/
def words (cs : List Char) : List (List Char) :=
  (pieces isBlank cs).filter fun w => !w.isEmpty

section Pieces

variable {α : Type} (separates : α → Bool)

@[simp] theorem pieces_nil : pieces separates [] = [[]] := rfl

theorem pieces_cons (x : α) (xs : List α) :
    pieces separates (x :: xs) =
      if separates x then [] :: pieces separates xs
      else (x :: (pieces separates xs).headD []) :: (pieces separates xs).tail := rfl

theorem pieces_ne_nil (xs : List α) : pieces separates xs ≠ [] := by
  cases xs with
  | nil => simp
  | cons x xs => rw [pieces_cons]; split <;> simp

theorem pieces_append_separator (xs ys : List α) (x : α) (h : separates x = true) :
    pieces separates (xs ++ x :: ys) = pieces separates xs ++ pieces separates ys := by
  induction xs with
  | nil => simp [pieces_cons, h]
  | cons z zs ih =>
    rw [List.cons_append, pieces_cons, pieces_cons, ih]
    split
    · rfl
    · obtain ⟨w, ws, hw⟩ := List.exists_cons_of_ne_nil (pieces_ne_nil separates zs)
      simp [hw]

theorem pieces_of_no_separator (xs : List α) (h : ∀ x ∈ xs, separates x = false) :
    pieces separates xs = [xs] := by
  induction xs with
  | nil => rfl
  | cons x xs ih =>
    rw [pieces_cons, h x (by simp), ih fun y hy => h y (by simp [hy])]
    simp

end Pieces

theorem dropEndWhile_append_of_all (p : Char → Bool) (cs ds : List Char)
    (h : ∀ c ∈ ds, p c = true) : dropEndWhile p (cs ++ ds) = dropEndWhile p cs := by
  unfold dropEndWhile
  rw [List.reverse_append, List.dropWhile_append_of_pos]
  simpa using h

end Scoresheet.Text
