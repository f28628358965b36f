import Scoresheet.Text.Blank
/-!
# Blanks around a text and between its words

Trimming takes away blanks alone, words have none, and both leave a text without blanks as it is.
Blanks around a text change neither.
-/
namespace Scoresheet.Text

def BlankFree (cs : List Char) : Prop := ∀ c ∈ cs, isBlank c = false

instance (cs : List Char) : Decidable (BlankFree cs) :=
  List.decidableBAll (fun c => isBlank c = false) cs

def AllBlank (cs : List Char) : Prop := ∀ c ∈ cs, isBlank c = true

instance (cs : List Char) : Decidable (AllBlank cs) :=
  List.decidableBAll (fun c => isBlank c = true) cs

variable {bs cs ds w : List Char}

private theorem dropWhile_isBlank_of_blankFree (h : BlankFree cs) : cs.dropWhile isBlank = cs := by
  cases cs with
  | nil => rfl
  | cons c cs =>
    have hc : isBlank c = false := h c (by simp)
    rw [List.dropWhile_cons_of_neg (by simp [hc])]

theorem trim_of_blankFree (h : BlankFree cs) : trim cs = cs := by
  have hr : BlankFree cs.reverse := by
    intro c hc
    exact h c (List.mem_reverse.mp hc)
  rw [trim, dropEndWhile, dropWhile_isBlank_of_blankFree h, dropWhile_isBlank_of_blankFree hr,
    List.reverse_reverse]

private theorem forall_mem_takeWhile {p : Char → Bool} : ∀ c ∈ cs.takeWhile p, p c = true := by
  intro c hc
  exact List.all_eq_true.mp List.all_takeWhile c hc

theorem exists_eq_dropEndWhile (p : Char → Bool) (cs : List Char) :
    ∃ behind, cs = dropEndWhile p cs ++ behind ∧ ∀ c ∈ behind, p c = true := by
  refine ⟨(cs.reverse.takeWhile p).reverse, ?_, ?_⟩
  · rw [dropEndWhile, ← List.reverse_append, List.takeWhile_append_dropWhile, List.reverse_reverse]
  · intro c hc
    exact forall_mem_takeWhile c (List.mem_reverse.mp hc)

theorem exists_eq_trim (cs : List Char) : ∃ before behind, cs = before ++ trim cs ++ behind ∧
    (∀ c ∈ before, isBlank c = true) ∧ ∀ c ∈ behind, isBlank c = true := by
  obtain ⟨behind, hkept, hbehind⟩ := exists_eq_dropEndWhile isBlank (cs.dropWhile isBlank)
  refine ⟨cs.takeWhile isBlank, behind, ?_, forall_mem_takeWhile, hbehind⟩
  rw [List.append_assoc, trim, ← hkept, List.takeWhile_append_dropWhile]

theorem mem_trim_iff {c : Char} (h : isBlank c = false) : c ∈ trim cs ↔ c ∈ cs := by
  obtain ⟨before, behind, hcs, hb, he⟩ := exists_eq_trim cs
  have hb' : c ∉ before := fun hc => by simp [hb c hc] at h
  have he' : c ∉ behind := fun hc => by simp [he c hc] at h
  constructor
  · intro hc
    rw [hcs]
    simp [hc]
  · intro hc
    rw [hcs] at hc
    simpa [hb', he'] using hc

theorem pieces_separator_free {α : Type} {separates : α → Bool} {xs piece : List α}
    (h : piece ∈ pieces separates xs) : ∀ x ∈ piece, separates x = false := by
  induction xs generalizing piece with
  | nil =>
    rw [pieces_nil, List.mem_singleton] at h
    simp [h]
  | cons x xs ih =>
    obtain ⟨first, rest, hf⟩ := List.exists_cons_of_ne_nil (pieces_ne_nil separates xs)
    rw [pieces_cons, hf] at h
    split at h
    · rcases List.mem_cons.mp h with rfl | h
      · simp
      · exact ih (hf ▸ h)
    · next hx =>
      rcases List.mem_cons.mp h with rfl | h
      · intro y hy
        rcases List.mem_cons.mp hy with rfl | hy
        · exact Bool.eq_false_iff.mpr hx
        · exact ih (by rw [hf]; simp) y hy
      · exact ih (by rw [hf]; exact List.mem_cons_of_mem _ h)

theorem blankFree_of_mem_words (h : w ∈ words cs) : BlankFree w :=
  pieces_separator_free (List.mem_filter.mp h).1

theorem words_of_blankFree (h : BlankFree cs) (hne : cs ≠ []) : words cs = [cs] := by
  rw [words, pieces_of_no_separator isBlank cs h]
  simp [hne]

theorem words_append_blank (h : AllBlank bs) (hne : bs ≠ []) (cs ds : List Char) :
    words (cs ++ (bs ++ ds)) = words cs ++ words ds := by
  induction bs generalizing cs with
  | nil => exact absurd rfl hne
  | cons b bs ih =>
    obtain ⟨hb, hbs⟩ := List.forall_mem_cons.mp h
    have hcut : words (cs ++ b :: (bs ++ ds)) = words cs ++ words (bs ++ ds) := by
      rw [words, pieces_append_separator _ _ _ _ hb, List.filter_append]
      rfl
    rw [List.cons_append, hcut]
    by_cases hnil : bs = []
    · rw [hnil, List.nil_append]
    · have hrest := ih hbs hnil []
      rw [List.nil_append] at hrest
      rw [hrest]
      rfl

theorem words_blank_append (h : AllBlank bs) (ds : List Char) : words (bs ++ ds) = words ds := by
  by_cases hne : bs = []
  · rw [hne, List.nil_append]
  · exact words_append_blank h hne [] ds

theorem words_append_of_blank (h : AllBlank bs) (cs : List Char) : words (cs ++ bs) = words cs := by
  by_cases hne : bs = []
  · rw [hne, List.append_nil]
  · have hcut := words_append_blank h hne cs []
    rwa [List.append_nil, show words [] = [] from rfl, List.append_nil] at hcut

theorem words_trim (cs : List Char) : words (trim cs) = words cs := by
  obtain ⟨before, behind, hcs, hbefore, hbehind⟩ := exists_eq_trim cs
  calc
    words (trim cs) = words (before ++ (trim cs ++ behind)) := by
      rw [words_blank_append hbefore, words_append_of_blank hbehind]
    _ = words cs := by rw [← List.append_assoc, ← hcs]

theorem trim_append_of_blank (h : AllBlank bs) (cs : List Char) : trim (cs ++ bs) = trim cs := by
  have hbs : bs.dropWhile isBlank = [] := by
    have hall : (bs ++ []).dropWhile isBlank = [].dropWhile isBlank :=
      List.dropWhile_append_of_pos h
    rwa [List.append_nil] at hall
  rw [trim, List.dropWhile_append]
  split
  · next hnil =>
    rw [trim, hbs, List.isEmpty_iff.mp hnil]
  · rw [dropEndWhile_append_of_all isBlank _ _ h, trim]

theorem trim_blank_append (h : AllBlank bs) (cs : List Char) : trim (bs ++ cs) = trim cs := by
  rw [trim, List.dropWhile_append_of_pos h, trim]

end Scoresheet.Text
