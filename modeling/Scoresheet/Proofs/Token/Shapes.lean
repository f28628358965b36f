import Scoresheet.Proofs.Token.Framing
import Scoresheet.Proofs.Token.Recognition
/-!
# The shapes of tokens

The three shapes exclude one another: the second character of a token of four tells a placement from
a movement, and no movement has the letter of a castle. So a line whose words all have the shape of
an action asks for these actions, if there are one or two, whatever blanks stand around them.
-/
namespace Scoresheet.Directive

open Text (AllBlank BlankFree words)

variable {token first second line : String} {tokens : List String}

private theorem isRank_of_isColorMarker {c : Char} (h : isColorMarker c = true) :
    isRank c = false := by
  have hall : ("ldLD".toList.all fun marker => !isRank marker) = true := by decide
  simpa using List.all_eq_true.mp hall c (List.contains_iff_mem.mp h)

private theorem hasMovementShape_of_hasPlacementShape {cs : List Char}
    (h : hasPlacementShape cs = true) :
    hasMovementShape cs = false := by
  unfold hasPlacementShape at h
  split at h
  · next piece color file rank =>
    simp only [Bool.and_eq_true] at h
    simp [hasMovementShape, hasSpanShape, isRank_of_isColorMarker h.1.1.2]
  · cases h

private theorem isPlacement_castle (side : CastleSide) : isPlacement side.token = false := by
  cases side <;> decide

theorem isPlacement_of_isAction (h : isAction token = true) : isPlacement token = false := by
  rcases Bool.or_eq_true_iff.mp h with h | h
  · apply Bool.eq_false_iff.mpr
    intro hplacement
    have hno := hasMovementShape_of_hasPlacementShape hplacement
    rw [isMovement, hno] at h
    cases h
  · obtain ⟨side, rfl⟩ := isCastle_iff.mp h
    exact isPlacement_castle side

private theorem blankFree_of_isAction (h : isAction token = true) : BlankFree token.toList := by
  have hall : BlankFree actionAlphabet := by decide
  intro c hc
  exact hall c (mem_actionAlphabet_of_isAction h c hc)

private theorem words_of_isAction (h : isAction token = true) :
    words token.toList = [token.toList] := by
  apply Text.words_of_blankFree (blankFree_of_isAction h)
  intro hnil
  rw [isAction, isMovement, isCastle, hnil] at h
  cases h

private theorem actions?_ofTokens {content : String} (hne : tokens ≠ [])
    (hfew : tokens.length ≤ mostActions) (hall : ∀ token ∈ tokens, isAction token = true) :
    (ofTokens content tokens).actions? = some tokens := by
  have hactions : (ofActions content tokens).actions? = some tokens := by
    rw [ofActions, decide_eq_true hfew, List.all_eq_true.mpr hall]
    cases tokens.any isCastle <;> rfl
  unfold ofTokens
  split
  · next token =>
    rw [isPlacement_of_isAction (hall token List.mem_cons_self)]
    exact hactions
  · exact hactions

private theorem actions?_of_words (hslash : '/' ∉ line.toList)
    (hwords : words line.toList = tokens.map String.toList) (hne : tokens ≠ [])
    (hfew : tokens.length ≤ mostActions) (hall : ∀ token ∈ tokens, isAction token = true) :
    (ofLine line).actions? = some tokens := by
  have hcontent : words (contentChars line) = tokens.map String.toList := by
    rw [contentChars, beforeComment_of_not_mem hslash, Text.words_trim, hwords]
  have hfilled : (contentChars line).isEmpty = false := by
    apply Bool.eq_false_iff.mpr
    intro hempty
    rw [List.isEmpty_iff.mp hempty] at hcontent
    exact hne (List.map_eq_nil_iff.mp hcontent.symm)
  have htokens : (words (contentChars line)).map String.ofList = tokens := by
    rw [hcontent, List.map_map]
    simp [Function.comp_def]
  rw [ofLine_eq, hfilled, htokens]
  exact actions?_ofTokens hne hfew hall

section Padded

variable {before between behind : String}

theorem actions?_single (hbefore : AllBlank before.toList) (hbehind : AllBlank behind.toList)
    (h : isAction token = true) :
    (ofLine (before ++ token ++ behind)).actions? = some [token] := by
  have hslash : '/' ∉ token.toList := not_mem_of_isAction h (by decide)
  apply actions?_of_words _ _ (List.cons_ne_nil _ _) (by simp [mostActions]) (by simpa using h)
  · simp [not_slash_of_allBlank hbefore, not_slash_of_allBlank hbehind, hslash]
  · rw [String.toList_append, String.toList_append, Text.words_append_of_blank hbehind,
      Text.words_blank_append hbefore, words_of_isAction h]
    rfl

theorem actions?_pair (hbefore : AllBlank before.toList) (hbetween : AllBlank between.toList)
    (hne : between ≠ "") (hbehind : AllBlank behind.toList) (hfirst : isAction first = true)
    (hsecond : isAction second = true) :
    (ofLine (before ++ first ++ between ++ second ++ behind)).actions? = some [first, second] := by
  have hslash : '/' ∉ first.toList := not_mem_of_isAction hfirst (by decide)
  have hslash' : '/' ∉ second.toList := not_mem_of_isAction hsecond (by decide)
  have hgap : between.toList ≠ [] := fun hnil => hne (String.toList_inj.mp hnil)
  apply actions?_of_words _ _ (List.cons_ne_nil _ _) (by simp [mostActions]) (by simp [hfirst, hsecond])
  · simp [not_slash_of_allBlank hbefore, not_slash_of_allBlank hbetween,
      not_slash_of_allBlank hbehind, hslash, hslash']
  · simp only [String.toList_append]
    rw [Text.words_append_of_blank hbehind, List.append_assoc, Text.words_append_blank hbetween hgap,
      Text.words_blank_append hbefore, words_of_isAction hfirst, words_of_isAction hsecond]
    rfl

end Padded

end Scoresheet.Directive
