import Scoresheet.Proofs.Fallible
import Scoresheet.Proofs.Text.OneLine
import Scoresheet.Proofs.Token.Letters
import Scoresheet.Directive
import Scoresheet.Token.Castle
import Scoresheet.Token.Movement
import Scoresheet.Token.Placement
/-!
# What errors and directives quote

An error about a token quotes that token, and shows no other letter than one of its own. So a token
on one line is complained about on one line. What a directive takes from a line stays on one as well.
-/
namespace Scoresheet

open Fallible

/-- Whether an error quotes a token and no other text; a color marker is shown in its small form. -/
def TokenError.Quotes (token : String) : TokenError → Prop
  | empty => True
  | wrongLength t => t = token
  | noFile t _ => t = token
  | noRank t _ => t = token
  | unknownPiece t letter => t = token ∧ letter ∈ Token.chars token
  | unknownColor t marker => t = token ∧ ∃ c ∈ Token.chars token, marker = c.toLower
  | notCastle t => t = token

variable {token : String} {e : TokenError}

namespace Token

private theorem someChars_ok {cs : List Char} (h : someChars token = .ok cs) :
    cs = chars token := by
  unfold someChars at h
  split at h
  · cases h
  · exact (Except.ok.inj h).symm

private theorem quotes_of_someChars (h : someChars token = .error e) : e.Quotes token := by
  unfold someChars at h
  split at h
  · rw [← Except.error.inj h]
    trivial
  · cases h

private theorem quotes_of_squareAt {cs : List Char} {offset : Nat}
    (h : squareAt token cs offset = .error e) : e.Quotes token := by
  unfold squareAt at h
  split at h
  · cases h
  · rw [← Except.error.inj h]
    rfl
  · rw [← Except.error.inj h]
    rfl

end Token

namespace Movement

private theorem quotes_of_shapedChars (h : shapedChars token = .error e) : e.Quotes token := by
  rcases bind_eq_error.mp h with h | ⟨cs, _, h⟩
  · exact Token.quotes_of_someChars h
  · split at h
    · cases h
    · rw [← Except.error.inj h]
      rfl

private theorem quotes_of_kindOf (h : kindOf token = .error e) : e.Quotes token := by
  rcases bind_eq_error.mp h with h | ⟨cs, hcs, h⟩
  · exact Token.quotes_of_someChars h
  · obtain rfl := Token.someChars_ok hcs
    split at h
    · cases h
    · next letter hletter =>
      split at h
      · split at h
        · cases h
        · rw [← Except.error.inj h]
          exact ⟨rfl, List.mem_of_head? hletter⟩
      · cases h

theorem quotes_of_ofToken (h : ofToken token = .error e) : e.Quotes token := by
  have hsquare (offset : List Char → Nat)
      (h : (shapedChars token >>= fun cs => Token.squareAt token cs (offset cs)) = .error e) :
      e.Quotes token := by
    rcases bind_eq_error.mp h with h | ⟨cs, _, h⟩
    · exact quotes_of_shapedChars h
    · exact Token.quotes_of_squareAt h
  rcases bind_eq_error.mp h with h | ⟨kind, _, h⟩
  · exact quotes_of_kindOf h
  rcases bind_eq_error.mp h with h | ⟨source, _, h⟩
  · exact hsquare squareStart h
  rcases bind_eq_error.mp h with h | ⟨target, _, h⟩
  · exact hsquare (fun cs => cs.length - 2) h
  · cases h

end Movement

theorem CastleSide.quotes_of_ofToken (h : ofToken token = .error e) : e.Quotes token := by
  unfold ofToken at h
  split at h
  · cases h
  split at h
  · cases h
  · rw [← Except.error.inj h]
    rfl

theorem Placement.quotes_of_ofToken (h : ofToken token = .error e) : e.Quotes token := by
  rcases bind_eq_error.mp h with h | ⟨cs, hcs, h⟩
  · exact Token.quotes_of_someChars h
  have hown := Token.someChars_ok hcs
  split at h
  · next letter marker file rank =>
    split at h
    · rw [← Except.error.inj h]
      exact ⟨rfl, by simp [← hown]⟩
    · split at h
      · rw [← Except.error.inj h]
        exact ⟨rfl, marker, by simp [← hown], rfl⟩
      · rcases bind_eq_error.mp h with h | ⟨square, _, h⟩
        · exact Token.quotes_of_squareAt h
        · cases h
  · rw [← Except.error.inj h]
    rfl

private theorem toLower_ne_lineFeed {c : Char} (h : c ≠ '\n') : c.toLower ≠ '\n' := by
  by_cases hu : c.isUpper = true
  · intro hc
    have hn := Square.toNat_toLower_of_isUpper hu
    rw [hc] at hn
    exact absurd hn (by change 10 ≠ c.toNat + 32; omega)
  · rwa [Square.toLower_of_not_isUpper (Bool.eq_false_iff.mpr hu)]

theorem TokenError.Quotes.onOneLine_message (h : e.Quotes token) (ht : OnOneLine token) :
    OnOneLine e.message := by
  have hchar {c : Char} (hc : c ∈ Token.chars token) : c ≠ '\n' := by
    rintro rfl
    exact ht (Text.mem_of_mem_trim hc)
  have hletter {c : Char} (hc : c ≠ '\n') : OnOneLine c.toString := by
    simp [OnOneLine, hc.symm]
  cases e with
  | empty => decide
  | wrongLength t =>
    obtain rfl : t = token := h
    show OnOneLine ("token [" ++ t ++ "] has the wrong length")
    simp only [onOneLine_append, ht, and_true]
    decide
  | noFile t offset =>
    obtain rfl : t = token := h
    show OnOneLine ("token [" ++ t ++ "] has no valid file at offset " ++ offset.repr)
    simp only [onOneLine_append, ht, onOneLine_repr, and_true]
    decide
  | noRank t offset =>
    obtain rfl : t = token := h
    show OnOneLine ("token [" ++ t ++ "] has no valid rank at offset " ++ offset.repr)
    simp only [onOneLine_append, ht, onOneLine_repr, and_true]
    decide
  | unknownPiece t letter =>
    obtain ⟨rfl, hl⟩ := h
    show OnOneLine ("unknown piece letter '" ++ letter.toString ++ "' in [" ++ t ++ "]")
    simp only [onOneLine_append, ht, hletter (hchar hl), and_true]
    decide
  | unknownColor t marker =>
    obtain ⟨rfl, c, hc, rfl⟩ := h
    show OnOneLine ("unknown color marker '" ++ c.toLower.toString ++ "' in [" ++ t ++ "]")
    simp only [onOneLine_append, ht, hletter (toLower_ne_lineFeed (hchar hc)), and_true]
    decide
  | notCastle t =>
    obtain rfl : t = token := h
    show OnOneLine ("[" ++ t ++ "] is not a castle")
    simp only [onOneLine_append, ht, and_true]
    decide

namespace Directive

/-- Whether what a directive has taken from its line is on one line. -/
def Tidy : Directive → Prop
  | blank => True
  | placement token => OnOneLine token
  | movements tokens => ∀ token ∈ tokens, OnOneLine token
  | castles tokens => ∀ token ∈ tokens, OnOneLine token
  | unrecognized content => OnOneLine content

private theorem mem_of_mem_beforeComment {cs : List Char} {c : Char} (h : c ∈ beforeComment cs) :
    c ∈ cs := by
  induction cs with
  | nil => exact h
  | cons d cs ih =>
    unfold beforeComment at h
    split at h
    · cases h
    · rcases List.mem_cons.mp h with rfl | h
      · exact List.mem_cons_self
      · exact List.mem_cons_of_mem _ (ih h)

variable {content line : String} {tokens : List String}

private theorem tidy_ofActions (hc : OnOneLine content) (ht : ∀ token ∈ tokens, OnOneLine token) :
    (ofActions content tokens).Tidy := by
  unfold ofActions
  split
  · split
    · exact ht
    · exact ht
  · exact hc

private theorem tidy_ofTokens (hc : OnOneLine content) (ht : ∀ token ∈ tokens, OnOneLine token) :
    (ofTokens content tokens).Tidy := by
  unfold ofTokens
  split
  · split
    · exact ht _ (by simp)
    · exact tidy_ofActions hc ht
  · exact tidy_ofActions hc ht

theorem tidy_ofLine (h : OnOneLine line) : (ofLine line).Tidy := by
  have hcontent : '\n' ∉ Text.trim (beforeComment line.toList) := fun hc =>
    h (mem_of_mem_beforeComment (Text.mem_of_mem_trim hc))
  unfold ofLine
  dsimp only
  split
  · trivial
  · apply tidy_ofTokens
    · rwa [OnOneLine, String.toList_ofList]
    · intro token ht
      obtain ⟨w, hw, rfl⟩ := List.mem_map.mp ht
      apply Text.onOneLine_of_blankFree
      rw [String.toList_ofList]
      exact Text.blankFree_of_mem_words hw

end Directive

end Scoresheet
