import Mathlib.Algebra.Group.Nat.Defs
import Mathlib.Data.List.Induction
import Scoresheet.Proofs.Text.Blankness
import Scoresheet.Text.Numeral
/-!
# Numbers as they are written

A text gives a number exactly if it is the decimal form of that number, possibly behind zeros and
one plus sign and between blanks, and the number fits into 64 bits.
-/
namespace Scoresheet.Text

variable {cs before behind digits : List Char} {zeros n : Nat} {text : String}

private theorem trim_between (hb : AllBlank before) (hcs : BlankFree cs) (he : AllBlank behind) :
    trim (before ++ cs ++ behind) = cs := by
  rw [trim_append_of_blank he, trim_blank_append hb, trim_of_blankFree hcs]

private theorem decimalValue_eq_ofDigitChars (digits : List Char) :
    decimalValue digits = Nat.ofDigitChars 10 digits 0 :=
  Nat.ofDigitChars_eq_foldl.symm

private theorem decimalValue_append_singleton (digits : List Char) (d : Char) :
    decimalValue (digits ++ [d]) = 10 * decimalValue digits + (d.toNat - '0'.toNat) := by
  simp [decimalValue]

def written (zeros n : Nat) : List Char := List.replicate zeros '0' ++ n.repr.toList

private theorem decimalValue_written (zeros n : Nat) : decimalValue (written zeros n) = n := by
  rw [written, decimalValue_eq_ofDigitChars, Nat.ofDigitChars_append,
    Nat.ofDigitChars_replicate_zero, Nat.mul_zero, Nat.toList_repr, Nat.ofDigitChars_ten_toDigits]

private theorem isDigit_of_mem_written {d : Char} (h : d ∈ written zeros n) : d.isDigit = true := by
  rcases List.mem_append.mp h with h | h
  · rw [List.eq_of_mem_replicate h]
    rfl
  · rw [Nat.toList_repr] at h
    exact Nat.isDigit_of_mem_toDigits (by decide) (by decide) h

private theorem written_ne_nil : written zeros n ≠ [] := by
  simp [written, Nat.toList_repr]

private theorem digitChar_of_isDigit {d : Char} (h : d.isDigit = true) :
    d.toNat - '0'.toNat < 10 ∧ (d.toNat - '0'.toNat).digitChar = d := by
  obtain ⟨hlow, hhigh⟩ := Char.isDigit_iff_toNat.mp h
  have hzero : '0'.toNat = 48 := rfl
  have hnine : '9'.toNat = 57 := rfl
  have hlt : d.toNat - '0'.toNat < 10 := by omega
  refine ⟨hlt, Char.toNat_inj.mp ?_⟩
  rw [Nat.toNat_digitChar_of_lt_ten hlt]
  omega

private theorem written_of_lt {m : Nat} (h : m < 10) : written 0 m = [m.digitChar] := by
  simp [written, Nat.toList_repr, Nat.toDigits_of_lt_base h]

private theorem written_zero_append {m : Nat} (h : m < 10) :
    written zeros 0 ++ [m.digitChar] = written (zeros + 1) m := by
  simp [written, Nat.toList_repr, Nat.toDigits_of_lt_base h, List.replicate_succ']

theorem written_append {m : Nat} (hn : 0 < n) (h : m < 10) :
    written zeros n ++ [m.digitChar] = written zeros (10 * n + m) := by
  rw [written, written, Nat.toList_repr, Nat.toList_repr, List.append_assoc,
    ← Nat.toDigits_of_lt_base h, Nat.toDigits_append_toDigits (by decide) hn h]

/-- Digits are zeros and then the decimal form of their value. -/
theorem exists_eq_written (h : ∀ d ∈ digits, d.isDigit = true) (hne : digits ≠ []) :
    ∃ zeros, digits = written zeros (decimalValue digits) := by
  -- on the last digit: before it there is nothing, zeros alone, or a positive number
  induction digits using List.reverseRecOn with
  | nil => exact absurd rfl hne
  | append_singleton digits d ih =>
    obtain ⟨hlt, hchar⟩ := digitChar_of_isDigit (h d (by simp))
    rw [decimalValue_append_singleton]
    by_cases hfirst : digits = []
    · refine ⟨0, ?_⟩
      rw [hfirst, List.nil_append, decimalValue, List.foldl_nil, Nat.mul_zero, Nat.zero_add,
        written_of_lt hlt, hchar]
    obtain ⟨zeros, hz⟩ := ih (fun c hc => h c (by simp [hc])) hfirst
    by_cases hvalue : decimalValue digits = 0
    · rw [hvalue] at hz ⊢
      refine ⟨zeros + 1, ?_⟩
      rw [Nat.mul_zero, Nat.zero_add, ← written_zero_append hlt, hchar, ← hz]
    · refine ⟨zeros, ?_⟩
      rw [← written_append (Nat.pos_of_ne_zero hvalue) hlt, hchar, ← hz]

private theorem isDecimal_iff :
    (!digits.isEmpty && digits.all Char.isDigit && decimalValue digits < Nat.pow 2 64) = true ∧
        decimalValue digits = n ↔
      (∃ zeros, digits = written zeros n) ∧ n < 2 ^ 64 := by
  have hpow : Nat.pow 2 64 = 2 ^ 64 := rfl
  simp only [Bool.and_eq_true, Bool.not_eq_true', List.isEmpty_eq_false_iff, List.all_eq_true,
    decide_eq_true_eq, hpow]
  constructor
  · rintro ⟨⟨⟨hne, hall⟩, hlt⟩, rfl⟩
    exact ⟨exists_eq_written hall hne, hlt⟩
  · rintro ⟨⟨zeros, rfl⟩, hlt⟩
    rw [decimalValue_written]
    exact ⟨⟨⟨written_ne_nil, fun d hd => isDigit_of_mem_written hd⟩, hlt⟩, rfl⟩

/-- Whether characters write a number: at most one plus sign, zeros, and its decimal form. -/
def Writes (cs : List Char) (n : Nat) : Prop :=
  ∃ sign zeros, cs = sign ++ written zeros n ∧ (sign = [] ∨ sign = ['+'])

private theorem writes_plus_iff : Writes ('+' :: cs) n ↔ ∃ zeros, cs = written zeros n := by
  constructor
  · rintro ⟨sign, zeros, hcs, rfl | rfl⟩
    · have hplus : '+' ∈ written zeros n := by
        rw [List.nil_append] at hcs
        simp [← hcs]
      exact absurd (isDigit_of_mem_written hplus) (by decide)
    · exact ⟨zeros, by simpa using hcs⟩
  · rintro ⟨zeros, rfl⟩
    exact ⟨['+'], zeros, rfl, .inr rfl⟩

private theorem writes_iff_of_unsigned (h : ∀ rest, cs ≠ '+' :: rest) :
    Writes cs n ↔ ∃ zeros, cs = written zeros n := by
  constructor
  · rintro ⟨sign, zeros, hcs, rfl | rfl⟩
    · exact ⟨zeros, hcs⟩
    · exact absurd hcs (h _)
  · rintro ⟨zeros, rfl⟩
    exact ⟨[], zeros, rfl, .inl rfl⟩

private theorem numberOfChars?_eq_some_iff :
    numberOfChars? cs = some n ↔ Writes cs n ∧ n < 2 ^ 64 := by
  unfold numberOfChars?
  dsimp only
  rw [Option.ite_none_right_eq_some, Option.some.injEq, isDecimal_iff]
  split
  · rw [writes_plus_iff]
  · next h => rw [writes_iff_of_unsigned h]

private theorem isBlank_of_isDigit {c : Char} (h : c.isDigit = true) : isBlank c = false := by
  have hzero : '0'.toNat = 48 := rfl
  have hnine : '9'.toNat = 57 := rfl
  have hc := Char.isDigit_iff_toNat.mp h
  simp [isBlank, blankRanges]
  omega

private theorem Writes.blankFree (h : Writes cs n) : BlankFree cs := by
  obtain ⟨sign, zeros, rfl, hsign⟩ := h
  intro c hc
  rcases List.mem_append.mp hc with hc | hc
  · rcases hsign with rfl | rfl
    · simp at hc
    · rw [List.mem_singleton.mp hc]
      decide
  · exact isBlank_of_isDigit (isDigit_of_mem_written hc)

/-- Whether a text gives a number: it writes it between blanks, and the number fits into 64 bits. -/
def Gives (text : String) (n : Nat) : Prop :=
  n < 2 ^ 64 ∧ ∃ before cs behind, text.toList = before ++ cs ++ behind ∧
    AllBlank before ∧ Writes cs n ∧ AllBlank behind

theorem number?_eq_some_iff : number? text = some n ↔ Gives text n := by
  rw [number?, numberOfChars?_eq_some_iff]
  constructor
  · rintro ⟨hw, hlt⟩
    obtain ⟨before, behind, hcs, hb, he⟩ := exists_eq_trim text.toList
    exact ⟨hlt, before, _, behind, hcs, hb, hw, he⟩
  · rintro ⟨hlt, before, cs, behind, hcs, hb, hw, he⟩
    rw [hcs, trim_between hb hw.blankFree he]
    exact ⟨hw, hlt⟩

end Scoresheet.Text
