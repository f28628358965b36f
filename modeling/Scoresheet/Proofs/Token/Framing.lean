import Scoresheet.Directive
import Scoresheet.Proofs.Text.Blankness
import Scoresheet.Proofs.Text.Lines
/-!
# What surrounds the tokens of a line

What a line asks for depends on its words alone: the blanks around them and the carriage returns at
its end make no difference, and neither does a comment behind them, whatever its bytes.
-/
namespace Scoresheet

namespace Directive

open Text (AllBlank)
open Text.Utf8 (IsByteOf lossy lossyChars lossyChars_eq_nil_iff)

variable {cs ds : List Char}

def commentChars : List Char := ['/', '/']

def slash : UInt8 := 0x2F

def carriageReturn : UInt8 := 0x0D

def commentBytes : List UInt8 := [slash, slash]

/-- Text without a comment stays, unless it ends with half of a mark that the text behind it
completes. -/
theorem beforeComment_append (h : ¬ commentChars <:+: cs)
    (hends : ['/'] <:+ cs → ds.head? ≠ some '/') :
    beforeComment (cs ++ ds) = cs ++ beforeComment ds := by
  induction cs with
  | nil => rfl
  | cons c cs ih =>
    have hrest : ¬ commentChars <:+: cs := fun hin => h (List.infix_cons hin)
    have hends' : ['/'] <:+ cs → ds.head? ≠ some '/' := fun hin =>
      hends (hin.trans (List.suffix_cons c cs))
    have hgo : (c == '/' && (cs ++ ds).head? == some '/') = false := by
      apply Bool.eq_false_iff.mpr
      intro hmark
      simp only [Bool.and_eq_true, beq_iff_eq] at hmark
      obtain ⟨rfl, hnext⟩ := hmark
      cases cs with
      | nil => exact hends (List.suffix_refl _) hnext
      | cons d cs =>
        obtain rfl : d = '/' := by simpa using hnext
        exact h ⟨[], cs, rfl⟩
    rw [List.cons_append, beforeComment, hgo, ih hrest hends']
    rfl

private theorem beforeComment_self (h : ¬ commentChars <:+: cs) : beforeComment cs = cs := by
  have hnone : beforeComment (cs ++ []) = cs ++ beforeComment [] :=
    beforeComment_append h (by simp)
  rwa [List.append_nil, beforeComment, List.append_nil] at hnone

theorem beforeComment_of_not_mem (h : '/' ∉ cs) : beforeComment cs = cs :=
  beforeComment_self fun hin => h (hin.subset List.mem_cons_self)

/-- A comment is taken off whole. -/
theorem beforeComment_comment (h : ¬ commentChars <:+: cs) (hends : ¬ ['/'] <:+ cs)
    (comment : List Char) : beforeComment (cs ++ (commentChars ++ comment)) = cs := by
  rw [beforeComment_append h fun hin => absurd hin hends]
  simp [commentChars, beforeComment]

theorem not_slash_of_allBlank {bs : List Char} (h : AllBlank bs) : '/' ∉ bs := by
  intro hin
  exact absurd (h '/' hin) (by decide)

private theorem beforeComment_append_blank {bs : List Char} (h : AllBlank bs) (cs : List Char) :
    ∃ left, AllBlank left ∧ beforeComment (cs ++ bs) = beforeComment cs ++ left := by
  have hbs : beforeComment bs = bs := beforeComment_of_not_mem (not_slash_of_allBlank h)
  have hhead : bs.head? ≠ some '/' := fun hin => not_slash_of_allBlank h (List.mem_of_head? hin)
  induction cs with
  | nil => exact ⟨bs, h, hbs⟩
  | cons c cs ih =>
    have hnext : (c == '/' && (cs ++ bs).head? == some '/') = (c == '/' && cs.head? == some '/') := by
      cases cs with
      | nil => simp [hhead]
      | cons d cs => rfl
    rw [List.cons_append, beforeComment, hnext, beforeComment]
    split
    · exact ⟨[], by simp [AllBlank], rfl⟩
    · obtain ⟨left, hleft, hrest⟩ := ih
      exact ⟨left, hleft, by rw [hrest]; rfl⟩

def contentChars (line : String) : List Char := Text.trim (beforeComment line.toList)

theorem ofLine_eq (line : String) : ofLine line =
    if (contentChars line).isEmpty then .blank
    else ofTokens (String.ofList (contentChars line))
      ((Text.words (contentChars line)).map String.ofList) := rfl

private theorem ofLine_congr {line other : String} (h : contentChars line = contentChars other) :
    ofLine line = ofLine other := by
  rw [ofLine_eq, ofLine_eq, h]

/-- Blanks around a line without a comment make no difference. -/
theorem ofLine_padded {before line behind : String} (hbefore : AllBlank before.toList)
    (hbehind : AllBlank behind.toList) (hslash : '/' ∉ line.toList) :
    ofLine (before ++ line ++ behind) = ofLine line := by
  have hpadded : '/' ∉ before.toList ++ line.toList ++ behind.toList := by
    simp [not_slash_of_allBlank hbefore, not_slash_of_allBlank hbehind, hslash]
  apply ofLine_congr
  rw [contentChars, contentChars, String.toList_append, String.toList_append,
    beforeComment_of_not_mem hpadded, beforeComment_of_not_mem hslash,
    Text.trim_append_of_blank hbehind, Text.trim_blank_append hbefore]

private theorem contentChars_append_blank {bs : List Char} (h : AllBlank bs) (cs : List Char) :
    contentChars (String.ofList (cs ++ bs)) = contentChars (String.ofList cs) := by
  obtain ⟨left, hleft, hcut⟩ := beforeComment_append_blank h cs
  rw [contentChars, contentChars, String.toList_ofList, String.toList_ofList, hcut,
    Text.trim_append_of_blank hleft]

theorem ofLine_text (line : Text.Line) : ofLine line.text = ofLine (lossy line) := by
  obtain ⟨returns, hread, hreturns⟩ :=
    Text.exists_eq_dropEndWhile (· == '\r') (lossy line).toList
  have hblank : AllBlank returns := by
    intro c hc
    rw [eq_of_beq (hreturns c hc)]
    decide
  apply ofLine_congr
  calc
    contentChars line.text
      = contentChars (String.ofList
          (Text.dropEndWhile (· == '\r') (lossy line).toList ++ returns)) :=
        (contentChars_append_blank hblank _).symm
    _ = contentChars (lossy line) := by rw [← hread, String.ofList_toList]

section Bytes

variable {part : List UInt8}

private theorem isByteOf_slash : IsByteOf slash '/' := by decide

private theorem not_commentChars_infix (h : ¬ commentBytes <:+: part) :
    ¬ commentChars <:+: lossyChars part := by
  rintro ⟨cs, ds, hread⟩
  have hfirst : lossyChars part = cs ++ '/' :: ('/' :: ds) := by
    rw [← hread]
    simp [commentChars]
  obtain ⟨as, rest, rfl, _, hrest⟩ := isByteOf_slash.exists_of_lossyChars_eq hfirst
  have hsecond : lossyChars rest = [] ++ '/' :: ds := hrest
  obtain ⟨between, bs, rfl, hbetween, _⟩ := isByteOf_slash.exists_of_lossyChars_eq hsecond
  obtain rfl := lossyChars_eq_nil_iff.mp hbetween
  exact h ⟨as, bs, by simp [commentBytes]⟩

private theorem not_slash_suffix (h : ¬ [slash] <:+ part) : ¬ ['/'] <:+ lossyChars part := by
  rintro ⟨cs, hread⟩
  obtain ⟨as, bs, rfl, _, hbs⟩ := isByteOf_slash.exists_of_lossyChars_eq hread.symm
  obtain rfl := lossyChars_eq_nil_iff.mp hbs
  exact h ⟨as, rfl⟩

theorem ofLine_lossy_returned (part : List UInt8) :
    ofLine (lossy (part ++ [carriageReturn])) = ofLine (lossy part) := by
  have hreturn : IsByteOf carriageReturn '\r' := by decide
  have hblank : AllBlank ['\r'] := by decide
  apply ofLine_congr
  calc
    contentChars (lossy (part ++ [carriageReturn]))
      = contentChars (String.ofList (lossyChars part ++ ['\r'])) := by
        rw [← String.ofList_toList (s := lossy (part ++ [carriageReturn]))]
        exact congrArg (fun cs => contentChars (String.ofList cs)) (hreturn.lossyChars_append part [])
    _ = contentChars (lossy part) := by
        rw [contentChars_append_blank hblank, lossyChars, String.ofList_toList]

/-- Neither does a comment, whatever its bytes. -/
theorem ofLine_lossy_commented (hmark : ¬ commentBytes <:+: part) (hends : ¬ [slash] <:+ part)
    (comment : List UInt8) :
    ofLine (lossy (part ++ (commentBytes ++ comment))) = ofLine (lossy part) := by
  have hread : lossyChars (part ++ (commentBytes ++ comment)) =
      lossyChars part ++ (commentChars ++ lossyChars comment) := by
    have hcomment : lossyChars (slash :: comment) = '/' :: lossyChars comment :=
      isByteOf_slash.lossyChars_append [] comment
    simp [commentBytes, commentChars, isByteOf_slash.lossyChars_append, hcomment]
  have hmark' := not_commentChars_infix hmark
  apply ofLine_congr
  rw [contentChars, contentChars, ← lossyChars, ← lossyChars, hread,
    beforeComment_comment hmark' (not_slash_suffix hends), beforeComment_self hmark']

end Bytes

end Directive

end Scoresheet
