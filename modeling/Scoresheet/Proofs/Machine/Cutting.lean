import Mathlib.Data.List.Infix
import Scoresheet.Proofs.Machine.Width
import Scoresheet.Proofs.Text.Encoding
import Scoresheet.Proofs.Token.Framing
/-!
# Cutting comments off on a machine

A machine looks for a comment mark among the bytes of a line and cuts the line where the first one is
found. In a text in UTF-8 that is always between two characters: the byte of a slash stands for a slash
and for nothing else.
-/
namespace Scoresheet.Machine

open Directive (beforeComment commentBytes slash)
open Text.Utf8

def findBytes? (mark bytes : List UInt8) : Option Nat := bytes.tails.findIdx? mark.isPrefixOf

/-- The part of a line before a byte, which has to be the first one of a character. -/
def cutAt (line : String) (i : Nat) : Run String :=
  if h : (⟨i⟩ : String.Pos.Raw).IsValid line then .ok (line.sliceTo ⟨⟨i⟩, h⟩).copy
  else .error (.trapped .insideCharacter)

def stripComment (line : String) : Run String :=
  match findBytes? (encode Directive.commentMark.toList) (encode line.toList) with
  | some i => cutAt line i
  | none => .ok line

variable {mark as bs : List UInt8} {b m : UInt8} {c : Char} {cs : List Char}

private theorem findBytes?_cons :
    findBytes? mark (b :: bs) =
      if mark.isPrefixOf (b :: bs) then some 0 else (findBytes? mark bs).map (· + 1) := by
  rw [findBytes?, List.tails_cons, List.findIdx?_cons]
  rfl

private theorem findBytes?_append (h : m ∉ as) :
    findBytes? (m :: mark) (as ++ bs) = (findBytes? (m :: mark) bs).map (as.length + ·) := by
  induction as with
  | nil => simp
  | cons a as ih =>
    obtain ⟨hne, hrest⟩ := List.ne_and_not_mem_of_not_mem_cons h
    have hno : (m :: mark).isPrefixOf (a :: (as ++ bs)) = false := by
      simp [List.isPrefixOf, hne]
    rw [List.cons_append, findBytes?_cons, hno, ih hrest]
    cases findBytes? (m :: mark) bs <;> simp [Nat.add_right_comm]

private theorem slash_mem_encodeChar (h : slash ∈ String.utf8EncodeChar c) : c = '/' := by
  have hslash : slash.toNat = 47 := rfl
  -- a character of several bytes has none below 0x80
  rcases encodeChar_length c with ⟨b, hc⟩ | ⟨b, b₁, hc⟩ | ⟨b, b₁, b₂, hc⟩ | ⟨b, b₁, b₂, b₃, hc⟩ <;>
    simp only [hc, List.mem_cons, List.not_mem_nil, or_false, ← UInt8.toNat_inj, hslash] at h
  · obtain ⟨hcode, -⟩ := encodeChar_eq_one_iff.mp hc
    exact Char.toNat_inj.mp (hcode.trans h.symm)
  · obtain ⟨-, hb, hb₁⟩ := encodeChar_eq_two_iff.mp hc
    omega
  · obtain ⟨-, -, hb, hb₁, hb₂⟩ := encodeChar_eq_three_iff.mp hc
    omega
  · obtain ⟨-, -, hb, hb₁, hb₂, hb₃⟩ := encodeChar_eq_four_iff.mp hc
    omega

private theorem encode_cons (c : Char) (cs : List Char) :
    encode (c :: cs) = String.utf8EncodeChar c ++ encode cs := rfl

private theorem head?_of_head?_encode (h : (encode cs).head? = some slash) :
    cs.head? = some '/' := by
  cases cs with
  | nil => cases h
  | cons c cs =>
    have hne : String.utf8EncodeChar c ≠ [] := String.utf8EncodeChar_ne_nil
    rw [encode_cons, List.head?_append_of_ne_nil _ hne] at h
    rw [List.head?_cons, slash_mem_encodeChar (List.mem_of_head? h)]

private theorem findBytes?_encode_cons (h : c = '/' → cs.head? ≠ some '/') :
    findBytes? commentBytes (encode (c :: cs)) =
      (findBytes? commentBytes (encode cs)).map ((String.utf8EncodeChar c).length + ·) := by
  rw [encode_cons]
  by_cases hc : c = '/'
  · subst hc
    have hone : String.utf8EncodeChar '/' = [slash] := by decide
    have hno : commentBytes.isPrefixOf (slash :: encode cs) = false := by
      cases hcs : encode cs with
      | nil => decide
      | cons b bs =>
        have hb : slash ≠ b := by
          rintro rfl
          exact h rfl (head?_of_head?_encode (by rw [hcs, List.head?_cons]))
        simp [commentBytes, List.isPrefixOf, hb]
    rw [hone, List.singleton_append, findBytes?_cons, hno]
    simp [Nat.add_comm]
  · exact findBytes?_append fun hslash => hc (slash_mem_encodeChar hslash)

/-- The mark found among the bytes is the one found among the characters. -/
theorem findBytes?_encode (cs : List Char) :
    (beforeComment cs = cs ∧ findBytes? commentBytes (encode cs) = none) ∨
      ∃ comment, cs = beforeComment cs ++ comment ∧
        findBytes? commentBytes (encode cs) = some (encode (beforeComment cs)).length := by
  induction cs with
  | nil => exact .inl ⟨rfl, by decide⟩
  | cons c cs ih =>
    rw [beforeComment]
    cases hmark : (c == '/' && cs.head? == some '/') with
    | true =>
      simp only [Bool.and_eq_true, beq_iff_eq] at hmark
      obtain ⟨rfl, hnext⟩ := hmark
      obtain ⟨rest, rfl⟩ := List.head?_eq_some_iff.mp hnext
      exact .inr ⟨_, rfl, rfl⟩
    | false =>
      have hmove : c = '/' → cs.head? ≠ some '/' := by simpa using hmark
      rw [findBytes?_encode_cons hmove]
      rcases ih with ⟨hall, hnone⟩ | ⟨comment, hcut, hfound⟩
      · exact .inl ⟨by simp [hall], by rw [hnone, Option.map_none]⟩
      · exact .inr ⟨comment, by simp [← hcut], by simp [hfound, encode_cons]⟩

private theorem length_encode (cs : List Char) :
    (encode cs).length = (String.ofList cs).utf8ByteSize := by
  have hbytes : (encode cs).toByteArray = (String.ofList cs).toByteArray :=
    toByteArray_eq_iff.mpr (by rw [String.toList_ofList])
  rw [← List.size_toByteArray, hbytes, String.size_toByteArray]

/-- A line is never cut inside a character. -/
theorem stripComment_eq (line : String) : stripComment line = .ok (Directive.stripComment line) := by
  have hmark : encode Directive.commentMark.toList = commentBytes := by decide
  rw [stripComment, hmark, Directive.stripComment]
  rcases findBytes?_encode line.toList with ⟨hall, hnone⟩ | ⟨comment, hcut, hfound⟩
  · rw [hnone, hall, String.ofList_toList]
  · rw [hfound]
    have hline : line = String.ofList (beforeComment line.toList) ++ String.ofList comment := by
      rw [← String.ofList_append, ← hcut, String.ofList_toList]
    have hplace : (⟨(encode (beforeComment line.toList)).length⟩ : String.Pos.Raw) =
        (String.ofList (beforeComment line.toList)).rawEndPos := by
      rw [length_encode]
      rfl
    have hvalid : (⟨(encode (beforeComment line.toList)).length⟩ : String.Pos.Raw).IsValid line :=
      String.Pos.Raw.isValid_iff_exists_append.mpr ⟨_, _, hline, hplace⟩
    simp only [cutAt, hvalid, dif_pos]
    exact congrArg Except.ok (String.Pos.Splits.copy_sliceTo_eq ⟨hline, hplace⟩)

-- A cut one byte further on would strike.
example : cutAt "é//" 1 = .error (.trapped .insideCharacter) := by cbv

end Scoresheet.Machine
