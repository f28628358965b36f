import Mathlib.Tactic.SplitIfs
import Scoresheet.Text.Utf8
/-!
# Reading and encoding

A byte string is read as a text exactly if it is the encoding of that text, the characters one after
the other. So what is not read is not UTF-8. A character is handled by the number of its bytes: each
width has one range of first bytes, narrowed second bytes, and code points of its own.
-/
namespace Scoresheet.Text.Utf8

variable {b b₁ b₂ b₃ : UInt8} {tail bytes rest : List UInt8} {c : Char} {p : Pending} {v : Nat}

private theorem toNat_cases (c : Char) : c.toNat < 0xD800 ∨ 0xDFFF < c.toNat ∧ c.toNat < 0x110000 :=
  c.valid

private theorem exists_char (h : v < 0xD800 ∨ 0xDFFF < v ∧ v < 0x110000) :
    ∃ c : Char, c.toNat = v :=
  ⟨Char.ofNatAux v h, rfl⟩

theorem encodeChar_eq_one_iff :
    String.utf8EncodeChar c = [b] ↔ c.toNat = b.toNat ∧ b.toNat ≤ 0x7F := by
  have hv : c.val.toNat = c.toNat := rfl
  unfold String.utf8EncodeChar
  simp only [hv]
  split_ifs with h1 h2 h3
  · simp [← UInt8.toNat_inj]
    omega
  · simp
    omega
  · simp
    omega
  · simp
    omega

theorem encodeChar_eq_two_iff :
    String.utf8EncodeChar c = [b, b₁] ↔
      c.toNat = 64 * (b.toNat - 0xC0) + (b₁.toNat - 0x80) ∧
        (0xC2 ≤ b.toNat ∧ b.toNat ≤ 0xDF) ∧ (0x80 ≤ b₁.toNat ∧ b₁.toNat ≤ 0xBF) := by
  have hv : c.val.toNat = c.toNat := rfl
  have hb := b.toNat_lt
  have hb₁ := b₁.toNat_lt
  unfold String.utf8EncodeChar
  simp only [hv]
  split_ifs with h1 h2 h3
  · simp
    omega
  · simp [← UInt8.toNat_inj]
    omega
  · simp
    omega
  · simp
    omega

theorem encodeChar_eq_three_iff :
    String.utf8EncodeChar c = [b, b₁, b₂] ↔
      c.toNat = 64 * (64 * (b.toNat - 0xE0) + (b₁.toNat - 0x80)) + (b₂.toNat - 0x80) ∧
        0x800 ≤ c.toNat ∧ (0xE0 ≤ b.toNat ∧ b.toNat ≤ 0xEF) ∧
        (0x80 ≤ b₁.toNat ∧ b₁.toNat ≤ 0xBF) ∧ (0x80 ≤ b₂.toNat ∧ b₂.toNat ≤ 0xBF) := by
  have hv : c.val.toNat = c.toNat := rfl
  have hb := b.toNat_lt
  have hb₁ := b₁.toNat_lt
  have hb₂ := b₂.toNat_lt
  unfold String.utf8EncodeChar
  simp only [hv]
  split_ifs with h1 h2 h3
  · simp
    omega
  · simp
    omega
  · simp [← UInt8.toNat_inj]
    omega
  · simp
    omega

theorem encodeChar_eq_four_iff :
    String.utf8EncodeChar c = [b, b₁, b₂, b₃] ↔
      c.toNat = 64 * (64 * (64 * (b.toNat - 0xF0) + (b₁.toNat - 0x80)) + (b₂.toNat - 0x80)) +
          (b₃.toNat - 0x80) ∧
        0x10000 ≤ c.toNat ∧ (0xF0 ≤ b.toNat ∧ b.toNat ≤ 0xF4) ∧
        (0x80 ≤ b₁.toNat ∧ b₁.toNat ≤ 0xBF) ∧ (0x80 ≤ b₂.toNat ∧ b₂.toNat ≤ 0xBF) ∧
        (0x80 ≤ b₃.toNat ∧ b₃.toNat ≤ 0xBF) := by
  have hv : c.val.toNat = c.toNat := rfl
  have hc := toNat_cases c
  have hb := b.toNat_lt
  have hb₁ := b₁.toNat_lt
  have hb₂ := b₂.toNat_lt
  have hb₃ := b₃.toNat_lt
  unfold String.utf8EncodeChar
  simp only [hv]
  split_ifs with h1 h2 h3
  · simp
    omega
  · simp
    omega
  · simp
    omega
  · simp [← UInt8.toNat_inj]
    omega

/-- The bytes that complete an open character, and its code point. -/
inductive Completes : Pending → List UInt8 → Nat → Prop where
  | last {p : Pending} {b : UInt8} (hb : p.low ≤ b ∧ b ≤ p.high) (hm : p.missing ≤ 1) :
    Completes p [b] (64 * p.bits + (b.toNat - 0x80))
  | more {p : Pending} {b : UInt8} {tail : List UInt8} {v : Nat} (hb : p.low ≤ b ∧ b ≤ p.high)
    (hm : 1 < p.missing)
    (h : Completes ⟨64 * p.bits + (b.toNat - 0x80), p.missing - 1, 0x80, 0xBF⟩ tail v) :
    Completes p (b :: tail) v

theorem Completes.scanFrom (h : Completes p tail v) (rest : List UInt8) :
    scanFrom (some p) (tail ++ rest) = some (Char.ofNat v) :: scan rest := by
  induction h with
  | last hb hm => simp [Utf8.scanFrom, feed, hb, hm, scan]
  | more hb hm _ ih => simp [Utf8.scanFrom, feed, hb, Nat.not_le.mpr hm, ih]

private theorem exists_completes (h : ∀ place ∈ scanFrom (some p) bytes, place.isSome = true) :
    ∃ tail v rest, bytes = tail ++ rest ∧ Completes p tail v := by
  induction bytes generalizing p with
  | nil => simp [scanFrom] at h
  | cons b bytes ih =>
    rw [scanFrom, feed] at h
    split at h
    · next hb =>
      have hb : p.low ≤ b ∧ b ≤ p.high := by simpa using hb
      dsimp only at h
      split at h
      · next hm => exact ⟨[b], _, bytes, rfl, .last hb hm⟩
      · next hm =>
        obtain ⟨tail, v, rest, rfl, hc⟩ := ih (by simpa using h)
        exact ⟨b :: tail, v, rest, rfl, .more hb (Nat.not_le.mp hm) hc⟩
    · simp at h

section Start

private theorem start_of_le (h : b.toNat ≤ 0x7F) :
    start b = ([some (Char.ofNat b.toNat)], none) := by
  have hb : b ≤ 0x7F := UInt8.le_iff_toNat_le.mpr h
  simp [start, hb]

private theorem start_two (hlow : 0xC2 ≤ b.toNat) (hhigh : b.toNat ≤ 0xDF) :
    start b = ([], some ⟨b.toNat - 0xC0, 1, 0x80, 0xBF⟩) := by
  unfold start
  simp only [UInt8.le_iff_toNat_le, UInt8.lt_iff_toNat_lt, ← UInt8.toNat_inj, UInt8.reduceToNat]
  split_ifs <;> first | omega | rfl

private theorem start_three (hlow : 0xE0 ≤ b.toNat) (hhigh : b.toNat ≤ 0xEF) :
    start b = ([], some ⟨b.toNat - 0xE0, 2, if b.toNat = 0xE0 then 0xA0 else 0x80,
      if b.toNat = 0xED then 0x9F else 0xBF⟩) := by
  unfold start
  simp only [UInt8.le_iff_toNat_le, UInt8.lt_iff_toNat_lt, ← UInt8.toNat_inj, UInt8.reduceToNat]
  split_ifs <;> simp <;> omega

private theorem start_four (hlow : 0xF0 ≤ b.toNat) (hhigh : b.toNat ≤ 0xF4) :
    start b = ([], some ⟨b.toNat - 0xF0, 3, if b.toNat = 0xF0 then 0x90 else 0x80,
      if b.toNat = 0xF4 then 0x8F else 0xBF⟩) := by
  unfold start
  simp only [UInt8.le_iff_toNat_le, UInt8.lt_iff_toNat_lt, ← UInt8.toNat_inj, UInt8.reduceToNat]
  split_ifs <;> simp <;> omega

private theorem lead_cases (b : UInt8) : b.toNat ≤ 0x7F ∨ (0xC2 ≤ b.toNat ∧ b.toNat ≤ 0xDF) ∨
    (0xE0 ≤ b.toNat ∧ b.toNat ≤ 0xEF) ∨ (0xF0 ≤ b.toNat ∧ b.toNat ≤ 0xF4) ∨
      start b = ([none], none) := by
  by_cases h : 0x80 ≤ b.toNat ∧ b.toNat < 0xC2 ∨ 0xF4 < b.toNat
  · have hs : start b = ([none], none) := by
      unfold start
      simp only [UInt8.le_iff_toNat_le, UInt8.lt_iff_toNat_lt, ← UInt8.toNat_inj,
        UInt8.reduceToNat]
      split_ifs <;> first | omega | rfl
    simp [hs]
  · omega

end Start

variable {bits missing : Nat} {low high : UInt8}

private theorem completes_one_iff : Completes ⟨bits, 1, low, high⟩ tail v ↔
    ∃ b, tail = [b] ∧ (low ≤ b ∧ b ≤ high) ∧ v = 64 * bits + (b.toNat - 0x80) := by
  constructor
  · intro h
    cases h with
    | last hb hm => exact ⟨_, rfl, hb, rfl⟩
    | more hb hm _ => exact absurd hm (Nat.lt_irrefl 1)
  · rintro ⟨b, rfl, hb, hv⟩
    rw [hv]
    exact .last hb (Nat.le_refl 1)

private theorem completes_more_iff (hm : 0 < missing) :
    Completes ⟨bits, missing + 1, low, high⟩ tail v ↔
    ∃ b rest, tail = b :: rest ∧ (low ≤ b ∧ b ≤ high) ∧
      Completes ⟨64 * bits + (b.toNat - 0x80), missing, 0x80, 0xBF⟩ rest v := by
  constructor
  · intro h
    cases h with
    | last hb hm' => exact absurd hm' (by simp; omega)
    | more hb hm' h => exact ⟨_, _, rfl, hb, h⟩
  · rintro ⟨b, rest, rfl, hb, h⟩
    exact .more hb (by simp; omega) h

/-- The byte that opens a character and the bytes that complete it are the encoding of one. -/
theorem exists_encodeChar (hp : start b = ([], some p)) (h : Completes p tail v) :
    ∃ c : Char, c.toNat = v ∧ String.utf8EncodeChar c = b :: tail := by
  rcases lead_cases b with hb | ⟨hlow, hhigh⟩ | ⟨hlow, hhigh⟩ | ⟨hlow, hhigh⟩ | hb
  · rw [start_of_le hb] at hp
    simp at hp
  · obtain rfl : _ = p := by simpa [start_two hlow hhigh] using hp
    obtain ⟨b₁, rfl, hb₁, hv⟩ := completes_one_iff.mp h
    simp only [UInt8.le_iff_toNat_le, UInt8.reduceToNat] at hb₁
    obtain ⟨c, hc⟩ := exists_char (v := v) (by omega)
    exact ⟨c, hc, encodeChar_eq_two_iff.mpr ⟨hc.trans hv, ⟨hlow, hhigh⟩, hb₁⟩⟩
  · obtain rfl : _ = p := by simpa [start_three hlow hhigh] using hp
    obtain ⟨b₁, _, rfl, hb₁, h⟩ := (completes_more_iff (by decide)).mp h
    obtain ⟨b₂, rfl, hb₂, hv⟩ := completes_one_iff.mp h
    simp only [UInt8.le_iff_toNat_le, UInt8.reduceToNat] at hb₁ hb₂
    have hrange : (0x80 ≤ b₁.toNat ∧ b₁.toNat ≤ 0xBF) ∧ (b.toNat = 0xE0 → 0xA0 ≤ b₁.toNat) ∧
        (b.toNat = 0xED → b₁.toNat ≤ 0x9F) := by
      split_ifs at hb₁ <;> simp at hb₁ <;> omega
    obtain ⟨c, hc⟩ := exists_char (v := v) (by omega)
    exact ⟨c, hc, encodeChar_eq_three_iff.mpr
      ⟨hc.trans hv, by omega, ⟨hlow, hhigh⟩, hrange.1, hb₂⟩⟩
  · obtain rfl : _ = p := by simpa [start_four hlow hhigh] using hp
    obtain ⟨b₁, _, rfl, hb₁, h⟩ := (completes_more_iff (by decide)).mp h
    obtain ⟨b₂, _, rfl, hb₂, h⟩ := (completes_more_iff (by decide)).mp h
    obtain ⟨b₃, rfl, hb₃, hv⟩ := completes_one_iff.mp h
    simp only [UInt8.le_iff_toNat_le, UInt8.reduceToNat] at hb₁ hb₂ hb₃
    have hrange : (0x80 ≤ b₁.toNat ∧ b₁.toNat ≤ 0xBF) ∧ (b.toNat = 0xF0 → 0x90 ≤ b₁.toNat) ∧
        (b.toNat = 0xF4 → b₁.toNat ≤ 0x8F) := by
      split_ifs at hb₁ <;> simp at hb₁ <;> omega
    obtain ⟨c, hc⟩ := exists_char (v := v) (by omega)
    exact ⟨c, hc, encodeChar_eq_four_iff.mpr
      ⟨hc.trans hv, by omega, ⟨hlow, hhigh⟩, hrange.1, hb₂, hb₃⟩⟩
  · simp [hb] at hp

theorem encodeChar_length (c : Char) :
    (∃ b, String.utf8EncodeChar c = [b]) ∨ (∃ b b₁, String.utf8EncodeChar c = [b, b₁]) ∨
      (∃ b b₁ b₂, String.utf8EncodeChar c = [b, b₁, b₂]) ∨
      ∃ b b₁ b₂ b₃, String.utf8EncodeChar c = [b, b₁, b₂, b₃] := by
  unfold String.utf8EncodeChar
  dsimp only
  split_ifs <;> simp

private theorem encodeChar_cases (c : Char) :
    (∃ b, String.utf8EncodeChar c = [b] ∧ start b = ([some c], none)) ∨
      ∃ b tail p, String.utf8EncodeChar c = b :: tail ∧ start b = ([], some p) ∧
        Completes p tail c.toNat := by
  have hc := toNat_cases c
  have hrange {low high b : UInt8} (h : low.toNat ≤ b.toNat ∧ b.toNat ≤ high.toNat) :
      low ≤ b ∧ b ≤ high := by simpa [UInt8.le_iff_toNat_le] using h
  rcases encodeChar_length c with ⟨b, h⟩ | ⟨b, b₁, h⟩ | ⟨b, b₁, b₂, h⟩ | ⟨b, b₁, b₂, b₃, h⟩
  · obtain ⟨hv, hb⟩ := encodeChar_eq_one_iff.mp h
    refine .inl ⟨b, h, ?_⟩
    rw [start_of_le hb, ← hv, Char.ofNat_toNat]
  · obtain ⟨hv, hb, hb₁⟩ := encodeChar_eq_two_iff.mp h
    refine .inr ⟨b, _, _, h, start_two hb.1 hb.2, completes_one_iff.mpr ⟨b₁, rfl, hrange hb₁, hv⟩⟩
  · obtain ⟨hv, hmin, hb, hb₁, hb₂⟩ := encodeChar_eq_three_iff.mp h
    refine .inr ⟨b, _, _, h, start_three hb.1 hb.2, ?_⟩
    refine (completes_more_iff (by decide)).mpr ⟨b₁, _, rfl, hrange ?_, ?_⟩
    · split_ifs <;> simp <;> omega
    · exact completes_one_iff.mpr ⟨b₂, rfl, hrange hb₂, hv⟩
  · obtain ⟨hv, hmin, hb, hb₁, hb₂, hb₃⟩ := encodeChar_eq_four_iff.mp h
    refine .inr ⟨b, _, _, h, start_four hb.1 hb.2, ?_⟩
    refine (completes_more_iff (by decide)).mpr ⟨b₁, _, rfl, hrange ?_, ?_⟩
    · split_ifs <;> simp <;> omega
    · refine (completes_more_iff (by decide)).mpr ⟨b₂, _, rfl, hrange hb₂, ?_⟩
      exact completes_one_iff.mpr ⟨b₃, rfl, hrange hb₃, hv⟩

def encode (cs : List Char) : List UInt8 := cs.flatMap String.utf8EncodeChar

private theorem scan_encodeChar_append (c : Char) (rest : List UInt8) :
    scan (String.utf8EncodeChar c ++ rest) = some c :: scan rest := by
  rcases encodeChar_cases c with ⟨b, h, hs⟩ | ⟨b, tail, p, h, hs, hp⟩
  · simp [h, scan, scanFrom, feed, hs]
  · simp [h, scan, scanFrom, feed, hs, hp.scanFrom]

private theorem scan_encode (cs : List Char) : scan (encode cs) = cs.map some := by
  induction cs with
  | nil => rfl
  | cons c cs ih =>
    change scan (String.utf8EncodeChar c ++ encode cs) = _
    rw [scan_encodeChar_append, ih, List.map_cons]

/-- Whether no character of a byte string is broken. -/
def Whole (bytes : List UInt8) : Prop := ∀ place ∈ scan bytes, place.isSome = true

private theorem Whole.exists_encodeChar_append (h : Whole (b :: bytes)) :
    ∃ c rest, b :: bytes = String.utf8EncodeChar c ++ rest := by
  rw [Whole, scan, scanFrom, feed] at h
  have hopen (hp : ∃ p, start b = ([], some p)) :
      ∃ c rest, b :: bytes = String.utf8EncodeChar c ++ rest := by
    obtain ⟨p, hp⟩ := hp
    rw [hp] at h
    obtain ⟨tail, v, rest, rfl, hc⟩ := exists_completes h
    obtain ⟨c, _, henc⟩ := exists_encodeChar hp hc
    exact ⟨c, rest, by rw [henc, List.cons_append]⟩
  rcases lead_cases b with hb | hb | hb | hb | hb
  · obtain ⟨c, hc⟩ := exists_char (v := b.toNat) (by omega)
    exact ⟨c, bytes, by rw [encodeChar_eq_one_iff.mpr ⟨hc, hb⟩, List.singleton_append]⟩
  · exact hopen ⟨_, start_two hb.1 hb.2⟩
  · exact hopen ⟨_, start_three hb.1 hb.2⟩
  · exact hopen ⟨_, start_four hb.1 hb.2⟩
  · simp [hb] at h

private theorem Whole.exists_eq_encode (h : Whole bytes) : ∃ cs, bytes = encode cs := by
  -- on the length, for a character takes up to four bytes
  induction hlen : bytes.length using Nat.strongRecOn generalizing bytes with
  | ind n ih =>
    cases bytes with
    | nil => exact ⟨[], rfl⟩
    | cons b bytes =>
      obtain ⟨c, rest, hc⟩ := h.exists_encodeChar_append
      rw [hc] at h hlen ⊢
      have hrest : Whole rest := by
        intro place hplace
        apply h
        rw [scan_encodeChar_append]
        exact List.mem_cons_of_mem _ hplace
      have hpos := String.length_utf8EncodeChar c
      have hsize := c.utf8Size_pos
      obtain ⟨cs, rfl⟩ := ih rest.length (by rw [List.length_append] at hlen; omega) hrest rfl
      exact ⟨c :: cs, rfl⟩

theorem toByteArray_eq_iff {text : String} :
    bytes.toByteArray = text.toByteArray ↔ bytes = encode text.toList := by
  rw [← String.utf8Encode_toList, List.utf8Encode, List.toByteArray_inj, encode]

/-- Exactly the bytes of a text are read as that text. -/
theorem decode?_eq_some_iff {text : String} :
    decode? bytes = some text ↔ bytes.toByteArray = text.toByteArray := by
  rw [toByteArray_eq_iff]
  unfold decode?
  rw [Option.ite_none_right_eq_some, List.all_eq_true, Option.some.injEq]
  constructor
  · rintro ⟨hall, rfl⟩
    obtain ⟨cs, rfl⟩ := Whole.exists_eq_encode hall
    simp [scan_encode]
  · rintro rfl
    simp [scan_encode]

theorem isValidUTF8_iff : bytes.toByteArray.IsValidUTF8 ↔ ∃ text, decode? bytes = some text := by
  constructor
  · rintro ⟨cs, hcs⟩
    exact ⟨String.ofList cs, decode?_eq_some_iff.mpr (hcs.trans String.toByteArray_ofList.symm)⟩
  · rintro ⟨text, h⟩
    exact decode?_eq_some_iff.mp h ▸ text.isValidUTF8

theorem decode?_eq_none_iff : decode? bytes = none ↔ ¬ bytes.toByteArray.IsValidUTF8 := by
  rw [isValidUTF8_iff]
  cases decode? bytes <;> simp

end Scoresheet.Text.Utf8
