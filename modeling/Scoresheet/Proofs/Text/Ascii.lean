import Scoresheet.Text.Line
/-!
# ASCII within UTF-8

A byte of ASCII is the whole of its character wherever it stands: it is never part of a longer
character, and it ends whatever was open before it. So a byte string can be cut at such a byte before
it is read or after, with the same result.
-/
namespace Scoresheet.Text

/-- Whether an open character lies beyond ASCII whatever comes, and no byte of ASCII continues it. -/
structure Pending.BeyondAscii (p : Pending) : Prop where
  low : 0x80 ≤ p.low
  /-- The bits after the next byte are at least these. -/
  begun : 2 ≤ 64 * p.bits + (p.low.toNat - 0x80)
  complete : p.missing ≤ 1 → 0x80 ≤ 64 * p.bits + (p.low.toNat - 0x80)

namespace Utf8

variable {b x : UInt8} {c : Char} {p? : Option Pending} {as bs bytes : List UInt8}

private theorem beyondAscii_of_bits {bits missing : Nat} {high : UInt8} (h : 1 ≤ bits)
    (hlast : missing ≤ 1 → 2 ≤ bits) : (Pending.mk bits missing 0x80 high).BeyondAscii where
  low := UInt8.le_refl _
  begun := by
    show 2 ≤ 64 * bits + (0x80 - 0x80)
    omega
  complete hm := by
    have hbits := hlast hm
    show 0x80 ≤ 64 * bits + (0x80 - 0x80)
    omega

/-- Whether a byte is the whole of a character. The zero byte is left out: its character is also what
a number yields that belongs to none. -/
def IsByteOf (b : UInt8) (c : Char) : Prop := b ≤ 0x7F ∧ b ≠ 0 ∧ c.toNat = b.toNat

instance (b : UInt8) (c : Char) : Decidable (IsByteOf b c) :=
  inferInstanceAs (Decidable (b ≤ 0x7F ∧ b ≠ 0 ∧ c.toNat = b.toNat))

private theorem IsByteOf.ofNat_eq (h : IsByteOf b c) : Char.ofNat b.toNat = c := by
  rw [← h.2.2, Char.ofNat_toNat]

private theorem IsByteOf.start_eq (h : IsByteOf b c) : start b = ([some c], none) := by
  rw [start, if_pos h.1, h.ofNat_eq]

theorem IsByteOf.toNat_lt (h : IsByteOf b c) : b.toNat < 0x80 :=
  Nat.lt_succ_of_le (UInt8.le_iff_toNat_le.mp h.1)

private theorem IsByteOf.ofNat_ne (h : IsByteOf b c) {n : Nat} (hn : n ≠ b.toNat) :
    Char.ofNat n ≠ c := by
  rintro rfl
  obtain ⟨_, hzero, hread⟩ := h
  by_cases hv : n.isValidChar
  · have hsame : (Char.ofNat n).toNat = n := by
      rw [Char.ofNat, dif_pos hv]
      rfl
    exact hn (hsame.symm.trans hread)
  · -- there is no such character, and reading it yields the first of all
    have hfirst : (Char.ofNat n).toNat = 0 := by
      rw [Char.ofNat, dif_neg hv]
      rfl
    exact hzero (UInt8.toNat_inj.mp (hread.symm.trans hfirst))

private theorem start_cases (x : UInt8) :
    start x = ([some (Char.ofNat x.toNat)], none) ∨ start x = ([none], none) ∨
      ∃ p : Pending, start x = ([], some p) ∧ p.BeyondAscii := by
  -- in each range the first byte or the narrowed second one leads past ASCII
  generalize hs : start x = progress
  unfold start at hs
  split at hs
  · exact .inl hs.symm
  right
  split at hs
  · exact .inl hs.symm
  next hlow =>
  have hlead : 0xC2 ≤ x.toNat := UInt8.le_iff_toNat_le.mp (UInt8.not_lt.mp hlow)
  split at hs
  · exact .inr ⟨_, hs.symm, beyondAscii_of_bits (by omega) (by omega)⟩
  next htwo =>
  have htwo : 0xDF < x.toNat := UInt8.lt_iff_toNat_lt.mp (UInt8.not_le.mp htwo)
  split at hs
  · exact .inr ⟨_, hs.symm, by decide, by decide, by decide⟩
  next he0 =>
  have he0 : x.toNat ≠ 0xE0 := fun h => he0 (UInt8.toNat_inj.mp h)
  split at hs
  · exact .inr ⟨_, hs.symm, by decide, by decide, by decide⟩
  split at hs
  · exact .inr ⟨_, hs.symm, beyondAscii_of_bits (by omega) (by omega)⟩
  next hthree =>
  have hthree : 0xEF < x.toNat := UInt8.lt_iff_toNat_lt.mp (UInt8.not_le.mp hthree)
  split at hs
  · exact .inr ⟨_, hs.symm, by decide, by decide, by decide⟩
  next hf0 =>
  have hf0 : x.toNat ≠ 0xF0 := fun h => hf0 (UInt8.toNat_inj.mp h)
  split at hs
  · exact .inr ⟨_, hs.symm, beyondAscii_of_bits (by omega) (by omega)⟩
  split at hs
  · exact .inr ⟨_, hs.symm, by decide, by decide, by decide⟩
  · exact .inl hs.symm

private theorem feed_cases {p : Pending} (h : p.BeyondAscii) (x : UInt8) :
    (∃ n, 0x80 ≤ n ∧ feed (some p) x = ([some (Char.ofNat n)], none)) ∨
      (∃ q : Pending, feed (some p) x = ([], some q) ∧ q.BeyondAscii) ∨
      feed (some p) x = (none :: (start x).1, (start x).2) := by
  have hbegun := h.begun
  rw [feed]
  split
  · next hrange =>
    have hlow : p.low.toNat ≤ x.toNat :=
      UInt8.le_iff_toNat_le.mp (of_decide_eq_true (Bool.and_eq_true_iff.mp hrange).1)
    dsimp only
    split
    · next hlast =>
      have hcode := h.complete hlast
      exact .inl ⟨64 * p.bits + (x.toNat - 0x80), by omega, rfl⟩
    · exact .inr (.inl ⟨_, rfl, beyondAscii_of_bits (by omega) (by omega)⟩)
  · exact .inr (.inr rfl)

/-- Whether what is open, if anything, lies beyond ASCII. -/
def OpenBeyond (p? : Option Pending) : Prop := ∀ p ∈ p?, p.BeyondAscii

private theorem openBeyond_none : OpenBeyond none := by simp [OpenBeyond]

private theorem openBeyond_start (x : UInt8) : OpenBeyond (start x).2 := by
  rcases start_cases x with h | h | ⟨p, h, hp⟩
  · rw [h]
    exact openBeyond_none
  · rw [h]
    exact openBeyond_none
  · rw [h]
    simpa [OpenBeyond] using hp

theorem OpenBeyond.feed (hp : OpenBeyond p?) (x : UInt8) : OpenBeyond (feed p? x).2 := by
  cases p? with
  | none => exact openBeyond_start x
  | some p =>
    rcases feed_cases (hp p rfl) x with ⟨n, _, h⟩ | ⟨q, h, hq⟩ | h
    · rw [h]
      exact openBeyond_none
    · rw [h]
      simpa [OpenBeyond] using hq
    · rw [h]
      exact openBeyond_start x

private theorem IsByteOf.not_mem_start (h : IsByteOf b c) (hx : x ≠ b) : some c ∉ (start x).1 := by
  have hne : Char.ofNat x.toNat ≠ c := h.ofNat_ne fun hsame => hx (UInt8.toNat_inj.mp hsame)
  rcases start_cases x with hs | hs | ⟨p, hs, _⟩
  · rw [hs]
    simpa using hne.symm
  · simp [hs]
  · simp [hs]

private theorem IsByteOf.not_mem_feed (h : IsByteOf b c) (hp : OpenBeyond p?) (hx : x ≠ b) :
    some c ∉ (feed p? x).1 := by
  have hfresh := h.not_mem_start hx
  cases p? with
  | none => exact hfresh
  | some p =>
    rcases feed_cases (hp p rfl) x with ⟨n, hn, hf⟩ | ⟨q, hf, _⟩ | hf
    · have hsmall := h.toNat_lt
      have hne : Char.ofNat n ≠ c := h.ofNat_ne (by omega)
      rw [hf]
      simpa using hne.symm
    · simp [hf]
    · rw [hf]
      simpa using hfresh

private theorem IsByteOf.not_mem_scanFrom (h : IsByteOf b c) (hp : OpenBeyond p?) (hb : b ∉ bytes) :
    some c ∉ scanFrom p? bytes := by
  induction bytes generalizing p? with
  | nil => cases p? <;> simp [scanFrom]
  | cons x bytes ih =>
    obtain ⟨hx, hbytes⟩ := List.ne_and_not_mem_of_not_mem_cons hb
    have hnow := h.not_mem_feed hp hx.symm
    have hlater := ih (hp.feed x) hbytes
    simp [scanFrom, hnow, hlater]

/-- At a byte of ASCII reading starts afresh, whatever was open before. -/
theorem IsByteOf.scanFrom_append (h : IsByteOf b c) (hp : OpenBeyond p?) (as bs : List UInt8) :
    scanFrom p? (as ++ b :: bs) = scanFrom p? as ++ some c :: scan bs := by
  induction as generalizing p? with
  | nil =>
    cases p? with
    | none => simp [scanFrom, feed, h.start_eq, scan]
    | some p => simp [scanFrom, feed_ascii p b h.1 (hp p rfl).low, h.ofNat_eq, scan]
  | cons x as ih =>
    rw [List.cons_append, scanFrom, ih (hp.feed x), scanFrom, List.append_assoc]

private theorem scanFrom_some_ne_nil {p : Pending} (hp : p.BeyondAscii) (bytes : List UInt8) :
    scanFrom (some p) bytes ≠ [] := by
  induction bytes generalizing p with
  | nil => simp [scanFrom]
  | cons x bytes ih =>
    rcases feed_cases hp x with ⟨n, _, h⟩ | ⟨q, h, hq⟩ | h
    · simp [scanFrom, h]
    · simpa [scanFrom, h] using ih hq
    · simp [scanFrom, h]

private theorem scan_eq_nil_iff : scan bytes = [] ↔ bytes = [] := by
  constructor
  · intro h
    cases bytes with
    | nil => rfl
    | cons x rest =>
      rw [scan, scanFrom, feed] at h
      rcases start_cases x with hs | hs | ⟨p, hs, hp⟩
      · simp [hs] at h
      · simp [hs] at h
      · rw [hs] at h
        exact absurd h (scanFrom_some_ne_nil hp rest)
  · rintro rfl
    rfl

def lossyChars (bytes : List UInt8) : List Char := (lossy bytes).toList

private theorem lossyChars_eq (bytes : List UInt8) :
    lossyChars bytes = (scan bytes).map fun place => place.getD '\ufffd' :=
  String.toList_ofList

theorem lossyChars_eq_nil_iff : lossyChars bytes = [] ↔ bytes = [] := by
  rw [lossyChars_eq, List.map_eq_nil_iff, scan_eq_nil_iff]

theorem IsByteOf.lossyChars_append (h : IsByteOf b c) (as bs : List UInt8) :
    lossyChars (as ++ b :: bs) = lossyChars as ++ c :: lossyChars bs := by
  simp [lossyChars_eq, scan, h.scanFrom_append openBeyond_none]

theorem IsByteOf.not_mem_lossyChars (h : IsByteOf b c) (hb : b ∉ bytes) : c ∉ lossyChars bytes := by
  rw [lossyChars_eq]
  intro hc
  obtain ⟨place, hplace, hread⟩ := List.mem_map.mp hc
  cases place with
  | none =>
    have hsmall := h.toNat_lt
    have hbig : c.toNat = 0xFFFD := by
      rw [← hread]
      rfl
    rw [← h.2.2, hbig] at hsmall
    exact absurd hsmall (by decide)
  | some d =>
    obtain rfl : d = c := hread
    exact h.not_mem_scanFrom openBeyond_none hb hplace

theorem beq_eq_false_of_not_mem {α : Type} [BEq α] [LawfulBEq α] {x : α} {xs : List α}
    (h : x ∉ xs) : ∀ y ∈ xs, (y == x) = false := by
  intro y hy
  apply beq_false_of_ne
  rintro rfl
  exact h hy

private theorem cut_induction {motive : List UInt8 → Prop} (b : UInt8)
    (free : ∀ bytes, b ∉ bytes → motive bytes)
    (cut : ∀ as bs, b ∉ as → motive bs → motive (as ++ b :: bs)) (bytes : List UInt8) :
    motive bytes := by
  have hall : ∀ as, b ∉ as → motive (as ++ bytes) := by
    induction bytes with
    | nil =>
      intro as has
      rw [List.append_nil]
      exact free as has
    | cons x bytes ih =>
      intro as has
      by_cases hx : b = x
      · subst hx
        exact cut as bytes has (ih [] List.not_mem_nil)
      · have hmore := ih (as ++ [x]) (by simp [has, hx])
        rwa [List.append_assoc, List.singleton_append] at hmore
  exact hall [] List.not_mem_nil

theorem IsByteOf.exists_of_lossyChars_eq (h : IsByteOf b c) {cs ds : List Char}
    (hread : lossyChars bytes = cs ++ c :: ds) :
    ∃ as bs, bytes = as ++ b :: bs ∧ lossyChars as = cs ∧ lossyChars bs = ds := by
  -- the first such byte is the one in question, or lies before it
  induction bytes using cut_induction b generalizing cs with
  | free bytes hb => exact absurd (by simp [hread]) (h.not_mem_lossyChars hb)
  | cut as bs hfirst ih =>
    have hfirst' := h.not_mem_lossyChars hfirst
    rw [h.lossyChars_append] at hread
    rcases List.append_eq_append_iff.mp hread with ⟨mid, rfl, hmid⟩ | ⟨mid, hmid, hrest⟩
    · cases mid with
      | nil =>
        obtain ⟨_, rfl⟩ := List.cons.inj hmid
        exact ⟨as, bs, rfl, (List.append_nil _).symm, rfl⟩
      | cons d mid =>
        obtain ⟨rfl, hbs⟩ := List.cons.inj hmid
        obtain ⟨as', bs', rfl, hcs, hds⟩ := ih hbs
        refine ⟨as ++ b :: as', bs', by simp, ?_, hds⟩
        rw [h.lossyChars_append, hcs]
    · cases mid with
      | nil =>
        obtain ⟨_, rfl⟩ := List.cons.inj hrest
        exact ⟨as, bs, rfl, by simpa using hmid, rfl⟩
      | cons d mid =>
        obtain ⟨rfl, _⟩ := List.cons.inj hrest
        simp [hmid] at hfirst'

/-- Cutting at a byte of ASCII and reading the pieces is reading and cutting at its character. -/
theorem IsByteOf.pieces_lossyChars (h : IsByteOf b c) (bytes : List UInt8) :
    pieces (· == c) (lossyChars bytes) = (pieces (· == b) bytes).map lossyChars := by
  have hfree {part : List UInt8} (hb : b ∉ part) :
      pieces (· == c) (lossyChars part) = (pieces (· == b) part).map lossyChars := by
    rw [pieces_of_no_separator _ _ (beq_eq_false_of_not_mem (h.not_mem_lossyChars hb)),
      pieces_of_no_separator _ _ (beq_eq_false_of_not_mem hb)]
    rfl
  induction bytes using cut_induction b with
  | free bytes hb => exact hfree hb
  | cut as bs hfirst ih =>
    rw [h.lossyChars_append, pieces_append_separator (· == c) _ _ c (beq_self_eq_true c),
      pieces_append_separator (· == b) _ _ b (beq_self_eq_true b), hfree hfirst, ih, List.map_append]

end Utf8

end Scoresheet.Text
