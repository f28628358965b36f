import Scoresheet.Proofs.Token.PlacementSpelling
import Scoresheet.Token.Castle
/-!
# Recognising tokens

A token has the shape of a movement exactly if it has a spelling with the right letters, and then it
can be read unless a capital stands in front as the file of the first square: reading takes that
capital for the letter of a piece. What is written to the log is recognised for what it is.
-/
namespace Scoresheet

namespace Spelling

open Square Directive

/-- Whether every part of a spelling is of the right sort. The first file may be a capital. -/
structure Shaped (w : Spelling) : Prop where
  letter : ∀ c, w.letter = some c → isPieceLetter c = true
  sourceFile : isFile w.sourceFile = true
  sourceRank : isRank w.sourceRank = true
  marked : w.Marked
  targetFile : isFile w.targetFile = true
  targetRank : isRank w.targetRank = true

variable {w w' : Spelling} {cs : List Char}

private theorem isSeparator_iff {c : Char} :
    isSeparator c = true ↔ c = Movement.quietMark ∨ c = Movement.captureMark := by
  simp [isSeparator, Movement.quietMark, Movement.captureMark]

private theorem hasSpanShape_iff :
    hasSpanShape cs = true ↔ ∃ w : Spelling, w.letter = none ∧ w.span = cs ∧ w.Shaped := by
  constructor
  · intro h
    unfold hasSpanShape at h
    split at h
    · next f r f' r' =>
      simp only [Bool.and_eq_true] at h
      obtain ⟨⟨⟨hf, hr⟩, hf'⟩, hr'⟩ := h
      exact ⟨⟨none, f, r, none, f', r'⟩, rfl, rfl, by simp, hf, hr, by simp [Marked], hf', hr'⟩
    · next f r mark f' r' =>
      simp only [Bool.and_eq_true] at h
      obtain ⟨⟨⟨⟨hf, hr⟩, hm⟩, hf'⟩, hr'⟩ := h
      refine ⟨⟨none, f, r, some mark, f', r'⟩, rfl, rfl, by simp, hf, hr, ?_, hf', hr'⟩
      rintro c hc
      rw [← Option.some.inj hc]
      exact isSeparator_iff.mp hm
    · cases h
  · rintro ⟨⟨_, f, r, mark, f', r'⟩, _, rfl, hw⟩
    obtain ⟨_, hf, hr, hm, hf', hr'⟩ := hw
    cases mark with
    | none => simp_all [span, hasSpanShape]
    | some c =>
      have hc := isSeparator_iff.mpr (hm c rfl)
      simp_all [span, hasSpanShape]

/-- A text has the shape of a movement exactly if it has a well-shaped spelling. -/
theorem hasMovementShape_iff :
    hasMovementShape cs = true ↔ ∃ w : Spelling, w.chars = cs ∧ w.Shaped := by
  unfold hasMovementShape
  rw [Bool.or_eq_true, hasSpanShape_iff]
  constructor
  · rintro (⟨w, hl, hs, hw⟩ | h)
    · refine ⟨w, ?_, hw⟩
      rw [chars, hl, hs]
      rfl
    · cases cs with
      | nil => cases h
      | cons letter rest =>
        obtain ⟨hl, hs⟩ := Bool.and_eq_true_iff.mp h
        obtain ⟨w, _, rfl, hw⟩ := hasSpanShape_iff.mp hs
        refine ⟨{ w with letter := some letter }, rfl, { hw with letter := ?_ }⟩
        rintro c hc
        rwa [← Option.some.inj hc]
  · rintro ⟨w, rfl, hw⟩
    rcases hl : w.letter with _ | letter
    · left
      refine ⟨w, hl, ?_, hw⟩
      rw [chars, hl]
      rfl
    · right
      rw [chars, hl]
      refine Bool.and_eq_true_iff.mpr ⟨hw.letter letter hl, hasSpanShape_iff.mpr ?_⟩
      exact ⟨{ w with letter := none }, rfl, rfl, { hw with letter := by simp }⟩

private theorem isFile_isRank_disjoint {c : Char} (hf : isFile c = true) : isRank c = false := by
  obtain ⟨file, hf⟩ := isFile_iff.mp hf
  apply Bool.eq_false_iff.mpr
  intro hr
  obtain ⟨rank, hr⟩ := isRank_iff.mp hr
  rw [rankOf?_eq_some_iff.mp hr, fileOf?_rankDigit] at hf
  cases hf

theorem Shaped.letter_eq_none (hw : w.Shaped) (hw' : w'.Shaped) (hc : w.chars = w'.chars)
    (hl : w.letter = none) : w'.letter = none := by
  rcases hl' : w'.letter with _ | letter
  · rfl
  · have hsecond : w.sourceRank = w'.sourceFile := by
      simp only [chars, span, hl, hl', Option.toList_none, Option.toList_some, List.nil_append,
        List.cons_append, List.cons.injEq] at hc
      exact hc.2.1
    have hr := isFile_isRank_disjoint hw'.sourceFile
    rw [← hsecond, hw.sourceRank] at hr
    cases hr

theorem exists_means_iff : (∃ m, w.Means m) ↔
    w.Shaped ∧ (w.letter = none → w.sourceFile.isUpper = false) := by
  constructor
  · rintro ⟨m, hm⟩
    obtain ⟨hsf, hsr⟩ := ofChars?_eq_some_iff.mp hm.source
    obtain ⟨htf, htr⟩ := ofChars?_eq_some_iff.mp hm.target
    refine ⟨⟨?_, isFile_iff.mpr ⟨_, hsf⟩, isRank_iff.mpr ⟨_, hsr⟩, hm.marked,
      isFile_iff.mpr ⟨_, htf⟩, isRank_iff.mpr ⟨_, htr⟩⟩, hm.small⟩
    intro c hc
    have hk := hm.kind
    rw [kind?, hc] at hk
    exact isPieceLetter_iff.mpr ⟨m.kind, hk⟩
  · rintro ⟨hw, hs⟩
    have hk : ∃ kind, w.kind? = some kind := by
      rcases hl : w.letter with _ | letter
      · exact ⟨.pawn, by rw [kind?, hl]⟩
      · obtain ⟨kind, h⟩ := isPieceLetter_iff.mp (hw.letter letter hl)
        exact ⟨kind, by simp [kind?, hl, h]⟩
    obtain ⟨kind, hk⟩ := hk
    obtain ⟨sf, hsf⟩ := isFile_iff.mp hw.sourceFile
    obtain ⟨sr, hsr⟩ := isRank_iff.mp hw.sourceRank
    obtain ⟨tf, htf⟩ := isFile_iff.mp hw.targetFile
    obtain ⟨tr, htr⟩ := isRank_iff.mp hw.targetRank
    exact ⟨⟨kind, ⟨sr, sf⟩, ⟨tr, tf⟩, w.mark == some Movement.captureMark⟩, hs, hk,
      ofChars?_eq_some_iff.mpr ⟨hsf, hsr⟩, hw.marked, beq_iff_eq,
      ofChars?_eq_some_iff.mpr ⟨htf, htr⟩⟩

end Spelling

namespace Directive

open Spelling

/-- Whether a token is two squares of which the first has a capital for its file. -/
def startsWithCapitalFile (token : String) : Bool :=
  hasSpanShape token.toList && token.toList.head?.any Char.isUpper

private theorem startsWithCapitalFile_iff {token : String} : startsWithCapitalFile token = true ↔
    ∃ w : Spelling, w.chars = token.toList ∧ w.Shaped ∧ w.letter = none ∧
      w.sourceFile.isUpper = true := by
  rw [startsWithCapitalFile, Bool.and_eq_true, hasSpanShape_iff]
  constructor
  · rintro ⟨⟨w, hl, hs, hw⟩, hu⟩
    refine ⟨w, ?_, hw, hl, ?_⟩
    · rw [chars, hl, hs]
      rfl
    · simpa [← hs, span] using hu
  · rintro ⟨w, hc, hw, hl, hu⟩
    rw [chars, hl] at hc
    refine ⟨⟨w, hl, hc, hw⟩, ?_⟩
    simpa [← hc, span] using hu

/-- A token without blanks can be read as a movement exactly if it has the shape of one and does not
start with a capital file. -/
theorem readable_iff {token : String} (h : Text.BlankFree token.toList) :
    (∃ m, Movement.ofToken token = .ok m) ↔
      isMovement token = true ∧ startsWithCapitalFile token = false := by
  have hc : Token.chars token = token.toList := Text.trim_of_blankFree h
  rw [isMovement, hasMovementShape_iff, ← Bool.not_eq_true, startsWithCapitalFile_iff]
  simp only [ofToken_eq_ok_iff, hc]
  constructor
  · rintro ⟨m, w, hcs, hm⟩
    obtain ⟨hw, hsmall⟩ := exists_means_iff.mp ⟨m, hm⟩
    refine ⟨⟨w, hcs, hw⟩, ?_⟩
    rintro ⟨w', hcs', hw', hl', hu⟩
    -- two spellings of one token agree on whether there is a letter
    have hcc : w'.chars = w.chars := hcs'.trans hcs.symm
    have hl := hw'.letter_eq_none hw hcc hl'
    have hfile : w'.sourceFile = w.sourceFile := by
      simp only [chars, span, hl, hl', Option.toList_none, List.nil_append,
        List.cons.injEq] at hcc
      exact hcc.1
    rw [hfile, hsmall hl] at hu
    cases hu
  · rintro ⟨⟨w, hcs, hw⟩, hno⟩
    have hsmall : w.letter = none → w.sourceFile.isUpper = false := by
      intro hl
      apply Bool.eq_false_iff.mpr
      intro hu
      exact hno ⟨w, hcs, hw, hl, hu⟩
    obtain ⟨m, hm⟩ := exists_means_iff.mpr ⟨hw, hsmall⟩
    exact ⟨m, w, hcs, hm⟩

theorem isMovement_of_startsWithCapitalFile {token : String}
    (h : startsWithCapitalFile token = true) : isMovement token = true := by
  obtain ⟨w, hc, hw, _⟩ := startsWithCapitalFile_iff.mp h
  exact hasMovementShape_iff.mpr ⟨w, hc, hw⟩

theorem isCastle_iff {token : String} :
    isCastle token = true ↔ ∃ side : CastleSide, token = side.token := by
  rw [isCastle, hasCastleShape, Bool.or_eq_true, beq_iff_eq, beq_iff_eq, String.toList_inj,
    String.toList_inj]
  constructor
  · rintro (rfl | rfl)
    · exact ⟨.king, rfl⟩
    · exact ⟨.queen, rfl⟩
  · rintro ⟨_ | _, rfl⟩
    · exact .inl rfl
    · exact .inr rfl

theorem startsWithCapitalFile_castle (side : CastleSide) :
    startsWithCapitalFile side.token = false := by
  cases side <;> decide

def actionAlphabet : List Char := "KQBNRPabcdefghABCDEFGH12345678-xO".toList

theorem mem_actionAlphabet_of_isAction {token : String} (h : isAction token = true) :
    ∀ c ∈ token.toList, c ∈ actionAlphabet := by
  have hall {letters : List Char} (hl : (letters.all fun c => actionAlphabet.contains c) = true)
      {c : Char} (hc : letters.contains c = true) : c ∈ actionAlphabet :=
    List.contains_iff_mem.mp (List.all_eq_true.mp hl c (List.contains_iff_mem.mp hc))
  rcases Bool.or_eq_true_iff.mp h with h | h
  · obtain ⟨w, hw, hs⟩ := hasMovementShape_iff.mp h
    have hletter (letter : Char) (hl : w.letter = some letter) : letter ∈ actionAlphabet :=
      hall (by decide) (hs.letter letter hl)
    have hmark (mark : Char) (hm : w.mark = some mark) : mark ∈ actionAlphabet :=
      hall (by decide) (isSeparator_iff.mpr (hs.marked mark hm))
    intro c hc
    simp only [← hw, chars, span, List.mem_append, List.mem_cons, List.not_mem_nil, or_false,
      Option.mem_toList] at hc
    rcases hc with hc | rfl | rfl | hc | rfl | rfl
    · exact hletter c hc
    · exact hall (by decide) hs.sourceFile
    · exact hall (by decide) hs.sourceRank
    · exact hmark c hc
    · exact hall (by decide) hs.targetFile
    · exact hall (by decide) hs.targetRank
  · obtain ⟨side, rfl⟩ := isCastle_iff.mp h
    have htoken : (side.token.toList.all fun c => actionAlphabet.contains c) = true := by
      cases side <;> decide
    intro c hc
    exact List.contains_iff_mem.mp (List.all_eq_true.mp htoken c hc)

theorem not_mem_of_isAction {token : String} {c : Char} (h : isAction token = true)
    (hc : c ∉ actionAlphabet) : c ∉ token.toList := fun hin =>
  hc (mem_actionAlphabet_of_isAction h c hin)

theorem bracket_not_mem_of_isAction {token : String} (h : isAction token = true) :
    ']' ∉ token.toList :=
  not_mem_of_isAction h (by decide)

private theorem blankFree_of_hasPlacementShape {cs : List Char} (h : hasPlacementShape cs = true) :
    Text.BlankFree cs := by
  have hall {letters : List Char} (hl : Text.BlankFree letters) {c : Char}
      (hc : letters.contains c = true) : Text.isBlank c = false :=
    hl c (List.contains_iff_mem.mp hc)
  unfold hasPlacementShape at h
  split at h
  · next piece color file rank =>
    simp only [Bool.and_eq_true] at h
    obtain ⟨⟨⟨hpiece, hcolor⟩, hfile⟩, hrank⟩ := h
    have hpiece := hall (by decide) hpiece
    have hcolor := hall (by decide) hcolor
    have hfile := hall (by decide) hfile
    have hrank := hall (by decide) hrank
    simp [Text.BlankFree, hpiece, hcolor, hfile, hrank]
  · cases h

theorem exists_placement {token : String} (h : isPlacement token = true) :
    ∃ p, Placement.ofToken token = .ok p := by
  have hc : Token.chars token = token.toList :=
    Text.trim_of_blankFree (blankFree_of_hasPlacementShape h)
  rwa [Placement.exists_ofToken_iff, hc]

private theorem ofActions_ne_placement {content token : String} {tokens : List String} :
    ofActions content tokens ≠ .placement token := by
  unfold ofActions
  split
  · split <;> exact Directive.noConfusion
  · exact Directive.noConfusion

theorem isPlacement_of_ofLine {line token : String} (h : ofLine line = .placement token) :
    isPlacement token = true := by
  have htokens {content : String} {tokens : List String}
      (ht : ofTokens content tokens = .placement token) : isPlacement token = true := by
    unfold ofTokens at ht
    split at ht
    · split at ht
      · next hp =>
        obtain rfl := Directive.placement.inj ht
        exact hp
      · exact absurd ht ofActions_ne_placement
    · exact absurd ht ofActions_ne_placement
  simp only [ofLine] at h
  split at h
  · cases h
  · exact htokens h

/-- What a line can ask a side to do. -/
def actions? : Directive → Option (List String)
  | movements tokens => some tokens
  | castles tokens => some tokens
  | _ => none

private theorem actions?_ofActions {content : String} {tokens found : List String}
    (h : (ofActions content tokens).actions? = some found) :
    found = tokens ∧ ∀ token ∈ tokens, isAction token = true := by
  unfold ofActions at h
  split at h
  · next hc =>
    have hall := List.all_eq_true.mp (Bool.and_eq_true_iff.mp hc).2
    split at h <;> exact ⟨(Option.some.inj h).symm, hall⟩
  · cases h

theorem actions?_ofLine {line : String} {tokens : List String}
    (h : (ofLine line).actions? = some tokens) :
    ∀ token ∈ tokens, Text.BlankFree token.toList ∧ isAction token = true := by
  have hwords (cs : List Char) :
      ∀ token ∈ (Text.words cs).map String.ofList, Text.BlankFree token.toList := by
    intro token ht
    obtain ⟨w, hw, rfl⟩ := List.mem_map.mp ht
    rw [String.toList_ofList]
    exact Text.blankFree_of_mem_words hw
  have hacts {content : String} {ts : List String}
      (ht : (ofTokens content ts).actions? = some tokens) :
      tokens = ts ∧ ∀ token ∈ ts, isAction token = true := by
    unfold ofTokens at ht
    split at ht
    · split at ht
      · cases ht
      · exact actions?_ofActions ht
    · exact actions?_ofActions ht
  simp only [ofLine] at h
  split at h
  · cases h
  · obtain ⟨rfl, ha⟩ := hacts h
    intro token ht
    exact ⟨hwords _ token ht, ha token ht⟩

end Directive

end Scoresheet
