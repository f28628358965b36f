import Scoresheet.Proofs.Session.Sequences
import Scoresheet.Proofs.Token.Framing
/-!
# The text of a directive file

A directive file can be taken in parts, cut at any of its line feeds, and it can be read before it is
cut into lines or after. How its lines end and what their comments say has no part in what they come
to.
-/
namespace Scoresheet.Session

open Text (Line lineFeed lines textLines splitLines lines_append lines_ended lines_unended
  splitLines_lossy)
open Text.Utf8 (lossy)
open Directive (slash carriageReturn commentBytes)

variable {s mid : Session}

private theorem map_ofLine_text (ls : List Line) :
    (ls.map Line.text).map Directive.ofLine = (ls.map lossy).map Directive.ofLine := by
  simp [Directive.ofLine_text]

private theorem recorded_playLines_splitLines (s : Session) (text : List UInt8) :
    recorded (s.playLines (splitLines (lossy text))) = recorded (s.replayed text) := by
  have hlines : s.playLines (textLines text) = s.playLines (splitLines (lossy text)) := by
    rw [splitLines_lossy]
    exact playLines_congr (map_ofLine_text (lines text))
  rw [recorded_replayed, hlines]

/-- What follows a line feed is taken as a file of its own, from what the file before it left. -/
theorem recorded_replayed_append {before : List UInt8} (behind : List UInt8)
    (h : s.replayed (before ++ [lineFeed]) = (mid, none)) :
    recorded (mid.replayed behind) = recorded (s.replayed (before ++ lineFeed :: behind)) := by
  have hparts : textLines (before ++ lineFeed :: behind) =
      textLines (before ++ [lineFeed]) ++ textLines behind := by
    rw [textLines, lines_append, List.map_append]
    rfl
  have hfirst := s.recorded_replayed (before ++ [lineFeed])
  rw [h] at hfirst
  rcases hplayed : s.playLines (textLines (before ++ [lineFeed])) with ⟨next, f?⟩
  rw [hplayed] at hfirst
  -- `mid` and `next` differ in their notes alone
  have hgame : mid.game = next.game := congrArg Recorded.game hfirst
  have hlog : mid.log = next.log := congrArg Recorded.log hfirst
  obtain rfl : none = f? := congrArg Recorded.fault hfirst
  calc
    recorded (mid.replayed behind)
      = recorded (mid.playLines (textLines behind)) := mid.recorded_replayed behind
    _ = recorded (next.playLines (textLines behind)) := by
        rw [recorded_playLines_eq, recorded_playLines_eq, hgame, hlog]
    _ = recorded (s.playLines (textLines (before ++ lineFeed :: behind))) := by
        rw [hparts, playLines_append_of_none hplayed]
    _ = recorded (s.replayed (before ++ lineFeed :: behind)) := (s.recorded_replayed _).symm

/-- A directive file leaves the same game and the same log whether it is taken as a whole or in two
parts, cut at any of its line feeds, and whether its bytes are cut into lines and read line by line
or read first and then cut. This holds for all bytes, also those that are not UTF-8. -/
theorem file_taken_in_parts {s : Session} (hroom : s.log.room = none)
    (before behind : List UInt8) :
    let whole := s.replayed (before ++ lineFeed :: behind)
    let first := s.replayed (before ++ [lineFeed])
    let second := first.1.replayed behind
    (first.2 = none ∧ second.2 = none ∧ whole.2 = none) ∧
      (second.1.game = whole.1.game ∧ second.1.log = whole.1.log) ∧
      ∀ text, recorded (s.playLines (splitLines (lossy text))) = recorded (s.replayed text) := by
  intro whole first second
  have hwhole : whole.2 = none := fault_replayed hroom _
  have hfirst : first.2 = none := fault_replayed hroom _
  have hmid : s.replayed (before ++ [lineFeed]) = (first.1, none) := Prod.ext rfl hfirst
  have hsame : recorded second = recorded whole := recorded_replayed_append behind hmid
  have hsecond : second.2 = none := (congrArg Recorded.fault hsame).trans hwhole
  exact ⟨⟨hfirst, hsecond, hwhole⟩, ⟨congrArg Recorded.game hsame, congrArg Recorded.log hsame⟩,
    s.recorded_playLines_splitLines⟩

/-- A character breaks off in the comment before the line feed, and the byte that would have
completed it is a line of its own. -/
theorem broken_character_between_parts :
    let ascii (text : String) : List UInt8 := text.toList.map fun c => UInt8.ofNat c.toNat
    let before := ascii "Ple2 // " ++ [0xE2, 0x82]
    let behind := 0xAC :: lineFeed :: ascii "e2-e4"
    let s := fresh none
    s.log.room = none ∧
      ((s.replayed (before ++ [lineFeed])).1.replayed behind).1.game =
        (s.replayed (before ++ lineFeed :: behind)).1.game ∧
      (s.replayed (before ++ [lineFeed])).1.game.turn = .white ∧
      (s.replayed (before ++ lineFeed :: behind)).1.game.turn = .black := by
  intro ascii before behind s
  have hroom : s.log.room = none := rfl
  obtain ⟨_, ⟨hgame, _⟩, _⟩ := file_taken_in_parts hroom before behind
  exact ⟨hroom, hgame, by decide +kernel, by decide +kernel⟩

section Forms

variable {text line part comment : List UInt8}

private theorem recorded_replayed_single (h : lines text = [line])
    (hline : Directive.ofLine (lossy line) = Directive.ofLine (lossy part)) :
    recorded (s.replayed text) = recorded (s.perform (s.game.playLine (lossy part))) := by
  have hread : (textLines text).map Directive.ofLine = [lossy part].map Directive.ofLine := by
    rw [textLines, h, map_ofLine_text]
    simp [hline]
  rw [recorded_replayed, playLines_congr hread, playLines_eq, Game.playAll_single]

private theorem recorded_replayed_unended (h : lineFeed ∉ part) :
    recorded (s.replayed part) = recorded (s.perform (s.game.playLine (lossy part))) := by
  by_cases hne : part = []
  · -- no line at all comes to the same as a blank one
    subst hne
    have hblank : s.game.playLine (lossy []) = [] := rfl
    rw [recorded_replayed, hblank]
    rfl
  · exact recorded_replayed_single (lines_unended h hne) rfl

private theorem recorded_replayed_ended (h : lineFeed ∉ line)
    (hline : Directive.ofLine (lossy line) = Directive.ofLine (lossy part)) :
    recorded (s.replayed (line ++ [lineFeed])) =
      recorded (s.perform (s.game.playLine (lossy part))) :=
  recorded_replayed_single (lines_ended h) hline

/-- A line without a comment, which does not end with half of a comment mark, is carried out alike
whether it ends with the file, with a line feed, with a carriage return and a line feed, or with a
comment of any bytes: the game, the log and the fault that it leaves are the same. Only a log that
refuses something makes it a fault. -/
theorem line_endings_and_comments_alike (hpart : lineFeed ∉ part) (hmark : ¬ commentBytes <:+: part)
    (hends : ¬ [slash] <:+ part) (hcomment : lineFeed ∉ comment) (s : Session) :
    ∀ text ∈ [part, part ++ [lineFeed], part ++ [carriageReturn] ++ [lineFeed],
        part ++ (commentBytes ++ comment) ++ [lineFeed]],
      recorded (s.replayed text) = recorded (s.perform (s.game.playLine (lossy part))) ∧
        (s.log.room = none → (s.replayed text).2 = none) := by
  have hreturn : lineFeed ∉ part ++ [carriageReturn] := by
    have hne : lineFeed ≠ carriageReturn := by decide
    simp [hpart, hne]
  have hcommented : lineFeed ∉ part ++ (commentBytes ++ comment) := by
    have hne : lineFeed ≠ slash := by decide
    simp [hpart, hcomment, commentBytes, hne]
  intro text htext
  refine ⟨?_, fun hroom => fault_replayed hroom text⟩
  simp only [List.mem_cons, List.not_mem_nil, or_false] at htext
  rcases htext with rfl | rfl | rfl | rfl
  · exact recorded_replayed_unended hpart
  · exact recorded_replayed_ended hpart rfl
  · exact recorded_replayed_ended hreturn (Directive.ofLine_lossy_returned part)
  · exact recorded_replayed_ended hcommented (Directive.ofLine_lossy_commented hmark hends comment)

/-- A placement and a blank beyond ASCII, with a comment that begins and ends within a character. -/
theorem broken_characters_in_comment :
    let part : List UInt8 := "Ple2 ".toList.map (fun c => UInt8.ofNat c.toNat) ++ [0xC2, 0xA0]
    let comment : List UInt8 := [0x80, 0xE2, 0x82]
    let commented := part ++ (commentBytes ++ comment) ++ [lineFeed]
    let s := fresh none
    (lineFeed ∉ part ∧ ¬ commentBytes <:+: part ∧ ¬ [slash] <:+ part ∧ lineFeed ∉ comment ∧
        s.log.room = none) ∧
      recorded (s.replayed commented) = recorded (s.perform (s.game.playLine (lossy part))) ∧
      (s.replayed commented).2 = none ∧ (s.replayed commented).1.game.board.count = 1 := by
  intro part comment commented s
  have hpart : lineFeed ∉ part := by decide
  have hmark : ¬ commentBytes <:+: part := by decide
  have hends : ¬ [slash] <:+ part := by decide
  have hcomment : lineFeed ∉ comment := by decide
  have hroom : s.log.room = none := rfl
  have hin : commented ∈ [part, part ++ [lineFeed], part ++ [carriageReturn] ++ [lineFeed],
      commented] := by simp
  obtain ⟨hsame, hfault⟩ :=
    line_endings_and_comments_alike hpart hmark hends hcomment s commented hin
  exact ⟨⟨hpart, hmark, hends, hcomment, hroom⟩, hsame, hfault hroom, by decide +kernel⟩

end Forms

end Scoresheet.Session
