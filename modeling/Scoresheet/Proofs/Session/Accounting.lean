import Scoresheet.Proofs.Session.Lines
/-!
# The log accounts for every directive

Replaying a directive file writes, line by line of the file, what the line comes to and nothing else.
Every text taken from the file stands in brackets behind a head that the text cannot change, and on
one line. So the lines that tell of an action played are one for each action accepted.
-/
namespace Scoresheet

namespace Log

/-- How the line of an action, a directive or a token begins that comes to nothing. -/
def refusedHead : List Char := "Error: [".toList

def placementHeads : List (List Char) :=
  ["Placement: Adding [".toList, "Warning: Skipping [".toList, refusedHead]

/-- Whether a line begins with one of some heads and the text that it is about, in brackets. -/
def Tells (heads : List (List Char)) (about line : String) : Prop :=
  ∃ head ∈ heads, head ++ (about.toList ++ [']']) <+: line.toList

def tellsOfAction (line : List Char) : Bool := heads.any fun head => head.isPrefixOf line

private theorem isSome_actionToken? (line : List Char) :
    (actionToken? line).isSome = tellsOfAction line := by
  rw [actionToken?, Option.isSome_map, List.isSome_find?]
  rfl

variable {heads : List (List Char)} {about line : String}

private theorem tells_of_toList {head rest : List Char} (hh : head ∈ heads)
    (hl : line.toList = head ++ (about.toList ++ ']' :: rest)) : Tells heads about line := by
  refine ⟨head, hh, ?_⟩
  rw [hl, List.prefix_append_right_inj, List.prefix_append_right_inj]
  exact ⟨rest, rfl⟩

private theorem tells_bracketed {head rest : String} (hh : head.toList ∈ heads)
    (hr : rest.toList.head? = some ']') : Tells heads about (head ++ (about ++ rest)) := by
  obtain ⟨tail, htail⟩ := List.head?_eq_some_iff.mp hr
  have hl : (head ++ (about ++ rest)).toList = head.toList ++ (about.toList ++ ']' :: tail) := by
    rw [String.toList_append, String.toList_append, htail]
  exact tells_of_toList hh hl

private theorem Tells.of_subset {more : List (List Char)} (h : Tells heads about line)
    (hsub : heads ⊆ more) : Tells more about line := by
  obtain ⟨head, hh, hp⟩ := h
  exact ⟨head, hsub hh, hp⟩

private theorem Tells.exists_rest (h : Tells heads about line) :
    ∃ head ∈ heads, ∃ rest, line.toList = head ++ (about.toList ++ ']' :: rest) := by
  obtain ⟨head, hh, rest, hr⟩ := h
  refine ⟨head, hh, rest, ?_⟩
  rw [← hr]
  simp

private theorem Tells.actionToken?_eq_some (h : Tells Log.heads about line)
    (hb : ']' ∉ about.toList) :
    actionToken? line.toList = some about := by
  obtain ⟨head, hh, rest, hl⟩ := h.exists_rest
  rw [hl, actionToken?_of_head hh hb, String.ofList_toList]

theorem Tells.actionToken?_eq_none (h : Tells placementHeads about line) :
    actionToken? line.toList = none := by
  obtain ⟨head, hh, rest, hl⟩ := h.exists_rest
  rw [hl]
  simp only [placementHeads, List.mem_cons, List.not_mem_nil, or_false] at hh
  rcases hh with rfl | rfl | rfl
  · exact Log.actionToken?_eq_none (by decide) (by decide)
  · exact Log.actionToken?_eq_none (by decide) (by decide)
  · exact Log.actionToken?_eq_none (by decide) (by decide)

def tokensOf (told : List String) : List String :=
  told.filterMap fun line => actionToken? line.toList

private theorem tokensOf_append (told more : List String) :
    tokensOf (told ++ more) = tokensOf told ++ tokensOf more :=
  List.filterMap_append

private theorem tokensOf_cons_of_some {token : String} (h : actionToken? line.toList = some token)
    (told : List String) : tokensOf (line :: told) = token :: tokensOf told := by
  simp [tokensOf, h]

private theorem tokensOf_single_eq_nil (h : Tells placementHeads about line) :
    tokensOf [line] = [] := by
  simp [tokensOf, h.actionToken?_eq_none]

private theorem tokensOf_diagram (b : Board) : tokensOf b.diagram = [] := by
  apply List.filterMap_eq_nil_iff.mpr
  intro row hrow
  obtain ⟨c, cs, hc, hM, hC, _⟩ := Board.head_of_mem_diagram hrow
  rw [hc, Log.actionToken?_eq_none hM hC]

end Log

namespace Entry

variable {e : Entry} {token : String}

private theorem Accepts.tells (h : e.Accepts token) : Log.Tells Log.heads token e.text := by
  cases h with
  | moved m c captured =>
    obtain ⟨rest, hrest⟩ := toList_text_moved token m c captured
    exact Log.tells_of_toList (by decide) hrest
  | castled side c =>
    obtain ⟨rest, hrest⟩ := toList_text_castled token side c
    exact Log.tells_of_toList (by decide) hrest

private theorem head?_bracket (rest : String) : ("] " ++ rest).toList.head? = some ']' := by
  rw [String.toList_append]
  rfl

private theorem Refuses.tells (h : e.Refuses token) : Log.Tells [Log.refusedHead] token e.text := by
  have hhead : "Error: [".toList ∈ [Log.refusedHead] := List.mem_singleton_self _
  cases h with
  | movement m c found =>
    simp only [text_movementRefused, String.append_assoc]
    exact Log.tells_bracketed hhead (head?_bracket _)
  | castle c =>
    simp only [text_castleRefused, String.append_assoc]
    apply Log.tells_bracketed hhead
    rw [String.toList_append]
    rfl
  | unreadable error hquotes =>
    simp only [text_unreadable, String.append_assoc]
    apply Log.tells_bracketed hhead
    rw [String.toList_append]
    rfl

private theorem tells_placed {p : Placement} :
    Log.Tells Log.placementHeads token (placed token p).text := by
  simp only [text_placed, String.append_assoc]
  exact Log.tells_bracketed (by decide) (head?_bracket _)

private theorem tells_placementSkipped :
    Log.Tells Log.placementHeads token (placementSkipped token).text := by
  simp only [text_placementSkipped, String.append_assoc]
  exact Log.tells_bracketed (by decide) rfl

private theorem tells_unrecognized {content : String} :
    Log.Tells [Log.refusedHead] content (unrecognized content).text := by
  simp only [text_unrecognized, String.append_assoc]
  exact Log.tells_bracketed (by decide) rfl

end Entry

namespace Game

/-- Whether lines are what the log is told of an action. -/
def ActionTold (g : Game) (token : String) (told : List String) : Prop :=
  match g.accepted? token with
  | some board => ∃ line, told = line :: board.diagram ∧ Log.Tells Log.heads token line
  | none => ∃ line, told = [line] ∧ Log.Tells [Log.refusedHead] token line

/-- Whether lines are what the log is told of actions, one after the other. -/
def ActionsTold (g : Game) : List String → List String → Prop
  | [], told => told = []
  | token :: tokens, told => ∃ first rest, told = first ++ rest ∧ g.ActionTold token first ∧
      (g.acted token).ActionsTold tokens rest

/-- Whether lines are what the log is told of a line of the file. -/
def LineTold (g : Game) (line : String) (told : List String) : Prop :=
  match Directive.ofLine line with
  | .blank => told = []
  | .placement token => ∃ text, told = [text] ∧ Log.Tells Log.placementHeads token text
  | .movements tokens => g.ActionsTold tokens told
  | .castles tokens => g.ActionsTold tokens told
  | .unrecognized content => ∃ text, told = [text] ∧ Log.Tells [Log.refusedHead] content text

/-- Whether lines are what the log is told of the lines of a file. -/
def LinesTold (g : Game) : List String → List String → Prop
  | [], told => told = []
  | line :: lines, told => ∃ first rest, told = first ++ rest ∧ g.LineTold line first ∧
      (g.carriedOut line).LinesTold lines rest

def acceptedTokens (g : Game) : List String → List String
  | [] => []
  | token :: tokens =>
    if (g.accepted? token).isSome then token :: (g.acted token).acceptedTokens tokens
    else (g.acted token).acceptedTokens tokens

def acceptedIn (g : Game) : List String → List String
  | [] => []
  | line :: lines =>
    g.acceptedTokens (Directive.actionTokens line) ++ (g.carriedOut line).acceptedIn lines

end Game

namespace Transcript

variable {es fs : List Event}

private theorem written_notes (notes : List Note) : written (notes.map .note) = [] := by
  induction notes with
  | nil => rfl
  | cons n notes ih => exact ih

theorem written_logged (b : Board) : written b.logged = b.diagram := by
  have hentry : (Event.entry? ∘ fun row => Event.log (.diagramRow row)) =
      fun row => some (Entry.diagramRow row) := rfl
  rw [written, Board.logged, List.filterMap_map, hentry, List.filterMap_eq_map', List.map_map]
  exact List.map_id _

end Transcript

namespace Game

open Transcript (written written_append)

variable {g : Game} {es : List Event} {token line : String}

theorem Outcome.told (h : g.Outcome token es) : g.ActionTold token (written es) := by
  cases h with
  | @accepted board e ha he =>
    rw [ActionTold, ha]
    refine ⟨e.text, ?_, he.tells⟩
    show e.text :: written board.logged = _
    rw [Transcript.written_logged]
  | @refused e notes ha he =>
    rw [ActionTold, ha]
    refine ⟨e.text, ?_, he.tells⟩
    rw [written_append, Transcript.written_notes]
    rfl

private theorem actionTold_playAction (g : Game) (token : String) :
    g.ActionTold token (written (g.playAction token)) := by
  let begun : Game := { g with begun := true }
  let played := if Directive.isCastle token then begun.playCastle token
    else begun.playMovement token
  have hwritten : written (g.playAction token) = written played := by
    show written (([.update begun] ++ played) ++ [.update (begun.after played).passed]) = _
    rw [written_append, written_append]
    exact List.append_nil _
  rw [hwritten]
  exact (begun.outcome_played token).told

private theorem actionsTold_playActions (g : Game) (tokens : List String) :
    g.ActionsTold tokens (written (g.playActions tokens)) := by
  induction tokens generalizing g with
  | nil => rfl
  | cons token tokens ih =>
    rw [playActions, written_append, after_playAction]
    exact ⟨_, _, rfl, g.actionTold_playAction token, ih (g.acted token)⟩

private theorem lineTold_playLine (g : Game) (line : String) :
    g.LineTold line (written (g.playLine line)) := by
  unfold LineTold playLine
  cases Directive.ofLine line with
  | blank => rfl
  | placement token =>
    dsimp only
    split
    · exact ⟨_, rfl, Entry.tells_placementSkipped⟩
    · unfold place
      cases hread : Placement.ofToken token with
      | error e =>
        have hrefused := Entry.Refuses.unreadable e (Placement.quotes_of_ofToken hread)
        exact ⟨_, rfl, hrefused.tells.of_subset (by decide)⟩
      | ok p => exact ⟨_, rfl, Entry.tells_placed⟩
  | movements tokens => exact g.actionsTold_playActions tokens
  | castles tokens => exact g.actionsTold_playActions tokens
  | unrecognized content => exact ⟨_, rfl, Entry.tells_unrecognized⟩

private theorem linesTold_replayFrom (g : Game) (number : Nat) (lines : List String) :
    g.LinesTold lines (written (g.replayFrom number lines)) := by
  induction lines generalizing g number with
  | nil => rfl
  | cons line lines ih =>
    have hline : g.after (g.playNumbered number line) = g.carriedOut line := g.after_playLine line
    rw [replayFrom, written_append, hline]
    exact ⟨_, _, rfl, g.lineTold_playLine line, ih _ _⟩

private theorem ActionTold.tokensOf_eq {told : List String} (h : g.ActionTold token told)
    (hb : ']' ∉ token.toList) :
    Log.tokensOf told = if (g.accepted? token).isSome then [token] else [] := by
  unfold ActionTold at h
  cases ha : g.accepted? token with
  | none =>
    rw [ha] at h
    obtain ⟨text, rfl, ht⟩ := h
    exact Log.tokensOf_single_eq_nil (ht.of_subset (by decide))
  | some board =>
    rw [ha] at h
    obtain ⟨text, rfl, ht⟩ := h
    rw [Log.tokensOf_cons_of_some (ht.actionToken?_eq_some hb), Log.tokensOf_diagram]
    rfl

private theorem ActionsTold.tokensOf_eq {tokens told : List String} (h : g.ActionsTold tokens told)
    (ht : ∀ token ∈ tokens, Directive.isAction token = true) :
    Log.tokensOf told = g.acceptedTokens tokens := by
  induction tokens generalizing g told with
  | nil =>
    obtain rfl : told = [] := h
    rfl
  | cons token tokens ih =>
    obtain ⟨first, rest, rfl, hfirst, hrest⟩ := h
    obtain ⟨haction, htokens⟩ := List.forall_mem_cons.mp ht
    rw [Log.tokensOf_append, hfirst.tokensOf_eq (Directive.bracket_not_mem_of_isAction haction),
      ih hrest htokens, acceptedTokens]
    split <;> rfl

private theorem LineTold.tokensOf_eq {told : List String} (h : g.LineTold line told) :
    Log.tokensOf told = g.acceptedTokens (Directive.actionTokens line) := by
  have hactions (tokens : List String) (hl : (Directive.ofLine line).actions? = some tokens) :
      ∀ token ∈ tokens, Directive.isAction token = true := fun token ht =>
    (Directive.actions?_ofLine hl token ht).2
  unfold LineTold at h
  unfold Directive.actionTokens
  cases hd : Directive.ofLine line with
  | blank =>
    rw [hd] at h
    obtain rfl : told = [] := h
    rfl
  | placement token =>
    rw [hd] at h
    obtain ⟨text, rfl, ht⟩ := h
    exact Log.tokensOf_single_eq_nil ht
  | movements tokens =>
    rw [hd] at h
    have hall := hactions tokens (by rw [hd]; rfl)
    exact ActionsTold.tokensOf_eq h hall
  | castles tokens =>
    rw [hd] at h
    have hall := hactions tokens (by rw [hd]; rfl)
    exact ActionsTold.tokensOf_eq h hall
  | unrecognized content =>
    rw [hd] at h
    obtain ⟨text, rfl, ht⟩ := h
    exact Log.tokensOf_single_eq_nil (ht.of_subset (by decide))

/-- The log of a file tells of the actions accepted, one line for each. -/
theorem LinesTold.tokensOf_eq {lines told : List String} (h : g.LinesTold lines told) :
    Log.tokensOf told = g.acceptedIn lines := by
  induction lines generalizing g told with
  | nil =>
    obtain rfl : told = [] := h
    rfl
  | cons line lines ih =>
    obtain ⟨first, rest, rfl, hfirst, hrest⟩ := h
    rw [Log.tokensOf_append, hfirst.tokensOf_eq, ih hrest]
    rfl

end Game

/-- The log of a replayed file, whatever its bytes are, is made of the lines that its directives are
told by, in order, each of them whole. The lines that tell of an action played are as many as the
actions accepted, and they name the same tokens. -/
theorem Session.log_accounts_for_directives {s : Session} (hroom : s.log.room = none)
    (bytes : List UInt8) :
    let lines := Text.textLines bytes
    let done := s.perform (s.game.replay lines)
    ∃ (text : String) (told : List String),
      done.2 = none ∧
      done.1.game = s.game.carriedOutAll lines ∧
      done.1.log.text = s.log.text ++ text ∧
      Log.lines text = told.map String.toList ++ [[]] ∧
      (∀ line ∈ told, OnOneLine line) ∧
      s.game.LinesTold lines told ∧
      (∀ board : Board, board.diagram.length = 9) ∧
      Log.actionTokens text = s.game.acceptedIn lines ∧
      (Log.lines text).countP Log.tellsOfAction = (s.game.acceptedIn lines).length := by
  intro lines done
  let events := s.game.replay lines
  have htidy : Transcript.Tidy events :=
    s.game.tidy_replayFrom 1 fun line hline => Text.onOneLine_of_mem_textLines hline
  have htold : s.game.LinesTold lines (Transcript.written events) :=
    s.game.linesTold_replayFrom 1 lines
  have hlines : Log.lines (Transcript.logText events) =
      (Transcript.written events).map String.toList ++ [[]] :=
    Transcript.lines_logText htidy
  have htokens : Log.actionTokens (Transcript.logText events) = s.game.acceptedIn lines := by
    have hempty : [([] : List Char)].filterMap Log.actionToken? = [] := by decide
    rw [Log.actionTokens, hlines, List.filterMap_append, hempty, List.append_nil,
      List.filterMap_map]
    exact htold.tokensOf_eq
  have hcount : (Log.lines (Transcript.logText events)).countP Log.tellsOfAction =
      (s.game.acceptedIn lines).length := by
    have hsome : Log.tellsOfAction = fun line => (Log.actionToken? line).isSome := by
      funext line
      exact (Log.isSome_actionToken? line).symm
    rw [← htokens, Log.actionTokens, List.length_filterMap_eq_countP, hsome]
  obtain ⟨next, hp, hgame, htext, _⟩ :=
    perform_unshown hroom (s.game.unshown_replayFrom 1 lines)
  have hdone : done = (next, none) := hp
  rw [hdone]
  refine ⟨_, _, rfl, ?_, htext, hlines, Transcript.onOneLine_of_mem_written htidy, htold,
    Board.length_diagram, htokens, hcount⟩
  rw [hgame, Game.after_replayFrom]

/-- A line that poses as an action played is told of as an error, and so is Black's action without a
pawn. -/
theorem Session.log_not_forged :
    let s := fresh none
    let bytes := "Ple2\nMovement: [e2-e4]\ne2-e4 e7-e5".toList.map fun c => UInt8.ofNat c.toNat
    let done := s.perform (s.game.replay (Text.textLines bytes))
    s.log.room = none ∧
      ∃ text, done.1.log.text = text ∧ Log.actionTokens text = ["e2-e4"] ∧
        (Log.lines text).countP Log.tellsOfAction = 1 := by
  intro s bytes done
  have hroom : s.log.room = none := rfl
  have hempty : s.log.text = "" := rfl
  have haccepted : s.game.acceptedIn (Text.textLines bytes) = ["e2-e4"] := by decide +kernel
  obtain ⟨text, told, _, _, htext, _, _, _, _, htokens, hcount⟩ :=
    log_accounts_for_directives hroom bytes
  clear_value s bytes
  rw [hempty, String.empty_append] at htext
  refine ⟨hroom, text, htext, ?_, ?_⟩
  · rw [htokens, haccepted]
  · rw [hcount, haccepted]
    rfl

end Scoresheet
