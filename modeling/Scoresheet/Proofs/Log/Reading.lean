import Scoresheet.Board.Diagram
import Scoresheet.Log.Entry
import Scoresheet.Proofs.Token.Quoting
import Scoresheet.Proofs.Token.Writing
/-!
# Reading the log of a play

The log can be read back. Its lines end at the line feeds, since no entry of a play has one within,
and the lines that tell of an action played are known by how they begin and name the token in
brackets.
-/
namespace Scoresheet

namespace Entry

def token? : Entry → Option String
  | moved token _ _ _ => some token
  | castled token _ _ => some token
  | _ => none

-- The lines of entries as equations: unfolding the definition at once is slow.
private theorem text_moved (token : String) (m : Movement) (c : Color)
    (captured : Option Chessman) :
    (moved token m c captured).text =
      "Movement: [" ++ token ++ "] " ++ (Chessman.mk c m.kind).name ++ " moves from " ++
        m.source.capitalName ++ " to " ++ m.target.capitalName ++ captureText captured := rfl

private theorem text_castled (token : String) (side : CastleSide) (c : Color) :
    (castled token side c).text =
      "Castle: [" ++ token ++ "] " ++ c.name ++ " castles " ++ side.name := rfl

private theorem text_inputOpened (path : String) :
    (inputOpened path).text = "Process: Successfully opened file [" ++ path ++ "]" := rfl

theorem text_placed (token : String) (p : Placement) :
    (placed token p).text = "Placement: Adding [" ++ token ++ "] " ++ p.toChessman.name ++ " on " ++
      p.square.capitalName := rfl

theorem text_placementSkipped (token : String) :
    (placementSkipped token).text =
      "Warning: Skipping [" ++ token ++ "]. Movement has begun." := rfl

theorem text_movementRefused (token : String) (m : Movement) (c : Color)
    (found : Option Chessman) :
    (movementRefused token m c found).text =
      "Error: [" ++ token ++ "] " ++ c.name ++ " cannot move a " ++ m.kind.name ++ " from " ++
        m.source.capitalName ++ " to " ++ m.target.capitalName ++ "; " ++
        m.source.capitalName ++ " " ++ foundText found ++ "." := rfl

theorem text_castleRefused (token : String) (c : Color) :
    (castleRefused token c).text =
      "Error: [" ++ token ++ "] This castle is impossible at this time for " ++ c.name ++ "." := rfl

theorem text_unrecognized (content : String) :
    (unrecognized content).text = "Error: [" ++ content ++ "] is not a valid directive." := rfl

theorem text_unreadable (token : String) (error : TokenError) :
    (unreadable token error).text =
      "Error: [" ++ token ++ "] could not be read: " ++ error.message := rfl

private theorem captureText_some (man : Chessman) :
    captureText (some man) = " capturing the " ++ man.name := rfl

private theorem text_diagramRow (row : String) : (diagramRow row).text = row := rfl

private theorem text_stuck (c : Color) :
    (stuck c).text = "Process: " ++ c.name ++ " has no piece that can move." := rfl

theorem toList_text_moved (token : String) (m : Movement) (c : Color)
    (captured : Option Chessman) : ∃ rest, (moved token m c captured).text.toList =
      "Movement: [".toList ++ (token.toList ++ ']' :: rest) := by
  refine ⟨(" " ++ (Chessman.mk c m.kind).name ++ " moves from " ++ m.source.capitalName ++
    " to " ++ m.target.capitalName ++ captureText captured).toList, ?_⟩
  rw [text_moved]
  simp only [String.toList_append, List.append_assoc]
  rfl

theorem toList_text_castled (token : String) (side : CastleSide) (c : Color) :
    ∃ rest, (castled token side c).text.toList =
      "Castle: [".toList ++ (token.toList ++ ']' :: rest) := by
  refine ⟨(" " ++ c.name ++ " castles " ++ side.name).toList, ?_⟩
  rw [text_castled]
  simp only [String.toList_append, List.append_assoc]
  rfl

/-- The entries that interactive play makes. -/
inductive OfPlay : Entry → Prop where
  | moved (m : Movement) (c : Color) (captured : Option Chessman) :
    OfPlay (.moved m.token m c captured)
  | castled (side : CastleSide) (c : Color) : OfPlay (.castled side.token side c)
  | diagramRow (b : Board) (row : String) (h : row ∈ b.diagram) : OfPlay (.diagramRow row)
  | boardEmpty : OfPlay .boardEmpty
  | stuck (c : Color) : OfPlay (.stuck c)

end Entry

namespace Log

/-- The lines of a log, with an empty one behind the last line feed. -/
def lines (text : String) : List (List Char) := Text.pieces (· == '\n') text.toList

def heads : List (List Char) := ["Movement: [".toList, "Castle: [".toList]

def actionToken? (line : List Char) : Option String :=
  (heads.find? fun head => head.isPrefixOf line).map fun head =>
    String.ofList ((line.drop head.length).takeWhile (· != ']'))

def actionTokens (text : String) : List String := (lines text).filterMap actionToken?

def errorHead : List Char := "Error:".toList

private theorem lines_line {line : String} (h : OnOneLine line) (rest : String) :
    lines (line ++ "\n" ++ rest) = line.toList :: lines rest := by
  have hline : ∀ c ∈ line.toList, (c == '\n') = false := by
    intro c hc
    apply beq_false_of_ne
    rintro rfl
    exact h hc
  have hsplit : (line ++ "\n" ++ rest).toList = line.toList ++ '\n' :: rest.toList := by simp
  rw [lines, hsplit, Text.pieces_append_separator _ _ _ _ (by simp),
    Text.pieces_of_no_separator _ _ hline]
  rfl

def ofLines (told : List String) : String := String.join (told.map (· ++ "\n"))

theorem ofLines_cons (line : String) (told : List String) :
    ofLines (line :: told) = line ++ "\n" ++ ofLines told := by
  simp [ofLines]

theorem ofLines_append (told more : List String) :
    ofLines (told ++ more) = ofLines told ++ ofLines more := by
  simp [ofLines]

theorem lines_ofLines {told : List String} (h : ∀ line ∈ told, OnOneLine line) :
    lines (ofLines told) = told.map String.toList ++ [[]] := by
  induction told with
  | nil => rfl
  | cons line told ih =>
    obtain ⟨hline, htold⟩ := List.forall_mem_cons.mp h
    rw [ofLines_cons, lines_line hline, ih htold]
    rfl

theorem actionToken?_of_head {head token rest : List Char} (hh : head ∈ heads)
    (ht : ']' ∉ token) :
    actionToken? (head ++ (token ++ ']' :: rest)) = some (String.ofList token) := by
  have hfind : (heads.find? fun other => other.isPrefixOf (head ++ (token ++ ']' :: rest))) =
      some head := by
    simp only [heads, List.mem_cons, List.not_mem_nil, or_false] at hh
    rcases hh with rfl | rfl <;> rfl
  have htake : (token ++ ']' :: rest).takeWhile (· != ']') = token := by
    rw [List.takeWhile_append_of_pos]
    · simp
    · intro c hc
      apply bne_iff_ne.mpr
      rintro rfl
      exact ht hc
  rw [actionToken?, hfind, Option.map_some, List.drop_left, htake]

private theorem not_errorHead_prefix {c : Char} {cs : List Char} (h : c ≠ 'E') :
    ¬ errorHead <+: c :: cs := by
  intro hp
  exact h (List.cons_prefix_cons.mp hp).1.symm

theorem actionToken?_eq_none {c : Char} {cs : List Char} (hM : c ≠ 'M') (hC : c ≠ 'C') :
    actionToken? (c :: cs) = none := by
  simp [actionToken?, heads, List.isPrefixOf, hM.symm, hC.symm]

end Log

private theorem Color.onOneLine_name (c : Color) : OnOneLine c.name := by cases c <;> decide

private theorem PieceKind.onOneLine_name (kind : PieceKind) : OnOneLine kind.name := by
  cases kind <;> decide

private theorem CastleSide.onOneLine_name (side : CastleSide) : OnOneLine side.name := by
  cases side <;> decide

private theorem CastleSide.onOneLine_token (side : CastleSide) : OnOneLine side.token := by
  cases side <;> decide

private theorem Chessman.onOneLine_name (man : Chessman) : OnOneLine man.name := by
  have hspace : OnOneLine " " := by decide
  simp only [name, onOneLine_append, man.color.onOneLine_name, man.kind.onOneLine_name, hspace,
    and_self]

private theorem Square.onOneLine_capitalName (s : Square) : OnOneLine s.capitalName := by
  have hfile : ∀ file, '\n' ≠ fileCapital file := by decide
  have hrank : ∀ rank, '\n' ≠ rankDigit rank := by decide
  simp [OnOneLine, capitalName, hfile, hrank]

private theorem Movement.onOneLine_token (m : Movement) : OnOneLine m.token := by
  rw [OnOneLine, toList_token]
  exact not_mem_chars (by decide) m

namespace Board

private theorem shownChar_forall {P : Char → Prop} (hspace : P ' ')
    (hglyph : ∀ man : Chessman, P man.glyph)
    (b : Board) (s : Square) : P (b.shownChar s) := by
  unfold shownChar
  split
  · exact hglyph _
  · exact hspace

private theorem onOneLine_of_mem_diagram {b : Board} {row : String} (h : row ∈ b.diagram) :
    OnOneLine row := by
  have hdigit : ∀ rank, '\n' ≠ Square.rankDigit rank := by decide
  have hshown (s : Square) : '\n' ≠ b.shownChar s := by
    apply shownChar_forall (by decide)
    rintro ⟨c, kind⟩
    cases c <;> cases kind <;> decide
  rcases List.mem_append.mp h with h | h
  · obtain ⟨rank, _, rfl⟩ := List.mem_map.mp h
    simp [OnOneLine, rankRow, hdigit, hshown]
  · rw [List.mem_singleton.mp h]
    decide

theorem head_of_mem_diagram {b : Board} {row : String} (h : row ∈ b.diagram) :
    ∃ c cs, row.toList = c :: cs ∧ c ≠ 'M' ∧ c ≠ 'C' ∧ c ≠ 'E' := by
  have hdigit : ∀ rank, Square.rankDigit rank ≠ 'M' ∧ Square.rankDigit rank ≠ 'C' ∧
      Square.rankDigit rank ≠ 'E' := by decide
  rcases List.mem_append.mp h with h | h
  · obtain ⟨rank, _, rfl⟩ := List.mem_map.mp h
    exact ⟨_, _, String.toList_ofList, hdigit rank⟩
  · rw [List.mem_singleton.mp h]
    exact ⟨' ', _, rfl, by decide⟩

end Board

namespace Entry

/-- Whether all that an entry quotes is on one line. -/
def Tidy : Entry → Prop
  | inputOpened path => OnOneLine path
  | placed token _ => OnOneLine token
  | placementSkipped token => OnOneLine token
  | moved token _ _ _ => OnOneLine token
  | movementRefused token _ _ _ => OnOneLine token
  | castled token _ _ => OnOneLine token
  | castleRefused token _ => OnOneLine token
  | unrecognized content => OnOneLine content
  | unreadable token error => OnOneLine token ∧ error.Quotes token
  | diagramRow row => OnOneLine row
  | verbatim line => OnOneLine line
  | _ => True

private theorem onOneLine_captureText (captured : Option Chessman) :
    OnOneLine (captureText captured) := by
  cases captured with
  | none => decide
  | some man =>
    rw [captureText_some, onOneLine_append]
    exact ⟨by decide, man.onOneLine_name⟩

private theorem onOneLine_foundText (found : Option Chessman) : OnOneLine (foundText found) := by
  cases found with
  | none => decide
  | some man =>
    show OnOneLine ("holds a " ++ man.name)
    exact onOneLine_append.mpr ⟨by decide, man.onOneLine_name⟩

theorem Tidy.onOneLine_text {e : Entry} (h : e.Tidy) : OnOneLine e.text := by
  cases e with
  | opened => decide
  | inputOpened path =>
    have hpath : OnOneLine path := h
    simp only [text_inputOpened, onOneLine_append, hpath, and_true]
    decide
  | inputMissing => decide
  | inputUnopenable => decide
  | placed token p =>
    have ht : OnOneLine token := h
    simp only [text_placed, onOneLine_append, ht, Chessman.onOneLine_name,
      Square.onOneLine_capitalName, and_true]
    decide
  | placementSkipped token =>
    have ht : OnOneLine token := h
    simp only [text_placementSkipped, onOneLine_append, ht, and_true]
    decide
  | moved token m c captured =>
    have ht : OnOneLine token := h
    simp only [text_moved, onOneLine_append, ht, onOneLine_captureText, Chessman.onOneLine_name,
      Square.onOneLine_capitalName, and_true]
    decide
  | movementRefused token m c found =>
    have ht : OnOneLine token := h
    simp only [text_movementRefused, onOneLine_append, ht, Color.onOneLine_name,
      PieceKind.onOneLine_name, Square.onOneLine_capitalName, onOneLine_foundText, and_true]
    decide
  | castled token side c =>
    have ht : OnOneLine token := h
    simp only [text_castled, onOneLine_append, ht, Color.onOneLine_name, CastleSide.onOneLine_name,
      and_true]
    decide
  | castleRefused token c =>
    have ht : OnOneLine token := h
    simp only [text_castleRefused, onOneLine_append, ht, Color.onOneLine_name, and_true]
    decide
  | unrecognized content =>
    have hc : OnOneLine content := h
    simp only [text_unrecognized, onOneLine_append, hc, and_true]
    decide
  | unreadable token error =>
    obtain ⟨ht, hquotes⟩ := h
    simp only [text_unreadable, onOneLine_append, ht, hquotes.onOneLine_message ht, and_true]
    decide
  | diagramRow row => exact h
  | boardEmpty => decide
  | stuck c =>
    simp only [text_stuck, onOneLine_append, Color.onOneLine_name, and_true]
    decide
  | closing => decide
  | verbatim line => exact h

end Entry

namespace Entry.OfPlay

variable {e : Entry} (h : e.OfPlay)
include h

theorem tidy : e.Tidy := by
  cases h with
  | moved m c captured => exact m.onOneLine_token
  | castled side c => exact side.onOneLine_token
  | diagramRow b row hrow => exact Board.onOneLine_of_mem_diagram hrow
  | boardEmpty => trivial
  | stuck c => trivial

/-- The token that is read off a line is that of the action played, if the line tells of one. -/
theorem actionToken?_text : Log.actionToken? e.text.toList = e.token? := by
  cases h with
  | moved m c captured =>
    have ht : ']' ∉ m.token.toList := by
      rw [Movement.toList_token]
      exact Movement.not_mem_chars (by decide) m
    obtain ⟨rest, hrest⟩ := toList_text_moved m.token m c captured
    rw [hrest, Log.actionToken?_of_head (by decide) ht, String.ofList_toList]
    rfl
  | castled side c =>
    have ht : ']' ∉ side.token.toList := by cases side <;> decide
    obtain ⟨rest, hrest⟩ := toList_text_castled side.token side c
    rw [hrest, Log.actionToken?_of_head (by decide) ht, String.ofList_toList]
    rfl
  | diagramRow b row hrow =>
    obtain ⟨c, cs, hc, hM, hC, _⟩ := Board.head_of_mem_diagram hrow
    rw [text_diagramRow, hc, Log.actionToken?_eq_none hM hC]
    rfl
  | boardEmpty => decide
  | stuck c => cases c <;> decide

theorem not_error : ¬ Log.errorHead <+: e.text.toList := by
  cases h with
  | moved m c captured =>
    obtain ⟨rest, hrest⟩ := toList_text_moved m.token m c captured
    rw [hrest]
    exact Log.not_errorHead_prefix (by decide)
  | castled side c =>
    obtain ⟨rest, hrest⟩ := toList_text_castled side.token side c
    rw [hrest]
    exact Log.not_errorHead_prefix (by decide)
  | diagramRow b row hrow =>
    obtain ⟨c, cs, hc, _, _, hE⟩ := Board.head_of_mem_diagram hrow
    rw [text_diagramRow, hc]
    exact Log.not_errorHead_prefix hE
  | boardEmpty => decide
  | stuck c => cases c <;> decide

end Entry.OfPlay

end Scoresheet
