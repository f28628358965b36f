import Scoresheet.Proofs.Session.CutShort
import Scoresheet.Proofs.Text.Encoding
import Scoresheet.Proofs.Text.Lines
import Scoresheet.Proofs.Text.Numbers
/-!
# Asking

A menu is decided by the first line that it does not refuse. Asking takes the lines up to that one
and leaves the others; it shows the menu, and a complaint for every line that is refused.
-/
namespace Scoresheet

open Text (Line)

def Text.Line.Gives (line : Line) (n : Nat) : Prop :=
  ∃ text : String, line.toByteArray = text.toByteArray ∧ Text.Gives text n

private theorem Text.Line.gives_iff_exists {line : Line} {n : Nat} :
    line.Gives n ↔ ∃ text, Utf8.decode? line = some text ∧ number? text = some n := by
  simp only [Gives, Utf8.decode?_eq_some_iff, number?_eq_some_iff]

private theorem Text.Line.gives_iff {line : Line} {text : String} {n : Nat}
    (h : Utf8.decode? line = some text) : line.Gives n ↔ number? text = some n := by
  simp [gives_iff_exists, h]

namespace Reply

variable {α : Type}

def choice? : Reply α → Option α
  | choose option => some option
  | _ => none

def fault? : Reply α → Option Fault
  | garbled => some .notText
  | _ => none

end Reply

namespace Menu

variable {α : Type} {m : Menu α} {line : Line} {line? : Option Line} {r : Reply α}

/-- What a line says to a menu: a number from one on is that of an option, and whatever is no number
of the menu is refused. The end of the input leaves. -/
inductive Says (m : Menu α) : Option Line → Reply α → Prop where
  | ended : Says m none .leave
  | garbled {line : Line} (h : ¬ line.toByteArray.IsValidUTF8) : Says m (some line) .garbled
  | left {line : Line} (h : line.Gives 0) : Says m (some line) .leave
  | chosen {line : Line} {n : Nat} {option : α} (h : line.Gives n) (hn : 1 ≤ n)
    (ho : m.options[n - 1]? = some option) : Says m (some line) (.choose option)
  | refused {line : Line} (h : line.toByteArray.IsValidUTF8)
    (hn : ∀ n, line.Gives n → m.options.length < n) : Says m (some line) .refuse

private theorem reply_of_decode {text : String} (hd : Text.Utf8.decode? line = some text) :
    m.reply (some line) = m.replyToText text := by
  simp [reply, hd]

private theorem Says.reply_eq (h : m.Says line? r) : m.reply line? = r := by
  cases h with
  | ended => rfl
  | garbled h => simp [reply, Text.Utf8.decode?_eq_none_iff.mpr h]
  | left h =>
    obtain ⟨text, hd, hn⟩ := Text.Line.gives_iff_exists.mp h
    rw [reply_of_decode hd, replyToText, hn]
  | @chosen _ n _ h hpos ho =>
    obtain ⟨text, hd, hn⟩ := Text.Line.gives_iff_exists.mp h
    obtain ⟨place, rfl⟩ := Nat.exists_eq_add_of_le' hpos
    rw [Nat.add_sub_cancel] at ho
    rw [reply_of_decode hd, replyToText, hn]
    simp [ho]
  | refused h hn =>
    obtain ⟨text, hd⟩ := Text.Utf8.isValidUTF8_iff.mp h
    rw [reply_of_decode hd, replyToText]
    cases hnum : Text.number? text with
    | none => rfl
    | some n =>
      have hmany := hn n ((Text.Line.gives_iff hd).mpr hnum)
      obtain ⟨place, rfl⟩ := Nat.exists_eq_add_of_le' (Nat.one_le_of_lt hmany)
      simp [List.getElem?_eq_none (Nat.le_of_lt_succ hmany)]

private theorem says_reply (m : Menu α) (line? : Option Line) : m.Says line? (m.reply line?) := by
  cases line? with
  | none => exact .ended
  | some line =>
    cases hd : Text.Utf8.decode? line with
    | none =>
      rw [reply, hd]
      exact .garbled (Text.Utf8.decode?_eq_none_iff.mp hd)
    | some text =>
      have hutf : line.toByteArray.IsValidUTF8 := Text.Utf8.isValidUTF8_iff.mpr ⟨text, hd⟩
      have hgives {n : Nat} : line.Gives n ↔ Text.number? text = some n := Text.Line.gives_iff hd
      rw [reply_of_decode hd, replyToText]
      split
      · next hn => exact .refused hutf fun n h => by simp [hgives, hn] at h
      · next hn => exact .left (hgives.mpr hn)
      · next n hn =>
        split
        · next ho =>
          refine .refused hutf fun other h => ?_
          obtain rfl : n + 1 = other := Option.some.inj (hn.symm.trans (hgives.mp h))
          exact Nat.lt_succ_of_le (List.getElem?_eq_none_iff.mp ho)
        · next option ho => exact .chosen (hgives.mpr hn) n.succ_pos ho

private theorem says_iff : m.Says line? r ↔ m.reply line? = r := by
  constructor
  · exact Says.reply_eq
  · rintro rfl
    exact m.says_reply line?

/-- How a menu takes lines: it refuses some, and the next one or the end of the input decides. -/
structure Course (m : Menu α) (input refused : List Line) (deciding : Option Line)
    (answer : Answer α) : Prop where
  lines : input = refused ++ deciding.toList ++ answer.rest
  ended : deciding = none → answer.rest = []
  refuses : ∀ line ∈ refused, m.reply (some line) = .refuse
  decides : m.reply deciding ≠ .refuse
  choice : answer.choice = (m.reply deciding).choice?
  events : answer.events =
    refused.flatMap (fun _ => m.askedAgain) ++ (m.reply deciding).fault?.toList.map .fault

private theorem awaitAnswer_of_refused (h : m.reply (some line) = .refuse) (rest : List Line) :
    m.awaitAnswer (line :: rest) =
      { m.awaitAnswer rest with events := m.askedAgain ++ (m.awaitAnswer rest).events } := by
  rw [awaitAnswer, h]

private theorem awaitAnswer_of_decided (h : m.reply (some line) ≠ .refuse) (rest : List Line) :
    m.awaitAnswer (line :: rest) =
      ⟨(m.reply (some line)).fault?.toList.map .fault, (m.reply (some line)).choice?, rest⟩ := by
  rw [awaitAnswer]
  cases hr : m.reply (some line) with
  | refuse => exact absurd hr h
  | _ => rfl

theorem Course.refused {rest refused : List Line} {deciding : Option Line} {answer : Answer α}
    (h : m.Course rest refused deciding answer) (hr : m.reply (some line) = .refuse) :
    m.Course (line :: rest) (line :: refused) deciding
      { answer with events := m.askedAgain ++ answer.events } where
  lines := by simp [h.lines]
  ended := h.ended
  refuses := List.forall_mem_cons.mpr ⟨hr, h.refuses⟩
  decides := h.decides
  choice := h.choice
  events := by simp [h.events]

theorem exists_course (m : Menu α) (input : List Line) :
    ∃ refused deciding, m.Course input refused deciding (m.awaitAnswer input) := by
  -- on the lines that are still to be read
  induction input with
  | nil => exact ⟨[], none, rfl, fun _ => rfl, by simp, by simp [reply], rfl, rfl⟩
  | cons line rest ih =>
    by_cases hr : m.reply (some line) = .refuse
    · obtain ⟨refused, deciding, h⟩ := ih
      rw [awaitAnswer_of_refused hr]
      exact ⟨line :: refused, deciding, h.refused hr⟩
    · rw [awaitAnswer_of_decided hr]
      exact ⟨[], some line, rfl, by simp, by simp, hr, rfl, rfl⟩

def page (m : Menu α) : String :=
  m.question ++ "\n" ++ "0. Quit" ++ "\n" ++
    String.join (m.options.mapIdx fun i option => (i + 1).repr ++ ". " ++ m.label option ++ "\n") ++
    "> "

def complaint (m : Menu α) : String :=
  "Please enter a number from 0 to " ++ m.options.length.repr ++ "." ++ "\n" ++ "> "

private theorem consoleText_says (lines : List String) :
    Transcript.consoleText (lines.map .say ++ [.prompt]) =
      String.join (lines.map (· ++ "\n")) ++ "> " := by
  have hprompt : Transcript.consoleText [.prompt] = "> " := rfl
  rw [Transcript.consoleText_append, hprompt, Transcript.consoleText, Transcript.joined,
    List.map_map]
  rfl

private theorem consoleText_shown (m : Menu α) : Transcript.consoleText m.shown = m.page := by
  have hnumbered : (m.options.mapIdx fun i option => (i + 1).repr ++ ". " ++ m.label option).map
      (· ++ "\n") =
        m.options.mapIdx fun i option => (i + 1).repr ++ ". " ++ m.label option ++ "\n" := by
    apply List.ext_getElem?
    simp [Function.comp_def]
  rw [shown, consoleText_says, lines, List.map_cons, List.map_cons, hnumbered, String.join_cons,
    String.join_cons, page]
  simp only [String.append_assoc]

private theorem consoleText_askedAgain (m : Menu α) :
    Transcript.consoleText m.askedAgain = m.complaint := by
  have h := consoleText_says ["Please enter a number from 0 to " ++ m.options.length.repr ++ "."]
  rw [List.map_singleton, List.map_singleton, String.join_cons, String.join_nil,
    String.append_empty] at h
  exact h

private theorem consoleText_refused (m : Menu α) (refused : List Line) :
    Transcript.consoleText (refused.flatMap fun _ => m.askedAgain) =
      String.join (refused.map fun _ => m.complaint) := by
  induction refused with
  | nil => rfl
  | cons line refused ih =>
    rw [List.flatMap_cons, Transcript.consoleText_append, ih, consoleText_askedAgain,
      List.map_cons, String.join_cons]

end Menu

namespace Session

variable {s : Session} {es : List Event}

private theorem perform_said (hroom : s.console.room = none)
    (h : ∀ e ∈ es, e.isShown = true ∧ e.fault? = none) :
    ∃ next, s.perform es = (next, none) ∧
      next.console.text = s.console.text ++ Transcript.consoleText es := by
  induction es generalizing s with
  | nil => exact ⟨s, rfl, String.append_empty.symm⟩
  | cons e es ih =>
    obtain ⟨⟨hshown, hfault⟩, hes⟩ := List.forall_mem_cons.mp h
    have htakes := consoleTakes_of_unlimited hroom e
    have hone : (s.performOne e).2 = none := by
      cases e with
      | say line => exact congrArg faultUnless htakes
      | prompt => exact congrArg faultUnless htakes
      | fault f => cases hfault
      | log entry => cases hshown
      | _ => rfl
    obtain ⟨next, hnext, htext⟩ := ih (room_console_performOne hroom e) hes
    refine ⟨next, ?_, ?_⟩
    · rw [perform_cons_of_none (Prod.ext rfl hone), hnext]
    · rw [htext, console_performOne htakes, String.append_assoc, ← Transcript.consoleText_cons]

private theorem perform_fault (f? : Option Fault) : s.perform (f?.toList.map .fault) = (s, f?) := by
  cases f? <;> rfl

end Session

namespace Menu

variable {α : Type} {m : Menu α} {s : Session} {input : List UInt8}

/-- The part of the input that a menu takes, and what it is taken for. -/
structure Reading (α : Type) where
  taken : List UInt8
  left : List UInt8
  refused : List Line
  /-- The line that decides, unless the input ends first. -/
  deciding : Option Line
  reply : Reply α

/-- Whether a menu takes its input in this way: in whole lines, of which it refuses all but the one
that decides. -/
structure Takes (m : Menu α) (input : List UInt8) (r : Reading α) : Prop where
  split : input = r.taken ++ r.left
  lines : Text.lines r.taken = r.refused ++ r.deciding.toList
  whole : r.left = [] ∨ r.deciding ≠ none ∧ r.taken.getLast? = some Text.lineFeed
  refused : ∀ line ∈ r.refused, m.Says (some line) .refuse
  decided : m.Says r.deciding r.reply
  valid : r.reply ≠ .refuse

private theorem Course.exists_reading {refused : List Line} {deciding : Option Line}
    {answer : Answer α}
    (h : m.Course (Text.lines input) refused deciding answer) :
    ∃ r : Reading α, m.Takes input r ∧ r.refused = refused ∧ r.reply = m.reply deciding ∧
      answer.rest = Text.lines r.left := by
  obtain ⟨taken, left, hsplit, htaken, hleft, hend⟩ := Text.exists_taken h.lines
  refine ⟨⟨taken, left, refused, deciding, m.reply deciding⟩,
    ⟨hsplit, htaken, ?_, ?_, ?_, h.decides⟩, rfl, rfl, hleft.symm⟩
  · cases deciding with
    | none => exact .inl (Text.lines_eq_nil_iff.mp (hleft.trans (h.ended rfl)))
    | some line =>
      apply hend.imp_right
      intro hlast
      have hne : taken ≠ [] := by
        rintro rfl
        simp at htaken
      refine ⟨by simp, ?_⟩
      rw [List.getLast?_eq_some_getLast hne] at hlast ⊢
      rw [hlast _ rfl]
  · intro line hline
    exact says_iff.mpr (h.refuses line hline)
  · exact m.says_reply deciding

/-- What asking a menu comes to in a session: the option or the fault of the line that decides, and
on the console the menu and the complaints. Nothing is played. -/
def Resolved (m : Menu α) (s : Session) (input : List UInt8) : Prop :=
  let answer := m.ask (Text.lines input)
  let performed := s.perform answer.events
  ∃ r : Reading α, m.Takes input r ∧
    answer.rest = Text.lines r.left ∧ answer.choice = r.reply.choice? ∧
    performed.2 = r.reply.fault? ∧
    performed.1.console.text =
      s.console.text ++ m.page ++ String.join (r.refused.map fun _ => m.complaint) ∧
    performed.1.game = s.game ∧ performed.1.log = s.log

private theorem isSaid_shown (m : Menu α) : ∀ e ∈ m.shown, e.isShown = true ∧ e.fault? = none := by
  intro e he
  refine ⟨m.isShown_shown e he, ?_⟩
  simp only [shown, List.mem_append, List.mem_map, List.mem_singleton] at he
  rcases he with ⟨line, _, rfl⟩ | rfl <;> rfl

private theorem isSaid_askedAgain (m : Menu α) :
    ∀ e ∈ m.askedAgain, e.isShown = true ∧ e.fault? = none := by
  intro e he
  simp only [askedAgain, List.mem_cons, List.not_mem_nil, or_false] at he
  rcases he with rfl | rfl <;> exact ⟨rfl, rfl⟩

private theorem resolved (m : Menu α) (hroom : s.console.room = none) (input : List UInt8) :
    m.Resolved s input := by
  obtain ⟨refused, deciding, h⟩ := m.exists_course (Text.lines input)
  obtain ⟨r, hr, rfl, hreply, hrest⟩ := h.exists_reading
  have hsaid : ∀ e ∈ m.shown ++ r.refused.flatMap (fun _ => m.askedAgain),
      e.isShown = true ∧ e.fault? = none := by
    intro e he
    rcases List.mem_append.mp he with he | he
    · exact m.isSaid_shown e he
    · obtain ⟨_, _, he⟩ := List.mem_flatMap.mp he
      exact m.isSaid_askedAgain e he
  have hevents : (m.ask (Text.lines input)).events =
      m.shown ++ r.refused.flatMap (fun _ => m.askedAgain) ++ r.reply.fault?.toList.map .fault := by
    rw [ask, h.events, hreply, List.append_assoc]
  obtain ⟨next, hnext, htext⟩ := Session.perform_said hroom hsaid
  obtain ⟨hgame, hlog⟩ := Session.perform_shown fun e he => (hsaid e he).1
  have hperform : s.perform (m.ask (Text.lines input)).events = (next, r.reply.fault?) := by
    rw [hevents, Session.perform_append_of_none hnext, Session.perform_fault]
  rw [hnext] at hgame hlog
  refine ⟨r, hr, hrest, ?_, ?_, ?_, ?_, ?_⟩
  · rw [hreply]
    exact h.choice
  · rw [hperform]
  · rw [hperform, htext, Transcript.consoleText_append, consoleText_shown, consoleText_refused,
      String.append_assoc]
  · rw [hperform]
    exact hgame
  · rw [hperform]
    exact hlog

end Menu

private theorem options_turnMenu (pieces : List Piece) (castles : List CastleSide) {n : Nat}
    (hn : 1 ≤ n) :
    (turnMenu pieces castles).options[n - 1]? =
      if n ≤ pieces.length then pieces[n - 1]?.map (.piece (n - 1))
      else castles[n - pieces.length - 1]?.map .castle := by
  have hplace : n - 1 < pieces.length ↔ n ≤ pieces.length := by omega
  have hback : n - 1 - pieces.length = n - pieces.length - 1 := by omega
  change (pieces.mapIdx TurnOption.piece ++ castles.map TurnOption.castle)[n - 1]? = _
  simp only [List.getElem?_append, List.length_mapIdx, hplace, hback, List.getElem?_mapIdx,
    List.getElem?_map]

private theorem length_options_turnMenu (pieces : List Piece) (castles : List CastleSide) :
    (turnMenu pieces castles).options.length = pieces.length + castles.length := by
  simp [turnMenu]

/-- On a console that takes everything, both menus are resolved by the first line that is not
refused. The options of the first are the pieces under the numbers from one on and then the castles,
those of the second are the squares. -/
theorem first_valid_line_decides {s : Session} (hroom : s.console.room = none)
    (input : List UInt8) (pieces : List Piece) (castles : List CastleSide)
    (squares : List Square) :
    (turnMenu pieces castles).Resolved s input ∧ (targetMenu squares).Resolved s input ∧
      (∀ n, 1 ≤ n → (turnMenu pieces castles).options[n - 1]? =
        if n ≤ pieces.length then pieces[n - 1]?.map (.piece (n - 1))
        else castles[n - pieces.length - 1]?.map .castle) ∧
      (turnMenu pieces castles).options.length = pieces.length + castles.length ∧
      (targetMenu squares).options = squares := by
  refine ⟨Menu.resolved _ hroom input, Menu.resolved _ hroom input, ?_, ?_, rfl⟩
  · intro n hn
    exact options_turnMenu pieces castles hn
  · exact length_options_turnMenu pieces castles

/-- A word, a number too high and an empty line are refused; the fourth line chooses the castle
behind two pawns, and the last is left. -/
theorem castle_chosen_after_refusals :
    let s := Session.fresh none
    let pawns : List Piece := [⟨⟨.white, .pawn⟩, ⟨1, 0⟩, false⟩, ⟨⟨.white, .pawn⟩, ⟨1, 1⟩, false⟩]
    let input := "x\n4\n\n +003\n1".toList.map fun c => UInt8.ofNat c.toNat
    s.console.room = none ∧ (turnMenu pawns [.king]).Resolved s input ∧
      ((turnMenu pawns [.king]).ask (Text.lines input)).choice = some (.castle .king) ∧
      ((turnMenu pawns [.king]).ask (Text.lines input)).rest = Text.lines [0x31] := by
  intro s pawns input
  obtain ⟨hpiece, _⟩ := first_valid_line_decides (s := s) rfl input pawns [.king] []
  exact ⟨rfl, hpiece, by decide +kernel, by decide +kernel⟩

namespace Dialogue

variable {α : Type} {d : Dialogue} {m : Menu α} {chosen : α → Stretch}

private theorem run_append_of_refused (hd : ∀ line?, d.step line? = d.answered m line? chosen)
    {refused : List Line} (h : ∀ line ∈ refused, m.reply (some line) = .refuse)
    (lines : List Line) :
    d.run (refused ++ lines) = refused.flatMap (fun _ => m.askedAgain) ++ d.run lines := by
  induction refused with
  | nil => rfl
  | cons line refused ih =>
    obtain ⟨hline, hmore⟩ := List.forall_mem_cons.mp h
    have hrun : d.run (line :: (refused ++ lines)) = m.askedAgain ++ d.run (refused ++ lines) := by
      rw [run, hd, answered, hline]
    rw [List.cons_append, hrun, ih hmore, List.flatMap_cons, List.append_assoc]

private theorem run_of_course (hd : ∀ line?, d.step line? = d.answered m line? chosen)
    {input refused : List Line} {deciding : Option Line} {answer : Menu.Answer α}
    (h : m.Course input refused deciding answer) :
    d.run input = refused.flatMap (fun _ => m.askedAgain) ++
      (d.step deciding).followed answer.rest := by
  rw [h.lines, List.append_assoc, run_append_of_refused hd h.refuses]
  cases deciding with
  | none =>
    have hleft : d.step none = ⟨d.game.farewell, none⟩ := hd none
    rw [h.ended rfl, hleft]
    simp [run, hleft, Stretch.followed]
  | some line => rfl

/-- Interactive play asks its menus in the same way, and goes on with the lines that they leave. -/
theorem run_asks (g : Game) (p : Piece) (input : List Line) :
    (∃ refused deciding, g.turnMenu.Course input refused deciding (g.turnMenu.awaitAnswer input) ∧
      (choosingPiece g).run input = refused.flatMap (fun _ => g.turnMenu.askedAgain) ++
        ((choosingPiece g).step deciding).followed (g.turnMenu.awaitAnswer input).rest) ∧
    (∃ refused deciding,
      (squareMenu g p).Course input refused deciding ((squareMenu g p).awaitAnswer input) ∧
      (choosingTarget g p).run input = refused.flatMap (fun _ => (squareMenu g p).askedAgain) ++
        ((choosingTarget g p).step deciding).followed
          ((squareMenu g p).awaitAnswer input).rest) := by
  constructor
  · obtain ⟨refused, deciding, h⟩ := g.turnMenu.exists_course input
    exact ⟨refused, deciding, h, run_of_course (fun _ => rfl) h⟩
  · obtain ⟨refused, deciding, h⟩ := (squareMenu g p).exists_course input
    exact ⟨refused, deciding, h, run_of_course (fun _ => rfl) h⟩

end Dialogue

end Scoresheet
