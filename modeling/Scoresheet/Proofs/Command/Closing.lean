import Mathlib.Data.List.TakeWhile
import Scoresheet.Command.Run
import Scoresheet.Proofs.Command.Storing
import Scoresheet.Proofs.Session.Steps
import Scoresheet.Proofs.Session.Termination
import Scoresheet.Proofs.Session.Truncation
/-!
# How a run closes its log

A run that succeeds is a session that nothing ended early. Its log is opened by one line, and
however play came to its end, the diagram of the last board and one more line close it.
-/
namespace Scoresheet

open Transcript (Unshown Lead written logText firstFault? happening)

namespace Transcript

variable {es : List Event}

private theorem firstFault?_eq_none_iff : firstFault? es = none ↔ ∀ f, .fault f ∉ es := by
  rw [firstFault?, List.findSome?_eq_none_iff]
  refine ⟨fun h f hf => ?_, fun h e he => ?_⟩
  · cases h _ hf
  · cases e with
    | fault f => exact absurd he (h f)
    | _ => rfl

private theorem happening_of_firstFault? (h : firstFault? es = none) : happening es = es := by
  rw [firstFault?, List.findSome?_eq_none_iff] at h
  apply List.takeWhile_eq_self_iff.mpr
  intro e he
  rw [h e he]
  rfl

private theorem firstFault?_of_unshown (h : Unshown es) : firstFault? es = none := by
  apply firstFault?_eq_none_iff.mpr
  intro f hf
  rcases h _ hf with hsilent | hentry
  · cases hsilent
  · cases hentry

private theorem joined_congr {text other : Event → String} (h : ∀ e ∈ es, text e = other e) :
    joined text es = joined other es := by
  rw [joined, joined, List.map_congr_left h]

private theorem consoleText_of_silent_or_entry {e : Event} (h : e.isSilent ∨ e.isEntry) :
    e.consoleText = "" := by
  cases e with
  | say line => simp [Event.isSilent, Event.isEntry] at h
  | prompt => simp [Event.isSilent, Event.isEntry] at h
  | _ => rfl

private theorem consoleText_of_unshown (h : Unshown es) : consoleText es = "" := by
  have hnothing : joined (fun _ => "") es = "" := by
    induction es with
    | nil => rfl
    | cons e es ih => exact ih fun d hd => h d (List.mem_cons_of_mem _ hd)
  rw [consoleText, joined_congr fun e he => consoleText_of_silent_or_entry (h e he), hnothing]

private theorem sharedText_of_unshown (h : Unshown es) : sharedText es = logText es := by
  apply joined_congr
  intro e he
  rw [consoleText_of_silent_or_entry (h e he), String.append_empty]

end Transcript

namespace Session

variable {s : Session} {es : List Event}

private theorem performOne_of_unlimited {e : Event} (hlog : s.log.room = none)
    (hconsole : s.console.room = none) :
    (s.performOne e).2 = e.fault? ∧ (s.performOne e).1.log.room = none ∧
      (s.performOne e).1.console.room = none := by
  cases he : e.isEntry with
  | true =>
    cases e with
    | log entry =>
      rw [performOne_log_of_accepts (Sink.acceptsLine_of_room_eq_none hlog entry.text)]
      exact ⟨rfl, Sink.room_writeLine_of_room_eq_none hlog entry.text, hconsole⟩
    | _ => cases he
  | false =>
    obtain ⟨hfault, hsame, hroom⟩ := performOne_of_not_isEntry he hconsole
    exact ⟨hfault, hsame ▸ hlog, hroom⟩

/-- Where log and console take everything, only a fault of its own ends a session. -/
theorem fault_perform_of_unlimited (hlog : s.log.room = none) (hconsole : s.console.room = none)
    (es : List Event) : (s.perform es).2 = firstFault? es := by
  induction es generalizing s with
  | nil => rfl
  | cons e es ih =>
    obtain ⟨hfault, hlog', hconsole'⟩ := performOne_of_unlimited (e := e) hlog hconsole
    rcases hone : s.performOne e with ⟨next, _ | f⟩
    · rw [hone] at hfault hlog' hconsole'
      rw [perform_cons_of_none hone, ih hlog' hconsole', firstFault?, firstFault?,
        List.findSome?_cons, ← hfault]
    · rw [hone] at hfault
      rw [perform_cons_of_some hone, firstFault?, List.findSome?_cons, ← hfault]

end Session

namespace Command

variable {g : Game} {s : Sources} {interactive batch : Bool} {console : List Text.Line}

private theorem lead_setUp (hs : g.board.Seated) (setup : Option (String × Opened)) :
    Lead (fun g => g.board.Seated) (setUp g setup) := by
  have hlines (lines : List String) : Lead (fun g => g.board.Seated) (g.setUp lines) := by
    apply (Game.kept_seated.lead_setUpLines hs lines).append
    simp [Lead]
  unfold setUp
  split
  · exact hlines _
  · simp [Lead]
  · simp [Lead]
  · exact hlines _

private theorem lead_replay (hs : g.board.Seated) (opened : Opened) :
    Lead (fun g => g.board.Seated) (replay g opened) := by
  cases opened with
  | content bytes => exact Game.kept_seated.lead_replayFrom hs 1 (Text.textLines bytes)
  | _ => simp [replay, Lead]

private theorem seated_after_prepare (s : Sources) :
    (Game.fresh.after (prepare s)).board.Seated := by
  have hfresh : Game.fresh.board.Seated := Board.seated_empty
  have hsetUp : (Game.fresh.after (setUp Game.fresh s.setup)).board.Seated :=
    Game.after_of_lead hfresh (lead_setUp hfresh s.setup)
  have hreplay (opened : Opened) : (Game.fresh.after (replay Game.fresh opened)).board.Seated :=
    Game.after_of_lead hfresh (lead_replay hfresh opened)
  unfold prepare
  split
  · exact hsetUp
  · exact hsetUp
  · exact hreplay _

private theorem exists_playOn_eq (hs : g.board.Seated)
    (h : ∀ f, .fault f ∉ playOn interactive g console) :
    ∃ es, playOn interactive g console =
      es ++ (g.after (playOn interactive g console)).board.logged := by
  cases interactive with
  | false => exact ⟨[], by simp [playOn]⟩
  | true =>
    rcases (Game.demand_interact_le hs console).2 with hfault | ⟨es, final, said, hevents, hfinal, _⟩
    · exact absurd hfault (h .notText)
    · refine ⟨es ++ said.map .log, ?_⟩
      show g.interact console = _ ++ (g.after (g.interact console)).board.logged
      rw [hfinal, hevents, Game.farewell, List.append_assoc]

/-- What happens in a run without a fault, from the first line of the log to the last. -/
theorem exists_plan_eq (h : firstFault? (plan batch s console) = none) :
    let final := Game.fresh.after (plan batch s console)
    ∃ middle, plan batch s console =
      .log .opened :: middle ++ (final.board.logged ++ finish final) := by
  intro final
  let game := Game.fresh.after (prepare s)
  let played := playOn (isInteractive batch s) game console
  have hplan : plan batch s console = prepare s ++ played ++ finish (game.after played) := rfl
  have hfinal : final = game.after played := by
    show Game.fresh.after (plan batch s console) = _
    rw [hplan, Game.after_append, Game.after_append]
    rfl
  have hfaults := Transcript.firstFault?_eq_none_iff.mp h
  obtain ⟨es, hes⟩ := exists_playOn_eq (seated_after_prepare s) fun f hf => hfaults f (by
    rw [hplan]
    exact List.mem_append_left _ (List.mem_append_right _ hf))
  obtain ⟨prepared, hprepared⟩ : ∃ prepared, prepare s = .log .opened :: prepared := ⟨_, rfl⟩
  refine ⟨prepared ++ es, ?_⟩
  rw [hplan, hfinal, hprepared]
  simp only [List.cons_append, List.append_assoc]
  rw [← List.append_assoc es, ← hes]

/-- Where the log of an invocation goes, and the files once it is there. -/
inductive Invocation.LogsTo (inv : Invocation) (files : FileTable) :
    Option Place → FileTable → Prop where
  | console (h : inv.log = none) : inv.LogsTo files none files
  | file {path : String} {place : Place} (h : inv.log = some path)
    (hw : files.writable path = .ok place) : inv.LogsTo files (some place) (files.store place [])

/-- Whether the log that a run leaves begins with the line that opens every log and ends with the
diagram of a board and the line that closes it. -/
def Outcome.ClosesLog (o : Outcome) (board : Board) : Option Place → Prop
  | none => ∃ between, o.stdout = Log.ofLines [Entry.opened.text] ++ between ++
      Log.ofLines (board.diagram ++ [Entry.closing.text])
  | some place => ∃ told, o.files.content? place = some (Log.ofLines
      (Entry.opened.text :: told ++ (board.diagram ++ [Entry.closing.text]))).toUTF8.toList

theorem unshown_finish (g : Game) : Unshown (finish g) := by
  simp [finish, Unshown, Event.isSilent, Event.isEntry]

private theorem written_logged_finish (g : Game) :
    written (g.board.logged ++ finish g) = g.board.diagram ++ [Entry.closing.text] := by
  rw [Transcript.written_append, Transcript.written_logged]
  rfl

theorem logText_logged_finish (g : Game) : logText (g.board.logged ++ finish g) =
    Log.ofLines (g.board.diagram ++ [Entry.closing.text]) := by
  rw [Transcript.logText_eq_ofLines, written_logged_finish]

theorem conclude_of_unshown {es : List Event} (h : Unshown es) (least : Level) (files : FileTable)
    (place : Place) :
    let outcome := conclude least files (some place) es
    outcome.exit = 0 ∧ outcome.stdout = "" ∧
      outcome.files.content? place = some (logText es).toUTF8.toList := by
  have hfault := Transcript.firstFault?_of_unshown h
  have hdone := Transcript.happening_of_firstFault? hfault
  refine ⟨?_, ?_, ?_⟩
  · show exitCode (firstFault? es) = 0
    rw [hfault]
    rfl
  · show Transcript.consoleText (happening es) = ""
    rw [hdone, Transcript.consoleText_of_unshown h]
  · show (files.store place (logText (happening es)).toUTF8.toList).content? place = _
    rw [FileTable.content?_store_self, hdone]

/-- Wherever the log of a run without a fault goes, it is closed. -/
theorem closesLog_conclude (h : firstFault? (plan batch s console) = none) (least : Level)
    (files : FileTable) (logPlace : Option Place) :
    (conclude least files logPlace (plan batch s console)).ClosesLog
      (Game.fresh.after (plan batch s console)).board logPlace := by
  obtain ⟨middle, hplan⟩ := exists_plan_eq h
  have hdone := Transcript.happening_of_firstFault? h
  generalize Game.fresh.after (plan batch s console) = final at hplan ⊢
  cases logPlace with
  | none =>
    have hunshown : Unshown (final.board.logged ++ finish final) :=
      (Game.unshown_logged final.board).append (unshown_finish final)
    have hopened : Transcript.sharedText [.log .opened] = Log.ofLines [Entry.opened.text] := rfl
    refine ⟨Transcript.sharedText middle, ?_⟩
    show Transcript.sharedText (happening (plan batch s console)) = _
    rw [hdone, hplan, ← logText_logged_finish, ← Transcript.sharedText_of_unshown hunshown, ← hopened]
    simp only [Transcript.sharedText, ← Transcript.joined_append, List.singleton_append]
  | some place =>
    refine ⟨written middle, ?_⟩
    show (files.store place (logText (happening (plan batch s console))).toUTF8.toList).content?
      place = _
    rw [FileTable.content?_store_self, hdone, hplan, Transcript.logText_eq_ofLines,
      Transcript.written_append, written_logged_finish]
    rfl

variable {inv : Invocation} {files : FileTable} {stdin : List UInt8}

theorem exists_run_eq (h : (inv.run files stdin).exit = 0) :
    ∃ logPlace seen, inv.LogsTo files logPlace seen ∧ firstFault? (inv.events seen stdin) = none ∧
      inv.run files stdin = conclude inv.leastLevel seen logPlace (inv.events seen stdin) := by
  have hfault {seen : FileTable} {logPlace : Option Place} {events : List Event}
      (hexit : (conclude inv.leastLevel seen logPlace events).exit = 0) :
      firstFault? events = none := by
    have hcode : exitCode (firstFault? events) = 0 := hexit
    cases hf : firstFault? events with
    | none => rfl
    | some f =>
      rw [hf] at hcode
      cases hcode
  unfold Invocation.run at h ⊢
  cases hlog : inv.log with
  | none =>
    simp only [hlog] at h ⊢
    exact ⟨none, files, .console hlog, hfault h, rfl⟩
  | some path =>
    simp only [hlog] at h ⊢
    cases hw : files.writable path with
    | error e =>
      simp only [hw] at h
      cases h
    | ok place =>
      simp only [hw] at h ⊢
      exact ⟨some place, files.store place [], .file hlog hw, hfault h, rfl⟩

end Command

end Scoresheet
