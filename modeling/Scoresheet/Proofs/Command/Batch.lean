import Scoresheet.Proofs.Command.Arguments
import Scoresheet.Proofs.Command.Closing
import Scoresheet.Proofs.Session.Sequences
/-!
# Batch runs

A batch run replays its input file and stops. All that happens in it follows from the path and the
bytes of that file: the console is never asked, and no setup file is opened. The command line may
name one all the same, but not by an empty name. Help and version are shown without a run, and so
without a log.
-/
namespace Scoresheet.Command

open Transcript (Unshown written logText)

/-- Whether an invocation asks for a batch run of a file that can be read, with a log that can be
written to another file. -/
structure Invocation.Batches (inv : Invocation) (files : FileTable) (path : String)
    (bytes : List UInt8) (place : Place) : Prop where
  batch : inv.batch = true
  input : inv.input = some path
  content : files.openFile path = .content bytes
  log : ∃ logPath, inv.log = some logPath ∧ files.writable logPath = .ok place
  apart : files.locate path ≠ .file place

private def batchEvents (path : String) (bytes : List UInt8) : List Event :=
  let replayed := Game.fresh.replay (Text.textLines bytes)
  let final := Game.fresh.after replayed
  .log .opened :: .log (.inputOpened path) :: (replayed ++ (final.board.logged ++ finish final))

def batchLog (path : String) (bytes : List UInt8) : String :=
  let replayed := ((Session.fresh none).replayed bytes).1
  Log.ofLines [Entry.opened.text, (Entry.inputOpened path).text] ++ replayed.log.text ++
    Log.ofLines (replayed.game.board.diagram ++ [Entry.closing.text])

variable {inv : Invocation} {files : FileTable} {path : String} {bytes : List UInt8} {place : Place}

private theorem unshown_batchEvents (path : String) (bytes : List UInt8) :
    Unshown (batchEvents path bytes) := by
  have hreplay : Unshown (Game.fresh.replay (Text.textLines bytes)) :=
    Game.fresh.unshown_replayFrom 1 _
  refine List.forall_mem_cons.mpr ⟨.inr rfl, List.forall_mem_cons.mpr ⟨.inr rfl, ?_⟩⟩
  exact hreplay.append ((Game.unshown_logged _).append (unshown_finish _))

/-- A file is replayed to its end, whatever its bytes are. -/
theorem replayed_fresh (bytes : List UInt8) :
    let events := Game.fresh.replay (Text.textLines bytes)
    let replayed := (Session.fresh none).replayed bytes
    replayed.2 = none ∧ replayed.1.game = Game.fresh.after events ∧
      replayed.1.log.text = logText events := by
  intro events replayed
  obtain ⟨next, hp, hgame, htext, _⟩ := Session.perform_unshown (s := .fresh none) rfl
    (Game.fresh.unshown_replayFrom 1 (Text.textLines bytes))
  have hreplayed : replayed = (next, none) := hp
  rw [hreplayed]
  refine ⟨rfl, hgame, htext.trans ?_⟩
  exact String.empty_append

private theorem logText_batchEvents (path : String) (bytes : List UInt8) :
    logText (batchEvents path bytes) = batchLog path bytes := by
  obtain ⟨_, hgame, htext⟩ := replayed_fresh bytes
  let final := Game.fresh.after (Game.fresh.replay (Text.textLines bytes))
  have hopened : logText [.log .opened, .log (.inputOpened path)] =
      Log.ofLines [Entry.opened.text, (Entry.inputOpened path).text] := rfl
  have hclosed := logText_logged_finish final
  rw [batchLog, hgame, htext, ← hopened, ← hclosed, ← Transcript.logText_append,
    ← Transcript.logText_append, List.append_assoc]
  rfl

namespace Invocation.Batches

variable (h : inv.Batches files path bytes place)
include h

private theorem events_eq (stdin : List UInt8) :
    inv.events (files.store place []) stdin = batchEvents path bytes := by
  have hsource : (inv.sources (files.store place [])).input = some (path, .content bytes) := by
    rw [sources, h.input, Option.map_some, FileTable.openFile_store h.content h.apart]
  have hbatch : isInteractive inv.batch (inv.sources (files.store place [])) = false := by
    rw [isInteractive, h.batch, Sources.hasInput, hsource]
    rfl
  have hprepare : prepare (inv.sources (files.store place [])) =
      .log .opened :: .log (.inputOpened path) :: Game.fresh.replay (Text.textLines bytes) := by
    rw [prepare, hsource]
    rfl
  rw [events, plan, hbatch, hprepare]
  simp [playOn, batchEvents]

private theorem run_eq (stdin : List UInt8) :
    inv.run files stdin =
      conclude inv.leastLevel (files.store place []) (some place) (batchEvents path bytes) := by
  obtain ⟨logPath, hlog, hw⟩ := h.log
  rw [run, hlog]
  simp only [hw]
  rw [h.events_eq]

end Invocation.Batches

private theorem execute_of_ofArguments {arguments : List String}
    (h : Invocation.ofArguments arguments = .ok inv)
    (manual : Manual) (files : FileTable) (stdin : List UInt8) :
    execute manual arguments files stdin = inv.run files stdin := by
  rw [execute, h]

/-- A command line that asks for a batch run succeeds and prints nothing, and its log is what the
replay of its input file writes between two lines and a diagram with one line more. Neither the
console nor the setup file makes a difference, as long as the file has a name.

Whatever succeeds has shown the manual, without a log and without touching a file, or has a log that
is opened and closed alike. -/
theorem batch_run_depends_on_input_alone :
    (∀ (manual : Manual) (arguments : List String) (inv : Invocation) (files : FileTable)
      (path : String) (bytes : List UInt8) (place : Place) (stdin : List UInt8),
      Invocation.ofArguments arguments = .ok inv → inv.Batches files path bytes place →
      let outcome := execute manual arguments files stdin
      let replayed := (Session.fresh none).replayed bytes
      outcome.exit = 0 ∧ outcome.stdout = "" ∧
      replayed.2 = none ∧ replayed.1.game.board.diagram.length = 9 ∧
      outcome.files.content? place = some (batchLog path bytes).toUTF8.toList ∧
      (∀ others setup other, Invocation.ofArguments others = .ok { inv with setup } →
        execute manual others files other = outcome) ∧
      (inv.setup = none → ∀ setup given other, NamesSetup setup given →
        execute manual (given ++ arguments) files other =
          if setup = "" then Stop.usageError.outcome manual files else outcome)) ∧
    ∀ (manual : Manual) (arguments : List String) (files : FileTable) (stdin : List UInt8),
      let outcome := execute manual arguments files stdin
      outcome.exit = 0 →
      (∃ stop, Invocation.ofArguments arguments = .error stop ∧ stop ≠ .usageError ∧
        outcome.stdout = stop.shown manual ∧ outcome.files = files) ∨
      ∃ inv logPlace seen, Invocation.ofArguments arguments = .ok inv ∧
        inv.LogsTo files logPlace seen ∧
        let done := (Session.fresh none).perform (inv.events seen stdin)
        done.2 = none ∧ done.1.game.board.diagram.length = 9 ∧
        outcome.ClosesLog done.1.game.board logPlace := by
  refine ⟨?_, ?_⟩
  · intro manual arguments inv files path bytes place stdin hread h outcome replayed
    have hrun : outcome = _ := (execute_of_ofArguments hread manual files stdin).trans (h.run_eq stdin)
    obtain ⟨hexit, hstdout, hlog⟩ := conclude_of_unshown (unshown_batchEvents path bytes)
      inv.leastLevel (files.store place []) place
    rw [← hrun] at hexit hstdout hlog
    have hsame (others : List String) (setup : Option String) (other : List UInt8)
        (hothers : Invocation.ofArguments others = .ok { inv with setup }) :
        execute manual others files other = outcome := by
      have hother : { inv with setup }.Batches files path bytes place :=
        ⟨h.batch, h.input, h.content, h.log, h.apart⟩
      rw [execute_of_ofArguments hothers, hrun]
      exact hother.run_eq other
    refine ⟨hexit, hstdout, (replayed_fresh bytes).1, Board.length_diagram _, ?_, hsame, ?_⟩
    · rw [hlog, logText_batchEvents]
    · intro hnone setup given other hgiven
      have hread' := ofArguments_append_of_namesSetup hgiven hread hnone
      by_cases hempty : setup = ""
      · rw [if_pos hempty] at hread' ⊢
        rw [execute, hread']
      · rw [if_neg hempty] at hread' ⊢
        exact hsame _ _ other hread'
  · intro manual arguments files stdin outcome hexit
    cases hread : Invocation.ofArguments arguments with
    | error stop =>
      have hstop : outcome = stop.outcome manual files := by
        show execute manual arguments files stdin = _
        rw [execute, hread]
      refine .inl ⟨stop, rfl, ?_, by rw [hstop, Stop.outcome], by rw [hstop, Stop.outcome]⟩
      rintro rfl
      rw [hstop] at hexit
      cases hexit
    | ok inv =>
      have hrun : outcome = inv.run files stdin := execute_of_ofArguments hread manual files stdin
      rw [hrun] at hexit ⊢
      obtain ⟨logPlace, seen, hlogs, hfault, hconclude⟩ := exists_run_eq hexit
      have hdone : ((Session.fresh none).perform (inv.events seen stdin)).2 = none := by
        rw [Session.fault_perform_of_unlimited rfl rfl, hfault]
      have hgame := Session.game_of_perform (Prod.ext rfl hdone)
      refine .inr ⟨inv, logPlace, seen, rfl, hlogs, hdone, Board.length_diagram _, ?_⟩
      rw [hgame, hconclude]
      exact closesLog_conclude hfault _ _ _

/-- A batch run places a king; the setup file that is named is missing, and the console has lines. -/
theorem batch_run_places_king :
    let files := FileTable.ofPaths [("game", [0x4B, 0x6C, 0x65, 0x31, 0x0A])] []
    let arguments := ["game", "--batch", "--log", "log"]
    let others := ["--batch", "-llog", "--setup=missing", "--", "game"]
    let inv : Invocation := ⟨some "game", some "log", none, true, 0⟩
    let outcome := execute manual arguments files [0x31, 0x0A]
    Invocation.ofArguments arguments = .ok inv ∧
      Invocation.ofArguments others = .ok { inv with setup := some "missing" } ∧
      inv.Batches files "game" [0x4B, 0x6C, 0x65, 0x31, 0x0A] ["log"] ∧
      NamesSetup "missing" ["--setup", "missing"] ∧
      outcome.exit = 0 ∧ outcome.stdout = "" ∧
      execute manual others files [] = outcome ∧
      execute manual (["--setup", "missing"] ++ arguments) files [] = outcome ∧
      ∃ logPlace seen board, inv.LogsTo files logPlace seen ∧ outcome.ClosesLog board logPlace := by
  intro files arguments others inv outcome
  have hread : Invocation.ofArguments arguments = .ok inv := by decide +kernel
  have hothers : Invocation.ofArguments others = .ok { inv with setup := some "missing" } := by
    decide +kernel
  have hbatches : inv.Batches files "game" [0x4B, 0x6C, 0x65, 0x31, 0x0A] ["log"] := by
    refine ⟨rfl, rfl, by decide +kernel, ⟨"log", rfl, by decide +kernel⟩, by decide +kernel⟩
  have hgiven : NamesSetup "missing" ["--setup", "missing"] := .apart (by decide)
  obtain ⟨hbatch, hsuccess⟩ := batch_run_depends_on_input_alone
  obtain ⟨hexit, hstdout, _, _, _, hsame, hsetup⟩ :=
    hbatch manual arguments inv files _ _ _ [0x31, 0x0A] hread hbatches
  refine ⟨hread, hothers, hbatches, hgiven, hexit, hstdout, hsame _ _ [] hothers, ?_, ?_⟩
  · exact (hsetup rfl "missing" _ [] hgiven).trans (if_neg (by decide))
  · rcases hsuccess manual arguments files [0x31, 0x0A] hexit with ⟨_, hstop, _⟩ | hrun
    · rw [hread] at hstop
      cases hstop
    · obtain ⟨found, logPlace, seen, hfound, hlogs, _, _, hcloses⟩ := hrun
      rw [hread] at hfound
      cases hfound
      exact ⟨logPlace, seen, _, hlogs, hcloses⟩

private theorem head?_toList_append {text more : String} {c : Char}
    (h : text.toList.head? = some c) : (text ++ more).toList.head? = some c := by
  rw [String.toList_append, List.head?_append, h, Option.some_or]

/-- A batch run with an empty name for the setup file is refused and has no log, though without that
name it succeeds; and help is shown with success, but without a log. -/
theorem empty_setup_refused_and_help_without_log :
    let files := FileTable.ofPaths [("game", [0x4B, 0x6C, 0x65, 0x31, 0x0A])] []
    let arguments := ["game", "--batch", "--log", "log"]
    let refused := execute manual (arguments ++ ["--setup", ""]) files []
    let helped := execute manual ["--help"] (.ofPaths [] []) []
    (execute manual arguments files []).exit = 0 ∧
      refused.exit = 2 ∧ refused.files.content? ["log"] = none ∧
      helped.exit = 0 ∧ ∀ board logPlace, ¬ helped.ClosesLog board logPlace := by
  intro files arguments refused helped
  have hread : Invocation.ofArguments ["--help"] = .error .help := by decide +kernel
  have hhelped : helped = Stop.help.outcome manual (.ofPaths [] []) := by
    show execute manual ["--help"] (.ofPaths [] []) [] = _
    rw [execute, hread]
  rw [hhelped]
  refine ⟨by decide +kernel, by decide +kernel, by decide +kernel, rfl, ?_⟩
  intro board logPlace hcloses
  cases logPlace with
  | none =>
    obtain ⟨between, hshown⟩ := hcloses
    have habout : "Replays or plays chess from notation directives\n\n".toList.head? = some 'R' := by
      decide +kernel
    have hopened : (Log.ofLines [Entry.opened.text]).toList.head? = some 'P' := by decide +kernel
    have hhelp : manual.help.toList.head? = some 'R' :=
      head?_toList_append (head?_toList_append habout)
    replace hshown : manual.help = _ := hshown
    rw [hshown, head?_toList_append (head?_toList_append hopened)] at hhelp
    cases hhelp
  | some place =>
    obtain ⟨told, hstored⟩ := hcloses
    have hnothing : (FileTable.ofPaths [] []).content? place = none := rfl
    replace hstored : (FileTable.ofPaths [] []).content? place = _ := hstored
    rw [hnothing] at hstored
    cases hstored

end Scoresheet.Command
