import Scoresheet.Proofs.Session.Accounting
import Scoresheet.Proofs.Session.Placing
import Scoresheet.Proofs.Session.StepEvents
/-!
# A full log only truncates

A session whose log takes some number of lines and one whose log takes everything go together until
the second has written more. There the first stops at once, with just the lines that fit.
-/
namespace Scoresheet

open Transcript (Tidy FaultsOfInput written happening)

private theorem Sink.lineFeeds_of_onOneLine {line : String} (h : OnOneLine line) :
    Sink.lineFeeds line = 0 :=
  List.count_eq_zero.mpr h

private theorem Log.lineFeeds_ofLines {told : List String} (h : ∀ line ∈ told, OnOneLine line) :
    Sink.lineFeeds (ofLines told) = told.length := by
  induction told with
  | nil => rfl
  | cons line told ih =>
    obtain ⟨hline, htold⟩ := List.forall_mem_cons.mp h
    have hfeeds := Sink.lineFeeds_of_onOneLine hline
    have hrest := ih htold
    unfold Sink.lineFeeds at hfeeds hrest ⊢
    rw [ofLines_cons, String.toList_append, String.toList_append, List.count_append,
      List.count_append, hfeeds, hrest, List.length_cons]
    show 0 + 1 + told.length = told.length + 1
    omega

namespace Sink

variable {s : Sink} {k : Nat} {line : String}

private theorem accepts_of_room (h : s.room = some (k + 1)) (piece : String) :
    s.accepts piece = true := by
  simp [accepts, h]

private theorem room_write_of_onOneLine (h : s.room = some (k + 1)) (hl : OnOneLine line) :
    (s.write line).room = some (k + 1) := by
  simp [write, s.accepts_of_room h, h, lineFeeds_of_onOneLine hl]

private theorem acceptsLine_of_room (h : s.room = some (k + 1)) (hl : OnOneLine line) :
    s.acceptsLine line = true := by
  rw [acceptsLine, accepts_of_room h, accepts_of_room (room_write_of_onOneLine h hl)]
  rfl

private theorem room_writeLine_of_room (h : s.room = some (k + 1)) (hl : OnOneLine line) :
    (s.writeLine line).room = some k := by
  have hroom := room_write_of_onOneLine h hl
  have hfeed : lineFeeds "\n" = 1 := rfl
  rw [writeLine, if_pos (accepts_of_room h line), write, if_pos (accepts_of_room hroom _), hroom,
    hfeed]
  rfl

private theorem acceptsLine_of_full (h : s.room = some 0) (line : String) :
    s.acceptsLine line = false := by
  have hfeed : (s.write line).accepts "\n" = false := by
    simp [accepts, room_write_of_full h]
  rw [acceptsLine, hfeed, Bool.and_false]

private theorem text_write_of_full (h : s.room = some 0) (piece : String) :
    (s.write piece).text = s.text := by
  rw [text_write]
  split
  · next hacc =>
    have hempty : piece = "" := by simpa [accepts, h] using hacc
    rw [hempty, String.append_empty]
  · rfl

private theorem text_writeLine_of_full (h : s.room = some 0) (line : String) :
    (s.writeLine line).text = s.text := by
  unfold writeLine
  split
  · rw [text_write_of_full (room_write_of_full h line), text_write_of_full h]
  · rfl

end Sink

namespace Transcript

variable {e : Event} {es : List Event}

private theorem happening_cons_of_none (h : e.fault? = none) :
    happening (e :: es) = e :: happening es := by
  simp [happening, h]

private theorem happening_cons_of_some {f : Fault} (h : e.fault? = some f) :
    happening (e :: es) = [] := by
  simp [happening, h]

private theorem written_cons_of_not_isEntry (h : e.isEntry = false) :
    written (e :: es) = written es := by
  cases e with
  | log entry => cases h
  | _ => rfl

end Transcript

namespace Session

/-- Whether a log that takes everything holds lines, each of them whole. -/
structure Logs (s : Session) (told : List String) : Prop where
  room : s.log.room = none
  text : s.log.text = Log.ofLines told
  whole : ∀ line ∈ told, OnOneLine line

/-- Whether a session whose log has taken lines, and takes so many in all, differs from one whose
log takes everything in nothing but this. -/
structure Alike (n : Nat) (told : List String) (limited full : Session) : Prop where
  logs : full.Logs told
  game : limited.game = full.game
  console : limited.console = full.console
  text : limited.log.text = full.log.text
  room : limited.log.room = some (n - told.length)
  fits : told.length ≤ n

variable {n : Nat} {told : List String} {s limited full : Session} {e : Event} {es : List Event}

theorem performOne_of_not_isEntry (he : e.isEntry = false) (hc : s.console.room = none) :
    (s.performOne e).2 = e.fault? ∧ (s.performOne e).1.log = s.log ∧
      (s.performOne e).1.console.room = none := by
  cases e with
  | log entry => cases he
  | say line =>
    have hacc := Sink.acceptsLine_of_room_eq_none hc line
    refine ⟨?_, rfl, Sink.room_writeLine_of_room_eq_none hc line⟩
    simp [performOne, faultUnless, hacc, Event.fault?]
  | prompt =>
    have hacc := Sink.accepts_of_room_eq_none hc promptText
    refine ⟨?_, rfl, Sink.room_write_of_room_eq_none hc promptText⟩
    simp [performOne, faultUnless, hacc, Event.fault?]
  | _ => exact ⟨rfl, rfl, hc⟩

theorem performOne_log_of_accepts {entry : Entry} (h : s.log.acceptsLine entry.text = true) :
    s.performOne (.log entry) = ({ s with
      log := s.log.writeLine entry.text, notes := s.notes.push ⟨.trace, entry.text⟩ }, none) := by
  simp [performOne, faultUnless, h]

private theorem Logs.performOne_log {entry : Entry} (h : s.Logs told) (he : OnOneLine entry.text) :
    ∃ next, s.performOne (.log entry) = (next, none) ∧ next.Logs (told ++ [entry.text]) ∧
      next.game = s.game ∧ next.console = s.console := by
  have hacc := Sink.acceptsLine_of_room_eq_none h.room entry.text
  refine ⟨_, performOne_log_of_accepts hacc, ⟨?_, ?_, ?_⟩, rfl, rfl⟩
  · exact Sink.room_writeLine_of_room_eq_none h.room entry.text
  · show (s.log.writeLine entry.text).text = _
    rw [Sink.text_writeLine_of_acceptsLine hacc, h.text, Log.ofLines_append, Log.ofLines_cons]
    simp [Log.ofLines, String.append_assoc]
  · exact List.forall_mem_append.mpr ⟨h.whole, List.forall_mem_singleton.mpr he⟩

namespace Alike

variable (h : Alike n told limited full)
include h

theorem performOne_of_not_isEntry (he : e.isEntry = false) :
    Alike n told (limited.performOne e).1 (full.performOne e).1 ∧
      (limited.performOne e).2 = (full.performOne e).2 := by
  obtain ⟨⟨hroom, htext, hwhole⟩, hgame, hconsole, hsame, hleft, hfits⟩ := h
  cases e with
  | log entry => cases he
  | say line =>
    have heq : limited.console.writeLine line = full.console.writeLine line := by rw [hconsole]
    refine ⟨⟨⟨hroom, htext, hwhole⟩, hgame, heq, hsame, hleft, hfits⟩, ?_⟩
    simp only [performOne, hconsole]
  | prompt =>
    have heq : limited.console.write promptText = full.console.write promptText := by rw [hconsole]
    refine ⟨⟨⟨hroom, htext, hwhole⟩, hgame, heq, hsame, hleft, hfits⟩, ?_⟩
    simp only [performOne, hconsole]
  | update g => exact ⟨⟨⟨hroom, htext, hwhole⟩, rfl, hconsole, hsame, hleft, hfits⟩, rfl⟩
  | _ => exact ⟨⟨⟨hroom, htext, hwhole⟩, hgame, hconsole, hsame, hleft, hfits⟩, rfl⟩

private theorem performOne_log {entry : Entry} (he : OnOneLine entry.text) (hlt : told.length < n) :
    ∃ limited' full', limited.performOne (.log entry) = (limited', none) ∧
      full.performOne (.log entry) = (full', none) ∧
      Alike n (told ++ [entry.text]) limited' full' ∧ limited'.console = limited.console := by
  obtain ⟨full', hfull, hlogs, hgame, hconsole⟩ := h.logs.performOne_log he
  have hroom : limited.log.room = some (n - told.length - 1 + 1) := by
    rw [h.room]
    congr 1
    omega
  have hacc := Sink.acceptsLine_of_room hroom he
  refine ⟨_, full', performOne_log_of_accepts hacc, hfull,
    ⟨hlogs, h.game.trans hgame.symm, h.console.trans hconsole.symm, ?_, ?_, ?_⟩, rfl⟩
  · show (limited.log.writeLine entry.text).text = _
    rw [Sink.text_writeLine_of_acceptsLine hacc, h.text, h.logs.text, hlogs.text,
      Log.ofLines_append, Log.ofLines_cons]
    simp [Log.ofLines, String.append_assoc]
  · show (limited.log.writeLine entry.text).room = _
    rw [Sink.room_writeLine_of_room hroom he, List.length_append, List.length_singleton,
      Nat.sub_sub]
  · rw [List.length_append, List.length_singleton]
    omega

private theorem performOne_log_of_full (entry : Entry) (hfull : told.length = n) :
    ∃ limited', limited.performOne (.log entry) = (limited', some .sinkFull) ∧
      limited'.log.text = Log.ofLines told := by
  have hroom : limited.log.room = some 0 := by rw [h.room, hfull, Nat.sub_self]
  have hacc := Sink.acceptsLine_of_full hroom entry.text
  refine ⟨{ limited with
    log := limited.log.writeLine entry.text
    notes := limited.notes.push ⟨.trace, entry.text⟩ }, ?_, ?_⟩
  · simp [performOne, faultUnless, hacc]
  · show (limited.log.writeLine entry.text).text = _
    rw [Sink.text_writeLine_of_full hroom, h.text, h.logs.text]

/-- Events end alike in both sessions if all that happens fits, and else the limited one is left with
the lines that do. -/
theorem perform (hc : limited.console.room = none) (ht : Tidy es) (hf : FaultsOfInput es) :
    let all := told ++ written (happening es)
    (all.length ≤ n → Alike n all (limited.perform es).1 (full.perform es).1 ∧
      (limited.perform es).2 = (full.perform es).2 ∧
      (limited.perform es).2 ≠ some .sinkFull) ∧
    (n < all.length → (limited.perform es).2 = some .sinkFull ∧
      (limited.perform es).1.log.text = Log.ofLines (all.take n)) := by
  -- on the events; the first entry that does not fit ends the run, and what is left of it counts
  induction es generalizing limited full told with
  | nil =>
    have hall : told ++ written (happening []) = told := List.append_nil told
    rw [hall]
    refine ⟨fun _ => ⟨h, rfl, by simp⟩, fun hlt => ?_⟩
    exact absurd h.fits (Nat.not_le.mpr hlt)
  | cons e es ih =>
    have hes : Tidy es := fun entry hentry => ht entry (List.mem_cons_of_mem _ hentry)
    have hfs : FaultsOfInput es := fun f hmem => hf f (List.mem_cons_of_mem _ hmem)
    cases he : e.isEntry with
    | true =>
      cases e with
      | log entry =>
        have hall : told ++ written (happening (.log entry :: es)) =
            (told ++ [entry.text]) ++ written (happening es) := by
          rw [Transcript.happening_cons_of_none rfl, List.append_assoc]
          rfl
        rw [hall]
        by_cases hlt : told.length < n
        · obtain ⟨limited', full', hl, hr, hnext, hconsole⟩ :=
            h.performOne_log (ht entry List.mem_cons_self).onOneLine_text hlt
          rw [perform_cons_of_none hl, perform_cons_of_none hr]
          exact ih hnext (hconsole ▸ hc) hes hfs
        · have hfull : told.length = n := Nat.le_antisymm h.fits (Nat.not_lt.mp hlt)
          obtain ⟨limited', hl, htext⟩ := h.performOne_log_of_full entry hfull
          rw [perform_cons_of_some hl]
          refine ⟨fun hle => ?_, fun _ => ⟨rfl, ?_⟩⟩
          · rw [List.length_append, List.length_append, List.length_singleton, hfull] at hle
            omega
          · rw [htext, List.append_assoc, ← hfull, List.take_left]
      | _ => cases he
    | false =>
      obtain ⟨hnext, hsame⟩ := h.performOne_of_not_isEntry he
      obtain ⟨hfault, _, hconsole⟩ := Session.performOne_of_not_isEntry he hc
      rcases hl : limited.performOne e with ⟨limited', fault⟩
      rcases hr : full.performOne e with ⟨full', fault'⟩
      rw [hl, hr] at hnext hsame
      rw [hl] at hfault hconsole
      obtain rfl : fault = fault' := hsame
      cases fault with
      | none =>
        rw [perform_cons_of_none hl, perform_cons_of_none hr,
          Transcript.happening_cons_of_none hfault.symm,
          Transcript.written_cons_of_not_isEntry he]
        exact ih hnext hconsole hes hfs
      | some f =>
        have hown : f = .notText := by
          cases e with
          | fault g =>
            obtain rfl : f = g := Option.some.inj hfault
            exact hf f List.mem_cons_self
          | _ => cases hfault
        have hall : told ++ written (happening (e :: es)) = told := by
          rw [Transcript.happening_cons_of_some hfault.symm]
          exact List.append_nil told
        rw [perform_cons_of_some hl, perform_cons_of_some hr, hall]
        refine ⟨fun _ => ⟨hnext, rfl, ?_⟩, fun hlt => ?_⟩
        · rw [hown]
          simp
        · exact absurd h.fits (Nat.not_le.mpr hlt)

end Alike

theorem Logs.perform (h : s.Logs told) (hc : s.console.room = none) (ht : Tidy es)
    (hf : FaultsOfInput es) : (s.perform es).1.Logs (told ++ written (happening es)) := by
  -- a log with room for just these lines goes along to the end
  let all := told ++ written (happening es)
  let limited : Session := { s with log := { s.log with room := some (all.length - told.length) } }
  have halike : Alike all.length told limited s := by
    refine ⟨h, rfl, rfl, rfl, rfl, ?_⟩
    rw [List.length_append]
    exact Nat.le_add_right _ _
  exact ((halike.perform hc ht hf).1 (Nat.le_refl _)).1.logs

def faultOf (s : Session) (step : Step) : Option Fault :=
  ({ s with console := step.console }.perform (step.events s.game)).2

def lineCount (s : Session) : Nat := Sink.lineFeeds s.log.text

variable {step : Step} {done : List Step}

private theorem Logs.afterStep (h : s.Logs told) (hs : s.game.board.Seated) (hstep : step.Smooth) :
    (s.step step).Logs (told ++ written (happening (step.events s.game))) :=
  Logs.perform (s := { s with console := step.console }) ⟨h.room, h.text, h.whole⟩
    (Step.room_console hstep) (Step.tidy_events hs hstep) (Step.faultsOfInput_events s.game step)

private theorem Logs.lineCount_eq (h : s.Logs told) : s.lineCount = told.length := by
  rw [lineCount, h.text, Log.lineFeeds_ofLines h.whole]

private theorem Alike.afterStep (h : Alike n told limited full) (hs : full.game.board.Seated)
    (hstep : step.Smooth) :
    let all := told ++ written (happening (step.events full.game))
    (all.length ≤ n → Alike n all (limited.step step) (full.step step) ∧
      limited.faultOf step = full.faultOf step ∧ limited.faultOf step ≠ some .sinkFull) ∧
    (n < all.length → limited.faultOf step = some .sinkFull ∧
      (limited.step step).log.text = Log.ofLines (all.take n)) := by
  have hentered : Alike n told { limited with console := step.console }
      { full with console := step.console } :=
    ⟨⟨h.logs.room, h.logs.text, h.logs.whole⟩, h.game, rfl, h.text, h.room, h.fits⟩
  have hdone := hentered.perform (Step.room_console hstep) (Step.tidy_events hs hstep)
    (Step.faultsOfInput_events full.game step)
  unfold Session.step faultOf
  rw [h.game] at hdone ⊢
  exact hdone

private theorem alike_opened (hn : 1 ≤ n) :
    Alike n [Entry.opened.text] (reached (some n) []) (reached none []) := by
  have hfresh : Alike n [] (fresh (some n)) (fresh none) :=
    ⟨⟨rfl, rfl, by simp⟩, rfl, rfl, rfl, rfl, Nat.zero_le n⟩
  have hopened : OnOneLine Entry.opened.text := by decide
  obtain ⟨limited, full, hl, hf, halike, _⟩ := hfresh.performOne_log hopened hn
  have hreached {room : Option Nat} {next : Session}
      (h : (fresh room).performOne (.log .opened) = (next, none)) : reached room [] = next := by
    show ((fresh room).perform [.log .opened]).1 = next
    rw [perform_cons_of_none h]
    rfl
  rw [hreached hl, hreached hf]
  exact halike

/-- Along a session the unlimited log is made of lines, and as long as they fit the limited run is
alike. -/
theorem exists_logs_reached (hn : 1 ≤ n) (hsmooth : ∀ step ∈ done, step.Smooth) :
    ∃ told, (reached none done).Logs told ∧
      (told.length ≤ n → Alike n told (reached (some n) done) (reached none done)) := by
  induction done using List.reverseRecOn with
  | nil => exact ⟨_, (alike_opened hn).logs, fun _ => alike_opened hn⟩
  | append_singleton done step ih =>
    obtain ⟨hdone, hstep⟩ := List.forall_mem_append.mp hsmooth
    have hstep := hstep step (List.mem_singleton_self step)
    obtain ⟨told, hlogs, halike⟩ := ih hdone
    have hs := seated_reached none done
    rw [reached_append_singleton, reached_append_singleton]
    refine ⟨_, hlogs.afterStep hs hstep, fun hfits => ?_⟩
    have hbefore : told.length ≤ n := by
      rw [List.length_append] at hfits
      omega
    exact (((halike hbefore).afterStep hs hstep).1 hfits).1

/-- While the unlimited log has no more lines than fit, a step ends alike in both runs. -/
theorem alike_of_lineCount_le (hn : 1 ≤ n) (hsmooth : ∀ other ∈ done ++ [step], other.Smooth)
    (hle : (reached none (done ++ [step])).lineCount ≤ n) :
    ∃ told, Alike n told (reached (some n) (done ++ [step])) (reached none (done ++ [step])) ∧
      (reached (some n) done).faultOf step = (reached none done).faultOf step ∧
      (reached (some n) done).faultOf step ≠ some .sinkFull := by
  obtain ⟨hdone, hstep⟩ := List.forall_mem_append.mp hsmooth
  have hstep := hstep step (List.mem_singleton_self step)
  obtain ⟨told, hlogs, halike⟩ := exists_logs_reached hn hdone
  have hs := seated_reached none done
  have hafter := hlogs.afterStep hs hstep
  rw [reached_append_singleton] at hle
  rw [hafter.lineCount_eq] at hle
  have hbefore : told.length ≤ n := by
    rw [List.length_append] at hle
    omega
  rw [reached_append_singleton, reached_append_singleton]
  exact ⟨_, ((halike hbefore).afterStep hs hstep).1 hle⟩

/-- The step with which the unlimited log outgrows the limited one fails there, and the lines that fit
are left. -/
theorem fails_of_outgrown (hn : 1 ≤ n) (hsmooth : ∀ other ∈ done ++ [step], other.Smooth)
    (hle : (reached none done).lineCount ≤ n)
    (hlt : n < (reached none (done ++ [step])).lineCount) :
    (reached (some n) done).faultOf step = some .sinkFull ∧
      Log.lines (reached (some n) (done ++ [step])).log.text =
        (Log.lines (reached none (done ++ [step])).log.text).take n ++ [[]] := by
  obtain ⟨hdone, hstep⟩ := List.forall_mem_append.mp hsmooth
  have hstep := hstep step (List.mem_singleton_self step)
  obtain ⟨told, hlogs, halike⟩ := exists_logs_reached hn hdone
  have hs := seated_reached none done
  have hafter := hlogs.afterStep hs hstep
  rw [hlogs.lineCount_eq] at hle
  rw [reached_append_singleton] at hlt
  rw [hafter.lineCount_eq] at hlt
  obtain ⟨hfault, htext⟩ := ((halike hle).afterStep hs hstep).2 hlt
  refine ⟨hfault, ?_⟩
  rw [reached_append_singleton, reached_append_singleton, htext, hafter.text]
  generalize told ++ written (happening (step.events (reached none done).game)) = all at *
  have hkept : ∀ line ∈ all.take n, OnOneLine line := fun line hline =>
    hafter.whole line (List.mem_of_mem_take hline)
  rw [Log.lines_ofLines hkept, Log.lines_ofLines hafter.whole, List.map_take,
    List.take_append_of_le_length]
  rw [List.length_map]
  exact Nat.le_of_lt hlt

/-- Whether a step is the first that fails with a log that takes so many lines because it is full. -/
def FailsFirst (n : Nat) (done : List Step) (step : Step) : Prop :=
  (reached (some n) done).faultOf step = some .sinkFull ∧
    ∀ earlier next, earlier ++ [next] <+: done →
      (reached (some n) earlier).faultOf next ≠ some .sinkFull

/-- Whether a step is the first after which a log that takes everything has more lines. -/
def ExceedsFirst (n : Nat) (done : List Step) (step : Step) : Prop :=
  n < (reached none (done ++ [step])).lineCount ∧
    ∀ earlier, earlier <+: done → (reached none earlier).lineCount ≤ n

private theorem forall_smooth_of_initial {steps : List Step} (h : done <+: steps)
    (hsmooth : ∀ step ∈ steps, step.Smooth) : ∀ step ∈ done, step.Smooth := fun step hstep =>
  hsmooth step (h.subset hstep)

private theorem lineCount_le_of_not_failed (hn : 1 ≤ n) (hsmooth : ∀ step ∈ done, step.Smooth)
    (h : ∀ earlier next, earlier ++ [next] <+: done →
      (reached (some n) earlier).faultOf next ≠ some .sinkFull) :
    (reached none done).lineCount ≤ n := by
  induction done using List.reverseRecOn with
  | nil =>
    rw [(alike_opened hn).logs.lineCount_eq]
    exact hn
  | append_singleton done step ih =>
    have hbefore : (reached none done).lineCount ≤ n := by
      apply ih (forall_smooth_of_initial (List.prefix_append done [step]) hsmooth)
      intro earlier next hearlier
      exact h earlier next (hearlier.trans (List.prefix_append done [step]))
    by_contra hgt
    have hfails := fails_of_outgrown hn hsmooth hbefore (Nat.not_le.mp hgt)
    exact h done step (List.prefix_refl _) hfails.1

private theorem failsFirst_iff_exceedsFirst (hn : 1 ≤ n)
    (hsmooth : ∀ other ∈ done ++ [step], other.Smooth) :
    FailsFirst n done step ↔ ExceedsFirst n done step := by
  have hinitial {earlier : List Step} (h : earlier <+: done) :
      ∀ other ∈ earlier, other.Smooth :=
    forall_smooth_of_initial (h.trans (List.prefix_append done [step])) hsmooth
  constructor
  · rintro ⟨hfails, hnone⟩
    refine ⟨?_, fun earlier hearlier => ?_⟩
    · by_contra hle
      obtain ⟨_, _, _, hfine⟩ := alike_of_lineCount_le hn hsmooth (Nat.not_lt.mp hle)
      exact hfine hfails
    · apply lineCount_le_of_not_failed hn (hinitial hearlier)
      intro before next hbefore
      exact hnone before next (hbefore.trans hearlier)
  · rintro ⟨hlt, hfit⟩
    refine ⟨(fails_of_outgrown hn hsmooth (hfit done (List.prefix_refl _)) hlt).1, ?_⟩
    intro earlier next hearlier
    obtain ⟨_, _, _, hfine⟩ := alike_of_lineCount_le hn (hinitial hearlier) (hfit _ hearlier)
    exact hfine

/-- A session on a log that takes some number of lines, compared with the same session on a log that
takes everything, where the consoles take everything. The first step to fail for the log is the first
after which the unlimited log has more lines; it leaves the first lines of the unlimited log, as many
as the limited one takes. Every step before it, and every step if there is none, has the same result
and leaves the same log, game and console. -/
theorem limited_log_truncates (hn : 1 ≤ n) (steps : List Step)
    (hsmooth : ∀ step ∈ steps, step.Smooth) (done : List Step) (step : Step)
    (hsteps : done ++ [step] <+: steps) :
    (FailsFirst n done step ↔ ExceedsFirst n done step) ∧
    (FailsFirst n done step →
      Log.lines (reached (some n) (done ++ [step])).log.text =
        (Log.lines (reached none (done ++ [step])).log.text).take n ++ [[]]) ∧
    ((∀ earlier, earlier <+: done ++ [step] → (reached none earlier).lineCount ≤ n) →
      let limited := reached (some n) done
      let full := reached none done
      limited.faultOf step ≠ some .sinkFull ∧
      limited.faultOf step = full.faultOf step ∧
      (limited.step step).log.text = (full.step step).log.text ∧
      (limited.step step).game = (full.step step).game ∧
      (limited.step step).console = (full.step step).console) := by
  have hown := forall_smooth_of_initial hsteps hsmooth
  have hfirst := failsFirst_iff_exceedsFirst hn hown
  refine ⟨hfirst, ?_, ?_⟩
  · intro hfails
    obtain ⟨hlt, hfit⟩ := hfirst.mp hfails
    exact (fails_of_outgrown hn hown (hfit done (List.prefix_refl _)) hlt).2
  · intro hfit limited full
    obtain ⟨told, halike, hfault, hfine⟩ :=
      alike_of_lineCount_le hn hown (hfit _ (List.prefix_refl _))
    rw [reached_append_singleton, reached_append_singleton] at halike
    exact ⟨hfine, hfault, halike.text, halike.game, halike.console⟩

/-- A log of four lines fails within the diagram of the first move. -/
theorem limited_log_truncates_in_diagram :
    let moves := "Ple2\ne2-e4".toList.map fun c => UInt8.ofNat c.toNat
    let steps : List Step := [.replay moves, .writeBoard]
    (1 ≤ 4 ∧ (∀ step ∈ steps, step.Smooth) ∧ [] ++ [Step.replay moves] <+: steps) ∧
      FailsFirst 4 [] (.replay moves) ∧
      Log.lines (reached (some 4) [.replay moves]).log.text =
        (Log.lines (reached none [.replay moves]).log.text).take 4 ++ [[]] := by
  intro moves steps
  have hsmooth : ∀ step ∈ steps, step.Smooth := by simp [steps, Step.Smooth]
  have hsteps : [] ++ [Step.replay moves] <+: steps := ⟨[.writeBoard], rfl⟩
  have hfault : (reached (some 4) []).faultOf (.replay moves) = some .sinkFull := by
    decide +kernel
  have hfails : FailsFirst 4 [] (.replay moves) := by
    refine ⟨hfault, ?_⟩
    intro earlier next hearlier
    simp at hearlier
  obtain ⟨_, hlines, _⟩ := limited_log_truncates (n := 4) (by decide) steps hsmooth [] _ hsteps
  exact ⟨⟨by decide, hsmooth, hsteps⟩, hfails, hlines hfails⟩

end Session

end Scoresheet
