import Scoresheet.Proofs.Session.Conversing
/-!
# Play cut short by the console

Interactive play writes to the console between turns and never within one. So a console that fails
cuts play off after some turn: what was done until then is the beginning of what is done on a
console that takes everything.
-/
namespace Scoresheet

namespace Transcript

variable {es : List Event}

def onRecord (es : List Event) : List Event := es.filter Event.isRecorded

def tokens (es : List Event) : List String := es.filterMap Event.token?

private theorem onRecord_append (es fs : List Event) :
    onRecord (es ++ fs) = onRecord es ++ onRecord fs :=
  List.filter_append es fs

private theorem tokens_append (es fs : List Event) : tokens (es ++ fs) = tokens es ++ tokens fs :=
  List.filterMap_append

private theorem onRecord_of_isShown (h : ∀ e ∈ es, e.isShown = true) : onRecord es = [] := by
  apply List.filter_eq_nil_iff.mpr
  intro e he
  simpa [Event.isShown] using h e he

private theorem onRecord_of_isRecorded (h : ∀ e ∈ es, e.isRecorded = true) : onRecord es = es :=
  List.filter_eq_self.mpr h

private theorem tokens_of_isShown (h : ∀ e ∈ es, e.isShown = true) : tokens es = [] := by
  apply List.filterMap_eq_nil_iff.mpr
  intro e he
  have hshown := h e he
  cases e with
  | log entry => cases hshown
  | _ => rfl

private theorem logText_onRecord (es : List Event) : logText (onRecord es) = logText es := by
  induction es with
  | nil => rfl
  | cons e es ih =>
    cases e with
    | log entry => rw [logText_cons, ← ih, ← logText_cons]; rfl
    | update g => rw [logText_cons, ← ih, ← logText_cons]; rfl
    | _ =>
      rw [logText_cons, ← ih]
      exact String.empty_append.symm

private theorem after_onRecord (g : Game) (es : List Event) :
    g.after (onRecord es) = g.after es := by
  induction es generalizing g with
  | nil => rfl
  | cons e es ih => cases e <;> exact ih _

private theorem tokens_onRecord (es : List Event) : tokens (onRecord es) = tokens es := by
  induction es with
  | nil => rfl
  | cons e es ih =>
    cases e with
    | log entry =>
      have hone (fs : List Event) : tokens (.log entry :: fs) = tokens [.log entry] ++ tokens fs :=
        tokens_append [.log entry] fs
      rw [hone, ← ih, ← hone]
      rfl
    | _ => exact ih

private theorem logText_isPrefix {fs : List Event} (h : es <+: fs) :
    (logText es).toList <+: (logText fs).toList := by
  obtain ⟨rest, rfl⟩ := h
  rw [logText_append, String.toList_append]
  exact List.prefix_append _ _

private theorem split_at_shown {es fs before rest : List Event} {e : Event}
    (h : es ++ fs = before ++ e :: rest) :
    (∃ more, es = before ++ e :: more) ∨ ∃ behind, before = es ++ behind ∧ fs = behind ++ e :: rest := by
  rcases List.append_eq_append_iff.mp h with ⟨behind, hbefore, hfs⟩ | ⟨more, hes, hrest⟩
  · exact .inr ⟨behind, hbefore, hfs⟩
  · cases more with
    | nil => exact .inr ⟨[], by simpa using hes.symm, by simpa using hrest.symm⟩
    | cons d more =>
      obtain ⟨rfl, _⟩ := List.cons.inj hrest
      exact .inl ⟨more, hes⟩

end Transcript

open Transcript (onRecord tokens logText)

namespace Game

variable {g : Game} {es : List Event}

/-- Whether events come to turns and what is logged after them, and whatever they show, they show
after a turn has passed. The turns until then are as many as tokens were logged. -/
structure ShowsBetween (g : Game) (es : List Event) (turns : List Intent) (tail : List Event) :
    Prop where
  playable : g.Playable turns
  onRecord_eq : onRecord es = g.playTurns turns ++ tail
  ending : (g.after (g.playTurns turns)).Ending none tail ∨ ∃ f, .fault f ∈ es
  between : ∀ before e rest, es = before ++ e :: rest → e.isShown = true →
    onRecord before = g.playTurns (turns.take (tokens before).length)

private theorem length_tokens_playTurns {turns : List Intent} (h : g.Playable turns) :
    (tokens (g.playTurns turns)).length = turns.length := by
  induction turns generalizing g with
  | nil => rfl
  | cons i is ih =>
    obtain ⟨hi, his⟩ := h
    obtain ⟨token, hr⟩ := exists_replaysAs hi
    have htoken : tokens (g.playTurn i) = [token] := hr.tokens
    rw [playTurns, Transcript.tokens_append, htoken, List.singleton_append, List.length_cons,
      List.length_cons, ih his]

private theorem length_tokens {last : Game} {f? : Option Fault} {turns : List Intent}
    {tail : List Event}
    (h : onRecord es = g.playTurns turns ++ tail) (hturns : g.Playable turns)
    (hend : last.Ending f? tail) : (tokens es).length = turns.length := by
  have htail : tokens tail = [] := hend.filterMap_token?
  rw [← Transcript.tokens_onRecord, h, Transcript.tokens_append, htail, List.append_nil,
    length_tokens_playTurns hturns]

theorem Playable.take {turns : List Intent} (h : g.Playable turns) (k : Nat) :
    g.Playable (turns.take k) := by
  induction turns generalizing g k with
  | nil => rwa [List.take_nil]
  | cons i is ih =>
    cases k with
    | zero => trivial
    | succ k => exact ⟨h.1, ih h.2 k⟩

/-- A conversation shows something only between turns. -/
theorem Conversation.exists_showsBetween (h : g.Conversation es) :
    ∃ turns tail, g.ShowsBetween es turns tail := by
  -- a shown event is in the first part or behind it; in front of it lie whole parts alone
  induction h with
  | @ending g es h =>
    refine ⟨[], es, trivial, Transcript.onRecord_of_isRecorded h.isRecorded, .inl h, ?_⟩
    intro before e rest hes he
    have hrec : e.isRecorded = true := h.isRecorded e (by simp [hes])
    simp [Event.isShown, hrec] at he
  | @fault g f =>
    refine ⟨[], [], trivial, rfl, .inr ⟨f, List.mem_singleton_self _⟩, ?_⟩
    intro before e rest hes _
    cases before with
    | nil => rfl
    | cons d before => simp at hes
  | @shown g es fs hes _ ih =>
    obtain ⟨turns, tail, hturns, hrec, hend, hbetween⟩ := ih
    refine ⟨turns, tail, hturns, ?_, ?_, ?_⟩
    · rw [Transcript.onRecord_append, Transcript.onRecord_of_isShown hes, hrec, List.nil_append]
    · exact hend.imp_right (Exists.imp fun _ hf => List.mem_append_right es hf)
    · intro before e rest hsplit he
      rcases Transcript.split_at_shown hsplit with ⟨more, rfl⟩ | ⟨behind, rfl, hfs⟩
      · have hbefore : ∀ d ∈ before, d.isShown = true := fun d hd => hes d (List.mem_append_left _ hd)
        rw [Transcript.onRecord_of_isShown hbefore, Transcript.tokens_of_isShown hbefore]
        rfl
      · rw [Transcript.onRecord_append, Transcript.onRecord_of_isShown hes,
          Transcript.tokens_append, Transcript.tokens_of_isShown hes]
        exact hbetween behind e rest hfs he
  | @turn g i fs hi _ ih =>
    obtain ⟨turns, tail, hturns, hrec, hend, hbetween⟩ := ih
    obtain ⟨token, hr⟩ := exists_replaysAs hi
    refine ⟨i :: turns, tail, ⟨hi, hturns⟩, ?_, ?_, ?_⟩
    · rw [Transcript.onRecord_append, Transcript.onRecord_of_isRecorded hr.isRecorded, hrec,
        playTurns, List.append_assoc]
    · rw [playTurns, after_append]
      exact hend.imp_right (Exists.imp fun _ hf => List.mem_append_right _ hf)
    · intro before e rest hsplit he
      rcases Transcript.split_at_shown hsplit with ⟨more, hplayed⟩ | ⟨behind, rfl, hfs⟩
      · -- all of a turn goes on record, so nothing is shown before its end
        have hrec : e.isRecorded = true := hr.isRecorded e (by simp [hplayed])
        simp [Event.isShown, hrec] at he
      · have htoken : tokens (g.playTurn i) = [token] := hr.tokens
        rw [Transcript.onRecord_append, Transcript.onRecord_of_isRecorded hr.isRecorded,
          hbetween behind e rest hfs he, Transcript.tokens_append, htoken]
        rfl

end Game

namespace Sink

variable {s : Sink}

private theorem isPrefix_text_write (s : Sink) (piece : String) :
    s.text.toList <+: (s.write piece).text.toList := by
  rw [text_write]
  split
  · rw [String.toList_append]
    exact List.prefix_append _ _
  · exact List.prefix_refl _

private theorem text_write_isPrefix (s : Sink) (piece : String) :
    (s.write piece).text.toList <+: (s.text ++ piece).toList := by
  rw [text_write]
  split
  · exact List.prefix_refl _
  · rw [String.toList_append]
    exact List.prefix_append _ _

private theorem isPrefix_text_writeLine (s : Sink) (line : String) :
    s.text.toList <+: (s.writeLine line).text.toList := by
  unfold writeLine
  split
  · exact (s.isPrefix_text_write line).trans ((s.write line).isPrefix_text_write "\n")
  · exact List.prefix_refl _

private theorem text_writeLine_isPrefix (s : Sink) (line : String) :
    (s.writeLine line).text.toList <+: (s.text ++ line ++ "\n").toList := by
  unfold writeLine
  split
  · next hacc =>
    have htext : (s.write line).text = s.text ++ line := by rw [text_write, if_pos hacc]
    rw [← htext]
    exact (s.write line).text_write_isPrefix "\n"
  · rw [String.append_assoc, String.toList_append]
    exact List.prefix_append _ _

end Sink

namespace Session

variable {s limited free : Session} {es : List Event} {f : Fault}

private theorem performed_cons_of_none {next : Session} {e : Event}
    (h : s.performOne e = (next, none)) :
    s.performed (e :: es) = e :: next.performed es := by
  rw [performed, h]

private theorem performed_cons_of_some {next : Session} {e : Event}
    (h : s.performOne e = (next, some f)) :
    s.performed (e :: es) = [e] := by
  rw [performed, h]

private theorem room_log_performOne (hroom : s.log.room = none) (e : Event) :
    (s.performOne e).1.log.room = none := by
  cases e with
  | log entry => exact Sink.room_writeLine_of_room_eq_none hroom entry.text
  | _ => exact hroom

private theorem isShown_of_performOne {next : Session} {e : Event} (hroom : s.log.room = none)
    (h : s.performOne e = (next, some f)) : e.isShown = true := by
  rw [Event.isShown, Bool.not_eq_true', Bool.eq_false_iff]
  intro hrec
  obtain ⟨mid, hmid, _⟩ := performOne_unshown hroom (Event.isSilent_or_isEntry_of_isRecorded hrec)
  rw [hmid] at h
  cases h

private theorem record_of_performed (hroom : s.log.room = none) (es : List Event) :
    (s.perform es).1.game = s.game.after (s.performed es) ∧
      (s.perform es).1.log.text = s.log.text ++ logText (s.performed es) := by
  induction es generalizing s with
  | nil => exact ⟨rfl, by simp [performed]⟩
  | cons e es ih =>
    have hroom' := room_log_performOne hroom e
    rcases hone : s.performOne e with ⟨mid, _ | f⟩
    · rw [hone] at hroom'
      obtain ⟨hgame, htext⟩ := ih hroom'
      obtain ⟨hgo, hwrite⟩ := performOne_whole hone
      rw [perform_cons_of_none hone, performed_cons_of_none hone, hgame, htext, hgo, hwrite,
        Transcript.logText_cons, String.append_assoc]
      exact ⟨rfl, rfl⟩
    · have hshown : ∀ d ∈ [e], d.isShown = true :=
        List.forall_mem_singleton.mpr (isShown_of_performOne hroom hone)
      have hlast : s.perform [e] = (mid, some f) := perform_cons_of_some hone []
      obtain ⟨hgame, hlog⟩ := perform_shown (s := s) hshown
      rw [hlast] at hgame hlog
      rw [perform_cons_of_some hone, performed_cons_of_some hone, Game.after_of_isShown hshown,
        ← Transcript.logText_onRecord, Transcript.onRecord_of_isShown hshown, hgame, hlog]
      exact ⟨rfl, String.append_empty.symm⟩

private theorem performed_of_none (h : (s.perform es).2 = none) : s.performed es = es := by
  induction es generalizing s with
  | nil => rfl
  | cons e es ih =>
    rcases hone : s.performOne e with ⟨mid, _ | f⟩
    · rw [perform_cons_of_none hone] at h
      rw [performed_cons_of_none hone, ih h]
    · rw [perform_cons_of_some hone] at h
      cases h

private theorem performed_of_some (hroom : s.log.room = none) (h : (s.perform es).2 = some f) :
    ∃ before e rest, es = before ++ e :: rest ∧ e.isShown = true ∧
      s.performed es = before ++ [e] := by
  induction es generalizing s with
  | nil => cases h
  | cons d es ih =>
    have hroom' := room_log_performOne hroom d
    rcases hone : s.performOne d with ⟨mid, _ | g⟩
    · rw [hone] at hroom'
      rw [perform_cons_of_none hone] at h
      obtain ⟨before, e, rest, rfl, he, hdone⟩ := ih hroom' h
      exact ⟨d :: before, e, rest, rfl, he, by rw [performed_cons_of_none hone, hdone]; rfl⟩
    · exact ⟨[], d, es, rfl, isShown_of_performOne hroom hone, performed_cons_of_some hone⟩

private theorem console_performOne_isPrefix (s : Session) (e : Event) :
    (s.performOne e).1.console.text.toList <+: (s.console.text ++ e.consoleText).toList := by
  cases e with
  | say line =>
    rw [Event.consoleText, ← String.append_assoc]
    exact s.console.text_writeLine_isPrefix line
  | prompt => exact s.console.text_write_isPrefix promptText
  | _ => simp [performOne, Event.consoleText]

private theorem isPrefix_console_performOne (s : Session) (e : Event) :
    s.console.text.toList <+: (s.performOne e).1.console.text.toList := by
  cases e with
  | say line => exact s.console.isPrefix_text_writeLine line
  | prompt => exact s.console.isPrefix_text_write promptText
  | _ => exact List.prefix_refl _

/-- Whether the console takes all of the text of an event. -/
def consoleTakes (s : Session) : Event → Bool
  | .say line => s.console.acceptsLine line
  | .prompt => s.console.accepts promptText
  | _ => true

theorem console_performOne {e : Event} (h : s.consoleTakes e = true) :
    (s.performOne e).1.console.text = s.console.text ++ e.consoleText := by
  cases e with
  | say line =>
    rw [Event.consoleText, ← String.append_assoc]
    exact Sink.text_writeLine_of_acceptsLine h
  | prompt => exact (s.console.text_write promptText).trans (if_pos h)
  | _ => exact String.append_empty.symm

private theorem fault_performOne_of_not_consoleTakes {e : Event} (h : s.consoleTakes e = false) :
    (s.performOne e).2 = some .sinkFull := by
  cases e with
  | say line => exact congrArg faultUnless h
  | prompt => exact congrArg faultUnless h
  | _ => cases h

private theorem fault_performOne_congr {e : Event} (hlog : limited.log = free.log)
    (hl : limited.consoleTakes e = true) (hf : free.consoleTakes e = true) :
    (limited.performOne e).2 = (free.performOne e).2 := by
  cases e with
  | log entry => simp only [performOne, hlog]
  | say line => exact congrArg faultUnless (hl.trans hf.symm)
  | prompt => exact congrArg faultUnless (hl.trans hf.symm)
  | _ => rfl

theorem consoleTakes_of_unlimited (h : s.console.room = none) (e : Event) :
    s.consoleTakes e = true := by
  cases e with
  | say line => exact Sink.acceptsLine_of_room_eq_none h line
  | prompt => exact Sink.accepts_of_room_eq_none h promptText
  | _ => rfl

theorem room_console_performOne (h : s.console.room = none) (e : Event) :
    (s.performOne e).1.console.room = none := by
  cases e with
  | say line => exact Sink.room_writeLine_of_room_eq_none h line
  | prompt => exact Sink.room_write_of_room_eq_none h promptText
  | _ => exact h

/-- Whatever is performed, a console keeps what it has taken. -/
theorem isPrefix_console_perform (s : Session) (es : List Event) :
    s.console.text.toList <+: (s.perform es).1.console.text.toList := by
  apply perform_keeps (P := fun next => s.console.text.toList <+: next.console.text.toList) _
    (List.prefix_refl _)
  intro e _ next hnext
  exact hnext.trans (next.isPrefix_console_performOne e)

/-- Whether two sessions differ only in what their consoles still take, and the second console takes
everything. -/
structure Abreast (limited free : Session) : Prop where
  game : limited.game = free.game
  log : limited.log = free.log
  console : limited.console.text = free.console.text
  unlimited : free.console.room = none

/-- Whether of two runs the first was ended by a full sink, or both are alike. -/
def EndsEarlier (limited free : Session × Option Fault) : Prop :=
  limited.2 = some .sinkFull ∨ limited.1.Abreast free.1 ∧ limited.2 = free.2

theorem Abreast.performOne (h : limited.Abreast free) (e : Event) :
    (limited.performOne e).1.console.text.toList <+: (free.performOne e).1.console.text.toList ∧
      EndsEarlier (limited.performOne e) (free.performOne e) := by
  have hfree := consoleTakes_of_unlimited h.unlimited e
  have htext := console_performOne hfree
  have hbegins := limited.console_performOne_isPrefix e
  rw [h.console, ← htext] at hbegins
  refine ⟨hbegins, ?_⟩
  cases hl : limited.consoleTakes e with
  | false => exact .inl (fault_performOne_of_not_consoleTakes hl)
  | true =>
    have hsame : (limited.performOne e).1.console.text = (free.performOne e).1.console.text := by
      rw [console_performOne hl, htext, h.console]
    have hroom := room_console_performOne h.unlimited e
    refine .inr ⟨⟨?_, ?_, hsame, hroom⟩, fault_performOne_congr h.log hl hfree⟩
    · cases e with
      | update g => rfl
      | _ => exact h.game
    · cases e with
      | log entry => exact congrArg (Sink.writeLine · entry.text) h.log
      | _ => exact h.log

/-- A console that takes less ends a run earlier, or makes no difference to it. -/
theorem Abreast.perform (h : limited.Abreast free) (es : List Event) :
    (limited.perform es).1.console.text.toList <+: (free.perform es).1.console.text.toList ∧
      limited.performed es <+: free.performed es ∧
      EndsEarlier (limited.perform es) (free.perform es) := by
  -- on the events; after the first that the limited console refuses, the other one only grows
  induction es generalizing limited free with
  | nil =>
    have hsame : limited.console.text.toList = free.console.text.toList := by rw [h.console]
    exact ⟨hsame ▸ List.prefix_refl _, List.prefix_refl _, .inr ⟨h, rfl⟩⟩
  | cons e es ih =>
    obtain ⟨hconsole, hend⟩ := h.performOne e
    have hgrows : (free.performOne e).1.console.text.toList <+:
        (free.perform (e :: es)).1.console.text.toList := by
      rcases hr : free.performOne e with ⟨next, _ | f⟩
      · rw [perform_cons_of_none hr]
        exact next.isPrefix_console_perform es
      · exact (perform_cons_of_some hr es).symm ▸ List.prefix_refl _
    rcases hl : limited.performOne e with ⟨next, _ | f⟩
    · rw [hl] at hconsole hend
      obtain hfull | ⟨hnext, hfault⟩ := hend
      · cases hfull
      rcases hr : free.performOne e with ⟨next', _ | f⟩
      · rw [hr] at hnext
        obtain ⟨htext, hdone, hend⟩ := ih hnext
        rw [perform_cons_of_none hl, perform_cons_of_none hr, performed_cons_of_none hl,
          performed_cons_of_none hr]
        exact ⟨htext, List.cons_prefix_cons.mpr ⟨rfl, hdone⟩, hend⟩
      · rw [hr] at hfault
        cases hfault
    · rw [hl] at hconsole hend
      rw [perform_cons_of_some hl, performed_cons_of_some hl]
      refine ⟨hconsole.trans hgrows, List.cons_prefix_cons.mpr ⟨rfl, List.nil_prefix⟩, ?_⟩
      refine hend.imp_right fun ⟨hnext, hfault⟩ => ?_
      have hr : free.performOne e = ((free.performOne e).1, some f) := Prod.ext rfl hfault.symm
      rw [perform_cons_of_some hr]
      exact ⟨hnext, rfl⟩

/-- Whether events, performed in a session, come to turns and an ending: nothing else is on record,
and the game is left as the last turn left it. -/
structure CameTo (s : Session) (es : List Event) (turns : List Intent) (ending : List Event) :
    Prop where
  playable : s.game.Playable turns
  onRecord_eq : onRecord (s.performed es) = s.game.playTurns turns ++ ending
  ended : (s.game.after (s.game.playTurns turns)).Ending (s.perform es).2 ending
  game : (s.perform es).1.game = s.game.after (s.game.playTurns turns)
  log : (s.perform es).1.log.text =
    s.log.text ++ logText (s.game.playTurns turns) ++ logText ending

/-- What shows something only between turns comes to as many turns as it has logged tokens, wherever
the console fails. -/
theorem exists_cameTo {turns : List Intent} {tail : List Event}
    (h : s.game.ShowsBetween es turns tail) (hroom : s.log.room = none) :
    ∃ ending, s.CameTo es (turns.take (tokens (s.performed es)).length) ending := by
  obtain ⟨hturns, hrec, hend, hbetween⟩ := h
  obtain ⟨hgame, hlog⟩ := record_of_performed hroom es
  have hcame {k : Nat} {ending : List Event}
      (hdone : onRecord (s.performed es) = s.game.playTurns (turns.take k) ++ ending)
      (hended : (s.game.after (s.game.playTurns (turns.take k))).Ending (s.perform es).2 ending) :
      s.CameTo es (turns.take k) ending := by
    refine ⟨hturns.take k, hdone, hended, ?_, ?_⟩
    · rw [hgame, ← Transcript.after_onRecord, hdone, Game.after_append, hended.after]
    · rw [hlog, ← Transcript.logText_onRecord, hdone, Transcript.logText_append,
        String.append_assoc]
  cases hfault : (s.perform es).2 with
  | none =>
    rcases hend with hend | ⟨f, hf⟩
    · rw [performed_of_none hfault, Game.length_tokens hrec hturns hend]
      refine ⟨tail, hcame ?_ ?_⟩
      · rw [performed_of_none hfault, List.take_length, hrec]
      · rwa [hfault, List.take_length]
    · exact absurd hfault (perform_fails_of_fault hf)
  | some f =>
    obtain ⟨before, e, rest, hes, he, hdone⟩ := performed_of_some hroom hfault
    have hlast : ∀ d ∈ [e], d.isShown = true := List.forall_mem_singleton.mpr he
    rw [hdone, Transcript.tokens_append, Transcript.tokens_of_isShown hlast, List.append_nil]
    refine ⟨[], hcame ?_ ?_⟩
    · rw [hdone, Transcript.onRecord_append, Transcript.onRecord_of_isShown hlast,
        hbetween before e rest hes he]
    · rw [hfault]
      exact .fault f

/-- Whether events, performed in two sessions, go together until the first is cut off after some of
the turns that the second comes to. -/
structure CutShort (limited free : Session) (es : List Event) : Prop where
  console :
    (limited.perform es).1.console.text.toList <+: (free.perform es).1.console.text.toList
  log : (limited.perform es).1.log.text.toList <+: (free.perform es).1.log.text.toList
  performed : limited.performed es <+: free.performed es
  /-- Unless its console fails, the first run is the second. -/
  ends : EndsEarlier (limited.perform es) (free.perform es)
  turns : ∃ turns, (∃ ending, free.CameTo es turns ending) ∧
    ∃ k ≤ turns.length, ∃ ending, limited.CameTo es (turns.take k) ending

/-- Interactive play on a console with room for some line feeds is the beginning of interactive play
on one that takes everything, cut off after a turn. -/
theorem full_console_cuts_after_turn (hs : s.game.board.Seated) (hroom : s.log.room = none)
    (input : List UInt8) (n : Nat) :
    CutShort { s with console := .fresh (some n) } { s with console := .fresh none }
      (s.game.interact (Text.lines input)) := by
  let limited : Session := { s with console := .fresh (some n) }
  let free : Session := { s with console := .fresh none }
  generalize hevents : s.game.interact (Text.lines input) = events
  have habreast : limited.Abreast free := ⟨rfl, rfl, rfl, rfl⟩
  obtain ⟨hconsole, hdone, hend⟩ := habreast.perform events
  have hlog : (limited.perform events).1.log.text.toList <+:
      (free.perform events).1.log.text.toList := by
    rw [(record_of_performed (s := limited) hroom events).2,
      (record_of_performed (s := free) hroom events).2, String.toList_append, String.toList_append]
    exact (List.prefix_append_right_inj _).mpr (Transcript.logText_isPrefix hdone)
  obtain ⟨turns, tail, hbetween⟩ :=
    (Game.conversation_interact hs (Text.lines input)).exists_showsBetween
  rw [hevents] at hbetween
  obtain ⟨ending, hwhole⟩ := exists_cameTo (s := free) hbetween hroom
  obtain ⟨ending', hcut⟩ := exists_cameTo (s := limited) hbetween hroom
  have hfewer : (tokens (limited.performed events)).length ≤ (tokens (free.performed events)).length :=
    (hdone.filterMap Event.token?).length_le
  refine ⟨hconsole, hlog, hdone, hend, _, ⟨ending, hwhole⟩,
    (tokens (limited.performed events)).length, ?_, ending', ?_⟩
  · rwa [← Game.length_tokens hwhole.onRecord_eq hwhole.playable hwhole.ended]
  · rwa [List.take_take, Nat.min_eq_left hfewer]

/-- Each side has a pawn, and the console fails while it shows the board to Black. -/
theorem full_console_cuts_after_first_turn :
    let s : Session := { fresh none with
      game := ⟨Board.empty.afterAll [.placeToken "Ple2", .placeToken "Pde7"], .white, false⟩ }
    let events :=
      s.game.interact (Text.lines [0x31, 0x0A, 0x31, 0x0A, 0x31, 0x0A, 0x31, 0x0A])
    let limited : Session := { s with console := .fresh (some 20) }
    let free : Session := { s with console := .fresh none }
    (limited.perform events).2 = some .sinkFull ∧ (free.perform events).2 = none ∧
      (limited.perform events).1.game = s.game.after (s.game.playTurn (.move ⟨1, 4⟩ ⟨2, 4⟩)) ∧
      (free.perform events).1.game.turn = .white ∧ limited.CutShort free events := by
  intro s events limited free
  have hs : s.game.board.Seated := Board.seated_empty.afterAll _
  have hruns : ((limited.perform events).2 = some .sinkFull ∧ (free.perform events).2 = none) ∧
      (limited.perform events).1.game = s.game.after (s.game.playTurn (.move ⟨1, 4⟩ ⟨2, 4⟩)) ∧
      (free.perform events).1.game.turn = .white := by decide +kernel
  obtain ⟨⟨hfull, hnone⟩, hgame, hturn⟩ := hruns
  exact ⟨hfull, hnone, hgame, hturn, full_console_cuts_after_turn hs rfl _ 20⟩

end Session

end Scoresheet
