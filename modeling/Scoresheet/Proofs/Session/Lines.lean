import Scoresheet.Proofs.Session.HalfPlayed
/-!
# What a line makes of a game

A line changes the game by its action tokens, one after the other, or by its placement. An action
token passes the turn and closes placement whatever else comes of it.
-/
namespace Scoresheet

def Directive.actionTokens (line : String) : List String := ((ofLine line).actions?).getD []

private theorem Directive.Tidy.of_mem_actions {d : Directive} {tokens : List String}
    {token : String} (h : d.Tidy)
    (hd : d.actions? = some tokens) (ht : token ∈ tokens) : OnOneLine token := by
  cases d with
  | movements ts =>
    obtain rfl := Option.some.inj hd
    exact h token ht
  | castles ts =>
    obtain rfl := Option.some.inj hd
    exact h token ht
  | _ => cases hd

namespace Game

def acted (g : Game) (token : String) : Game := ⟨g.boardAfter token, g.turn.opposite, true⟩

def actedAll (g : Game) (tokens : List String) : Game := tokens.foldl acted g

/-- The game after a placement. Once movement has begun it changes nothing. -/
def placed (g : Game) (token : String) : Game :=
  if g.begun then g
  else
    match Placement.ofToken token with
    | .ok p => { g with board := g.board.place p }
    | .error _ => g

/-- The game after a line. -/
def carriedOut (g : Game) (line : String) : Game :=
  match Directive.ofLine line with
  | .placement token => g.placed token
  | .movements tokens => g.actedAll tokens
  | .castles tokens => g.actedAll tokens
  | _ => g

def carriedOutAll (g : Game) (lines : List String) : Game := lines.foldl carriedOut g

variable {g : Game} {line token : String} {tokens lines : List String}

@[simp] theorem actedAll_cons (g : Game) (token : String) (tokens : List String) :
    g.actedAll (token :: tokens) = (g.acted token).actedAll tokens := rfl

@[simp] theorem carriedOutAll_cons (g : Game) (line : String) (lines : List String) :
    g.carriedOutAll (line :: lines) = (g.carriedOut line).carriedOutAll lines := rfl

theorem placed_of_begun (h : g.begun = true) (token : String) : g.placed token = g := if_pos h

private theorem placed_eq (g : Game) (token : String) :
    ∃ board, g.placed token = { g with board } := by
  unfold placed
  split
  · exact ⟨g.board, rfl⟩
  · split
    · exact ⟨_, rfl⟩
    · exact ⟨g.board, rfl⟩

@[simp] theorem turn_placed (g : Game) (token : String) : (g.placed token).turn = g.turn := by
  obtain ⟨board, h⟩ := g.placed_eq token
  rw [h]

@[simp] theorem begun_placed (g : Game) (token : String) : (g.placed token).begun = g.begun := by
  obtain ⟨board, h⟩ := g.placed_eq token
  rw [h]

private theorem after_playActions (g : Game) (tokens : List String) :
    g.after (g.playActions tokens) = g.actedAll tokens := by
  induction tokens generalizing g with
  | nil => rfl
  | cons token tokens ih =>
    rw [playActions, after_append, ih, after_playAction]
    rfl

private theorem after_place (hb : g.begun = false) : g.after (g.place token) = g.placed token := by
  rw [placed, if_neg (Bool.eq_false_iff.mp hb)]
  unfold place
  cases Placement.ofToken token <;> rfl

theorem after_playLine (g : Game) (line : String) : g.after (g.playLine line) = g.carriedOut line := by
  unfold playLine carriedOut
  cases Directive.ofLine line with
  | blank => rfl
  | placement token =>
    cases hb : g.begun with
    | true => exact (placed_of_begun hb token).symm
    | false => exact after_place hb
  | movements tokens => exact g.after_playActions tokens
  | castles tokens => exact g.after_playActions tokens
  | unrecognized content => rfl

theorem after_replayFrom (g : Game) (number : Nat) (lines : List String) :
    g.after (g.replayFrom number lines) = g.carriedOutAll lines := by
  induction lines generalizing g number with
  | nil => rfl
  | cons line lines ih =>
    have hline : g.after (g.playNumbered number line) = g.carriedOut line := g.after_playLine line
    rw [replayFrom, after_append, ih, hline]
    rfl

/-- Where an event of a line comes from: the line's placement, carried out or skipped, one of its
actions, or the report that it was not recognized. -/
inductive EventOf (line : String) : Event → Prop where
  | placement {token : String} (h : Directive.ofLine line = .placement token) (g : Game) {e : Event}
    (he : e ∈ g.place token) : EventOf line e
  | skipped {token : String} (h : Directive.ofLine line = .placement token) :
    EventOf line (.log (.placementSkipped token))
  | action {tokens : List String} (h : (Directive.ofLine line).actions? = some tokens)
    {token : String} (ht : token ∈ tokens) (g : Game) {e : Event} (he : e ∈ g.playAction token) :
    EventOf line e
  | unrecognized {content : String} (h : Directive.ofLine line = .unrecognized content) :
    EventOf line (.log (.unrecognized content))

section Origin

variable {e : Event}

private theorem exists_of_mem_playActions (he : e ∈ g.playActions tokens) :
    ∃ before : Game, ∃ token ∈ tokens, e ∈ before.playAction token := by
  induction tokens generalizing g with
  | nil => cases he
  | cons token tokens ih =>
    rcases List.mem_append.mp he with he | he
    · exact ⟨g, token, List.mem_cons_self, he⟩
    · obtain ⟨before, other, hother, he⟩ := ih he
      exact ⟨before, other, List.mem_cons_of_mem _ hother, he⟩

theorem eventOf_of_mem_playLine (he : e ∈ g.playLine line) : EventOf line e := by
  have hactions {tokens : List String} (h : (Directive.ofLine line).actions? = some tokens)
      (he : e ∈ g.playActions tokens) : EventOf line e := by
    obtain ⟨before, token, ht, he⟩ := exists_of_mem_playActions he
    exact .action h ht before he
  unfold playLine at he
  cases hd : Directive.ofLine line with
  | blank =>
    rw [hd] at he
    cases he
  | placement token =>
    simp only [hd] at he
    split at he
    · obtain rfl := List.mem_singleton.mp he
      exact .skipped hd
    · exact .placement hd g he
  | movements tokens =>
    simp only [hd] at he
    exact hactions (by rw [hd]; rfl) he
  | castles tokens =>
    simp only [hd] at he
    exact hactions (by rw [hd]; rfl) he
  | unrecognized content =>
    simp only [hd] at he
    obtain rfl := List.mem_singleton.mp he
    exact .unrecognized hd

private theorem exists_of_mem_replayFrom {number : Nat} (he : e ∈ g.replayFrom number lines) :
    (∃ n, e = .note n) ∨ ∃ line ∈ lines, EventOf line e := by
  induction lines generalizing g number with
  | nil => cases he
  | cons line lines ih =>
    rcases List.mem_append.mp he with he | he
    · rcases List.mem_cons.mp he with rfl | he
      · exact .inl ⟨_, rfl⟩
      · exact .inr ⟨line, List.mem_cons_self, eventOf_of_mem_playLine he⟩
    · rcases ih he with hnote | ⟨other, hother, he⟩
      · exact .inl hnote
      · exact .inr ⟨other, List.mem_cons_of_mem _ hother, he⟩

end Origin

section Unshown

open Transcript (Unshown)

theorem unshown_place (g : Game) (token : String) : Unshown (g.place token) := by
  unfold place
  cases Placement.ofToken token <;> simp [Unshown, Event.isSilent, Event.isEntry]

private theorem EventOf.isSilent_or_isEntry {e : Event} (h : EventOf line e) :
    e.isSilent ∨ e.isEntry := by
  cases h with
  | placement _ g he => exact g.unshown_place _ e he
  | skipped => exact .inr rfl
  | action _ _ g he => exact g.unshown_playAction _ e he
  | unrecognized => exact .inr rfl

theorem unshown_playLine (g : Game) (line : String) : Unshown (g.playLine line) := fun _ he =>
  (eventOf_of_mem_playLine he).isSilent_or_isEntry

theorem unshown_replayFrom (g : Game) (number : Nat) (lines : List String) :
    Unshown (g.replayFrom number lines) := by
  intro e he
  rcases exists_of_mem_replayFrom he with ⟨n, rfl⟩ | ⟨line, _, he⟩
  · exact .inl rfl
  · exact he.isSilent_or_isEntry

end Unshown

section Tidy

open Transcript (Tidy)

theorem Outcome.tidy {es : List Event} (h : g.Outcome token es) (ht : OnOneLine token) :
    Tidy es := by
  cases h with
  | @accepted board e _ he =>
    have hentry : e.Tidy := by
      cases he with
      | moved m c captured => exact ht
      | castled side c => exact ht
    intro other hother
    simp only [List.mem_cons, reduceCtorEq, Event.log.injEq, false_or] at hother
    rcases hother with rfl | hrow
    · exact hentry
    · exact board.ofPlay_logged.tidy other hrow
  | @refused e notes _ he =>
    have hentry : e.Tidy := by
      cases he with
      | movement m c found => exact ht
      | castle c => exact ht
      | unreadable error hquotes => exact ⟨ht, hquotes⟩
    intro other hother
    obtain rfl : other = e := by simpa using hother
    exact hentry

private theorem tidy_playAction (g : Game) (ht : OnOneLine token) : Tidy (g.playAction token) := by
  have hplayed := (outcome_played { g with begun := true } token).tidy ht
  intro e he
  apply hplayed
  simpa [playAction] using he

theorem tidy_place (g : Game) (ht : OnOneLine token) : Tidy (g.place token) := by
  unfold place
  cases hread : Placement.ofToken token with
  | ok p => simpa [Tidy, Entry.Tidy] using ht
  | error e => simpa [Tidy, Entry.Tidy] using ⟨ht, Placement.quotes_of_ofToken hread⟩

theorem EventOf.tidy {e : Entry} (h : EventOf line (.log e)) (hl : OnOneLine line) : e.Tidy := by
  have hd := Directive.tidy_ofLine hl
  cases h with
  | placement h g he =>
    rw [h] at hd
    exact g.tidy_place hd e he
  | skipped h =>
    rw [h] at hd
    exact hd
  | action h ht g he => exact g.tidy_playAction (hd.of_mem_actions h ht) e he
  | unrecognized h =>
    rw [h] at hd
    exact hd

theorem tidy_playLine (g : Game) (hl : OnOneLine line) : Tidy (g.playLine line) := fun _ he =>
  (eventOf_of_mem_playLine he).tidy hl

theorem tidy_replayFrom (g : Game) (number : Nat) (hl : ∀ line ∈ lines, OnOneLine line) :
    Tidy (g.replayFrom number lines) := by
  intro e he
  rcases exists_of_mem_replayFrom he with ⟨n, hn⟩ | ⟨line, hline, he⟩
  · cases hn
  · exact he.tidy (hl line hline)

end Tidy

end Game

end Scoresheet
