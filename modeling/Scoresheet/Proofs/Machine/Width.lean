import Scoresheet.Proofs.Fallible
import Scoresheet.Token.Error
/-!
# Numbers of fixed width

The definitions of the library count in whole numbers and look things up in ways that cannot fail. A
machine counts in bytes and words, and traps where a number leaves its width, a place lies past the end
or a text is cut inside a character. Computations are spelled out here with every such check in its
place, so that it can be said that none of them ever strikes.
-/
namespace Scoresheet.Machine

/-- What a machine cannot do. -/
inductive Trap where
  | outOfWidth
  | pastEnd
  | insideCharacter
  | offBoard
  /-- A walk that does not come to an end. -/
  | endless
deriving DecidableEq, Repr

/-- Why a computation breaks off: the machine traps, or a token is refused. -/
inductive Halt where
  | trapped (trap : Trap)
  | refused (error : TokenError)
deriving DecidableEq, Repr

abbrev Run (α : Type) : Type := Except Halt α

section

variable {α β : Type}

/-- Whether no check strikes. A refusal is no trap. -/
def Untrapped (x : Run α) : Prop := ∀ trap, x ≠ .error (.trapped trap)

def answer (x : Except TokenError α) : Run α := x.mapError .refused

/-- Goes on with a result if what it rests on holds. -/
def check (p : Prop) [Decidable p] (trap : Trap) (a : α) : Run α :=
  if p then .ok a else .error (.trapped trap)

def orHalt (x : Option α) (h : Halt) : Run α :=
  match x with
  | some a => .ok a
  | none => .error h

def plus (a b : Nat) : Run Nat := check (a + b < UInt64.size) .outOfWidth (a + b)

/-- The difference of two lengths, which needs no more room than the first of them. -/
def minus (a b : Nat) : Run Nat := check (b ≤ a) .outOfWidth (a - b)

def byte (v : Int) : Run UInt8 := check (0 ≤ v ∧ v < 256) .outOfWidth (.ofNat v.toNat)

def signedByte (v : Int) : Run Int8 := check (-128 ≤ v ∧ v < 128) .outOfWidth (.ofInt v)

def charAt (cs : List Char) (i : Nat) : Run Char := orHalt cs[i]? (.trapped .pastEnd)

theorem check_of {p : Prop} [Decidable p] (h : p) (trap : Trap) (a : α) : check p trap a = .ok a :=
  if_pos h

theorem lt_size {n : Nat} (h : n < 256) : n < UInt64.size := Nat.lt_of_lt_of_le h (by decide)

theorem byte_natCast {n : Nat} (h : n < 256) : byte n = .ok (.ofNat n) := by
  rw [byte, check_of (by omega), Int.toNat_natCast]

@[simp] theorem orHalt_some (a : α) (h : Halt) : orHalt (some a) h = .ok a := rfl

@[simp] theorem orHalt_none (h : Halt) : orHalt (none : Option α) h = .error h := rfl

@[simp] theorem ok_bind (a : α) (f : α → Run β) : (Except.ok a >>= f) = f a := rfl

@[simp] theorem error_bind (h : Halt) (f : α → Run β) :
    ((Except.error h : Run α) >>= f) = .error h := rfl

@[simp] theorem answer_ok (a : α) : answer (.ok a) = .ok a := rfl

@[simp] theorem answer_error (e : TokenError) :
    answer (.error e : Except TokenError α) = .error (.refused e) := rfl

@[simp] theorem answer_pure (a : α) : answer (pure a) = pure a := rfl

theorem answer_bind (x : Except TokenError α) (f : α → Except TokenError β) :
    answer (x >>= f) = answer x >>= fun a => answer (f a) := by
  cases x <;> rfl

theorem untrapped_answer (x : Except TokenError α) : Untrapped (answer x) := by
  intro trap h
  cases x <;> cases h

section Lists

variable {γ : Type} {h : γ → α} {xs : List γ}

theorem mapM_map_eq_ok {f : α → Run β} {g : γ → β} (hall : ∀ x ∈ xs, f (h x) = .ok (g x)) :
    (xs.map h).mapM f = .ok (xs.map g) := by
  induction xs with
  | nil => rfl
  | cons x xs ih =>
    obtain ⟨hx, hxs⟩ := List.forall_mem_cons.mp hall
    rw [List.map_cons, List.mapM_cons, hx, ih hxs]
    rfl

theorem anyM_map_eq_ok {f : α → Run Bool} {g : γ → Bool}
    (hall : ∀ x ∈ xs, f (h x) = .ok (g x)) : (xs.map h).anyM f = .ok (xs.any g) := by
  induction xs with
  | nil => rfl
  | cons x xs ih =>
    obtain ⟨hx, hxs⟩ := List.forall_mem_cons.mp hall
    rw [List.map_cons, List.anyM, hx, ok_bind, List.any_cons]
    cases g x with
    | true => rfl
    | false => exact ih hxs

end Lists

end

end Scoresheet.Machine
