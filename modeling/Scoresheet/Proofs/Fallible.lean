/-!
# Computations that may fail

A chain of computations succeeds when every link does, and fails with the first error.
-/
namespace Scoresheet.Fallible

universe u
variable {ε ε' : Type u} {α β : Type u}

@[simp] theorem bind_eq_ok {x : Except ε α} {f : α → Except ε β} {b : β} :
    (x >>= f) = .ok b ↔ ∃ a, x = .ok a ∧ f a = .ok b := by
  cases x <;> simp [bind, Except.bind]

theorem bind_eq_error {x : Except ε α} {f : α → Except ε β} {e : ε} :
    (x >>= f) = .error e ↔ x = .error e ∨ ∃ a, x = .ok a ∧ f a = .error e := by
  cases x <;> simp [bind, Except.bind]

@[simp] theorem pure_eq_ok {a b : α} : (pure a : Except ε α) = .ok b ↔ a = b := by
  simp [pure, Except.pure]

@[simp] theorem mapError_eq_ok {x : Except ε α} {f : ε → ε'} {a : α} :
    x.mapError f = .ok a ↔ x = .ok a := by
  have herr (e : ε) : (Except.error e : Except ε α).mapError f = .error (f e) := rfl
  have hok (b : α) : (Except.ok b : Except ε α).mapError f = .ok b := rfl
  cases x with
  | error e => simp [herr]
  | ok b => simp [hok]

@[simp] theorem isOk_mapError {x : Except ε α} {f : ε → ε'} : (x.mapError f).isOk = x.isOk := by
  cases x <;> rfl

/-- Causes that each make a computation fail, and of which one is there unless it succeeds, say
which error it ends with. -/
theorem eq_error_iff_of_total {x : Except ε α} {Cause : ε → Prop}
    (hfails : ∀ e, Cause e → x = .error e) (htotal : (∃ e, Cause e) ∨ ∃ a, x = .ok a) (e : ε) :
    x = .error e ↔ Cause e := by
  refine ⟨?_, hfails e⟩
  rintro rfl
  rcases htotal with ⟨found, hfound⟩ | ⟨a, ha⟩
  · rwa [Except.error.inj (hfails found hfound)]
  · cases ha

end Scoresheet.Fallible
