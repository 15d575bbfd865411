import Mathlib.Tactic.Basic

/-!
# Lib — what a successful `Except` computation establishes

A validator written as a sequence of guards in `Except ε` succeeds exactly when every step
succeeds in turn.  These are the rewriting rules that peel such a computation apart, so that a
proof about a validator reads its guards off one by one without unfolding the monad.
-/

namespace Except

variable {ε α β : Type _}

@[simp] theorem ok_bind (a : α) (f : α → Except ε β) : (Except.ok a >>= f) = f a := rfl

@[simp] theorem error_bind (e : ε) (f : α → Except ε β) :
    (Except.error e >>= f) = Except.error e := rfl

@[simp] theorem bind_eq_ok {x : Except ε α} {f : α → Except ε β} {b : β} :
    (x >>= f) = .ok b ↔ ∃ a, x = .ok a ∧ f a = .ok b := by
  cases x <;> simp [bind, Except.bind]

@[simp] theorem bind_eq_error {x : Except ε α} {f : α → Except ε β} {e : ε} :
    (x >>= f) = .error e ↔ x = .error e ∨ ∃ a, x = .ok a ∧ f a = .error e := by
  cases x <;> simp [bind, Except.bind]

@[simp] theorem pure_eq_ok {a b : α} : (pure a : Except ε α) = .ok b ↔ a = b := by
  simp [pure, Except.pure]

@[simp] theorem throw_ne_ok {e : ε} {a : α} : (throw e : Except ε α) ≠ .ok a := by
  simp [throw, throwThe, MonadExceptOf.throw]

@[simp] theorem throw_eq_error {e e' : ε} : (throw e : Except ε α) = .error e' ↔ e = e' := by
  simp [throw, throwThe, MonadExceptOf.throw]

@[simp] theorem mapError_ok {ε' : Type _} (a : α) (f : ε → ε') :
    (Except.ok a : Except ε α).mapError f = .ok a := rfl

@[simp] theorem mapError_error {ε' : Type _} (e : ε) (f : ε → ε') :
    (Except.error e : Except ε α).mapError f = .error (f e) := rfl

theorem map_eq_ok {f : α → β} {x : Except ε α} {b : β} :
    Except.map f x = .ok b ↔ ∃ a, x = .ok a ∧ f a = b := by
  cases x <;> simp [Except.map]

/-- A guard whose alternative throws succeeds exactly when it holds and the rest succeeds. -/
@[simp] theorem ite_throw_eq_ok {p : Prop} [Decidable p] {x : Except ε α} {e : ε} {b : α} :
    (if p then x else throw e) = .ok b ↔ p ∧ x = .ok b := by
  by_cases hp : p <;> simp [hp]

end Except
