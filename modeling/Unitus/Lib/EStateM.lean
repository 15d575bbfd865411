import Mathlib

/-!
# Lib — refinement of `EStateM` programs

A program in `EStateM ε σ` either returns a value or throws, and in both cases leaves a state.
`Refines x y` says that whenever `x` returns, `y` returns the same value in the same state: `y`
may fail less often, and otherwise behaves as `x`.  A program that is another one with more
error exits refines it (`Refines.guard`, `Refines.guard_left`), and refinement is kept by the
constructs programs are built from (`Refines.bind`, `Refines.ite`).

A Hoare triple of `Std.Do` on such a program is read back as a fact about its runs
(`of_triple_ok`, `of_triple_error`).
-/

namespace EStateM

variable {ε σ α β : Type}

/-- The state a run leaves, whether it returns or throws. -/
def Result.state : Result ε σ α → σ
  | .ok _ s => s
  | .error _ s => s

@[simp] theorem Result.state_ok (a : α) (s : σ) : (Result.ok a s : Result ε σ α).state = s := rfl

@[simp] theorem Result.state_error (e : ε) (s : σ) :
    (Result.error e s : Result ε σ α).state = s := rfl

/-- A thrown error ends the program. -/
@[simp] theorem throw_bind (e : ε) (f : α → EStateM ε σ β) :
    (throw e >>= f : EStateM ε σ β) = throw e := rfl

/-! ### Refinement -/

/-- `x` refines `y`: from every state where `x` returns, `y` returns the same value and
state. -/
def Refines (x y : EStateM ε σ α) : Prop :=
  ∀ s a s', x.run s = .ok a s' → y.run s = .ok a s'

namespace Refines

theorem refl (x : EStateM ε σ α) : Refines x x := fun _ _ _ h => h

theorem trans {x y z : EStateM ε σ α} (hxy : Refines x y) (hyz : Refines y z) : Refines x z :=
  fun s a s' h => hyz s a s' (hxy s a s' h)

/-- Refinement composes along a bind. -/
theorem bind {x y : EStateM ε σ α} {f g : α → EStateM ε σ β} (hxy : Refines x y)
    (hfg : ∀ a, Refines (f a) (g a)) : Refines (x >>= f) (y >>= g) := by
  intro s b s' h
  rw [run_bind] at h ⊢
  cases hx : x.run s with
  | ok a s₁ =>
    rw [hx] at h
    rw [hxy s a s₁ hx]
    exact hfg a s₁ b s' h
  | error e s₁ =>
    rw [hx] at h
    cases h

/-- A program that throws refines any. -/
theorem throw_left (e : ε) (y : EStateM ε σ α) : Refines (throw e) y := by
  intro s a s' h
  cases h

/-- Refinement of both branches of one condition. -/
theorem ite {c : Prop} [Decidable c] {x x' y y' : EStateM ε σ α} (h₁ : c → Refines x y)
    (h₂ : ¬c → Refines x' y') : Refines (if c then x else x') (if c then y else y') := by
  by_cases hc : c
  · rw [if_pos hc, if_pos hc]
    exact h₁ hc
  · rw [if_neg hc, if_neg hc]
    exact h₂ hc

/-- An error exit taken on more states refines one taken on fewer. -/
theorem guard {p q : Prop} [Decidable p] [Decidable q] (hqp : q → p) (e e' : ε)
    {x y : EStateM ε σ α} (hxy : Refines x y) :
    Refines (if p then throw e else x) (if q then throw e' else y) := by
  by_cases hp : p
  · rw [if_pos hp]
    exact throw_left e _
  · rw [if_neg hp, if_neg (mt hqp hp)]
    exact hxy

/-- An error exit that the other program lacks. -/
theorem guard_left {p : Prop} [Decidable p] (e : ε) {x y : EStateM ε σ α} (hxy : Refines x y) :
    Refines (if p then throw e else x) y := by
  by_cases hp : p
  · rw [if_pos hp]
    exact throw_left e _
  · rw [if_neg hp]
    exact hxy

/-- A branch taken on more states refines the other branch, where it refines it. -/
theorem ite_of_imp {p q : Prop} [Decidable p] [Decidable q] (hqp : q → p) {x y : EStateM ε σ α}
    (hxy : Refines x y) : Refines (if p then x else y) (if q then x else y) := by
  by_cases hq : q
  · rw [if_pos (hqp hq), if_pos hq]
    exact refl x
  · rw [if_neg hq]
    by_cases hp : p
    · rw [if_pos hp]
      exact hxy
    · rw [if_neg hp]
      exact refl y

end Refines

/-! ### Refinement as to success

Where two programs may return different values, and leave different states, what is left to
compare is whether they return at all. -/

/-- `x` refines `y` as to success: from every state where `x` returns, `y` returns too. -/
def RefinesSuccess {β : Type} (x : EStateM ε σ α) (y : EStateM ε σ β) : Prop :=
  ∀ s a s', x.run s = .ok a s' → ∃ b s'', y.run s = .ok b s''

namespace RefinesSuccess

variable {γ : Type}

theorem of_refines {x y : EStateM ε σ α} (h : Refines x y) : RefinesSuccess x y :=
  fun s a s' hx => ⟨a, s', h s a s' hx⟩

/-- A program that always returns is refined by any. -/
theorem pure_right (x : EStateM ε σ α) (b : β) : RefinesSuccess x (pure b : EStateM ε σ β) :=
  fun s _ _ _ => ⟨b, s, rfl⟩

/-- A refinement, then refinements as to success from each value. -/
theorem bind {x y : EStateM ε σ α} {f : α → EStateM ε σ β} {g : α → EStateM ε σ γ}
    (hxy : Refines x y) (hfg : ∀ a, RefinesSuccess (f a) (g a)) :
    RefinesSuccess (x >>= f) (y >>= g) := by
  intro s b s' h
  rw [run_bind] at h ⊢
  cases hx : x.run s with
  | ok a s₁ =>
    rw [hx] at h
    rw [hxy s a s₁ hx]
    exact hfg a s₁ b s' h
  | error e s₁ =>
    rw [hx] at h
    cases h

/-- Refinement as to success, then a second program that always returns. -/
theorem bind_returns {δ : Type} {x : EStateM ε σ α} {y : EStateM ε σ β}
    {f : α → EStateM ε σ γ} {g : β → EStateM ε σ δ} (hxy : RefinesSuccess x y)
    (hg : ∀ b s, ∃ c s', (g b).run s = .ok c s') : RefinesSuccess (x >>= f) (y >>= g) := by
  intro s c s' h
  rw [run_bind] at h
  cases hx : x.run s with
  | ok a s₁ =>
    obtain ⟨b, s₂, hy⟩ := hxy s a s₁ hx
    obtain ⟨d, s₃, hgb⟩ := hg b s₂
    refine ⟨d, s₃, ?_⟩
    rw [run_bind, hy]
    exact hgb
  | error e s₁ =>
    rw [hx] at h
    cases h

theorem ite {c : Prop} [Decidable c] {x x' : EStateM ε σ α} {y y' : EStateM ε σ β}
    (h₁ : c → RefinesSuccess x y) (h₂ : ¬c → RefinesSuccess x' y') :
    RefinesSuccess (if c then x else x') (if c then y else y') := by
  by_cases hc : c
  · rw [if_pos hc, if_pos hc]
    exact h₁ hc
  · rw [if_neg hc, if_neg hc]
    exact h₂ hc

end RefinesSuccess

/-! ### Hoare triples

A triple `⦃P⦄ x ⦃post⟨Q, E⟩⦄` of `Std.Do`, over pure assertions on the state, read back as a
fact about `x.run`: from a state where `P` holds, a run that returns ends in `Q` and one that
throws ends in `E`.  The triples are proved with `mvcgen`; the runs are what the inductions over
a loop's fuel take apart. -/

section Triple

open Std.Do

variable {P : σ → Prop} {Q : α → σ → Prop} {E : ε → σ → Prop} {x : EStateM ε σ α}

theorem of_triple (h : ⦃fun s => ⌜P s⌝⦄ x ⦃post⟨fun a s => ⌜Q a s⌝, fun e s => ⌜E e s⌝⟩⦄)
    {s : σ} (hs : P s) :
    match x.run s with
    | .ok a s' => Q a s'
    | .error e s' => E e s' := by
  have hwp := h s hs
  simp only [WP.wp, PredTrans.apply] at hwp
  cases hx : x.run s <;> simp_all [run]

theorem of_triple_ok (h : ⦃fun s => ⌜P s⌝⦄ x ⦃post⟨fun a s => ⌜Q a s⌝, fun e s => ⌜E e s⌝⟩⦄)
    {s s' : σ} {a : α} (hs : P s) (hx : x.run s = .ok a s') : Q a s' := by
  have := of_triple h hs
  rwa [hx] at this

theorem of_triple_error
    (h : ⦃fun s => ⌜P s⌝⦄ x ⦃post⟨fun a s => ⌜Q a s⌝, fun e s => ⌜E e s⌝⟩⦄)
    {s s' : σ} {e : ε} (hs : P s) (hx : x.run s = .error e s') : E e s' := by
  have := of_triple h hs
  rwa [hx] at this

end Triple

end EStateM
