import Mathlib.Logic.Basic

/-!
# Lib — Simulation

Runs of a deterministic step function over a list of operations, and forward simulation of an
abstract step function by a concrete one: when one step keeps an invariant and commutes with an
abstraction function, both hold along every run whose operations are each enabled at the abstract
state they meet.  An operation is enabled by a predicate on the abstract state, so that the
preconditions of the abstract operations and any room the concrete machine needs are stated in the
abstract terms.
-/

namespace Unitus.Simulation

variable {σ α ω : Type}

/-- The state after applying the operations `ops`, first to last. -/
def run (step : ω → σ → σ) : List ω → σ → σ
  | [], s => s
  | o :: os, s => run step os (step o s)

@[simp] theorem run_nil (step : ω → σ → σ) (s : σ) : run step [] s = s := rfl

@[simp] theorem run_cons (step : ω → σ → σ) (o : ω) (os : List ω) (s : σ) :
    run step (o :: os) s = run step os (step o s) := rfl

/-- Each operation of `ops` satisfies `ok` at the state the run has reached before it. -/
def Enabled (step : ω → σ → σ) (ok : ω → σ → Prop) : List ω → σ → Prop
  | [], _ => True
  | o :: os, s => ok o s ∧ Enabled step ok os (step o s)

/-- Whether a run is enabled is computed along the run. -/
instance Enabled.decidable (step : ω → σ → σ) (ok : ω → σ → Prop) [∀ o s, Decidable (ok o s)] :
    (ops : List ω) → (s : σ) → Decidable (Enabled step ok ops s)
  | [], _ => isTrue trivial
  | o :: os, s =>
    have := Enabled.decidable step ok os (step o s)
    inferInstanceAs (Decidable (ok o s ∧ Enabled step ok os (step o s)))

section Simulates

variable {step : ω → σ → σ} {astep : ω → α → α} {abs : σ → α} {I : σ → Prop}
  {ok : ω → α → Prop}

/-- **Forward simulation.**  A step that keeps `I` and is simulated by `astep` through `abs`
whenever the operation is enabled keeps `I`, and is simulated, along every enabled run. -/
theorem run_simulates
    (hstep : ∀ o s, I s → ok o (abs s) → I (step o s) ∧ abs (step o s) = astep o (abs s)) :
    ∀ (ops : List ω) (s : σ), I s → Enabled astep ok ops (abs s) →
      I (run step ops s) ∧ abs (run step ops s) = run astep ops (abs s) := by
  intro ops
  -- the run is walked from its first operation, with the state it starts from generalized
  induction ops with
  | nil => exact fun s hs _ => ⟨hs, rfl⟩
  | cons o os ih =>
    rintro s hs ⟨hok, hrest⟩
    obtain ⟨hs', habs⟩ := hstep o s hs hok
    rw [run_cons, run_cons, ← habs]
    exact ih (step o s) hs' (habs ▸ hrest)

end Simulates

section Fallible

variable {ε : Type}

/-- The state after applying the operations `ops` with a step that may fail: the first failure,
or the last state. -/
def runM (step : ω → σ → Except ε σ) : List ω → σ → Except ε σ
  | [], s => .ok s
  | o :: os, s => (step o s).bind (runM step os)

variable {step : ω → σ → Except ε σ} {astep : ω → α → α} {abs : σ → α} {I : σ → Prop}
  {ok : ω → α → Prop}

/-- **Forward simulation by a step that may fail.**  A step that succeeds from a state of `I` on
an enabled operation, keeps `I` and is simulated by `astep` through `abs`, does all that along
every enabled run: such a run never fails. -/
theorem runM_simulates
    (hstep : ∀ o s, I s → ok o (abs s) →
      ∃ s', step o s = .ok s' ∧ I s' ∧ abs s' = astep o (abs s)) :
    ∀ (ops : List ω) (s : σ), I s → Enabled astep ok ops (abs s) →
      ∃ s', runM step ops s = .ok s' ∧ I s' ∧ abs s' = run astep ops (abs s) := by
  intro ops
  -- as for `run_simulates`, the run is walked from its first operation
  induction ops with
  | nil => exact fun s hs _ => ⟨s, rfl, hs, rfl⟩
  | cons o os ih =>
    rintro s hs ⟨hok, hrest⟩
    obtain ⟨s₁, hstep₁, hs₁, habs₁⟩ := hstep o s hs hok
    obtain ⟨s', hrun, hs', habs'⟩ := ih s₁ hs₁ (habs₁ ▸ hrest)
    refine ⟨s', ?_, hs', ?_⟩
    · rw [runM, hstep₁]
      exact hrun
    · rw [run_cons, ← habs₁]
      exact habs'

end Fallible

end Unitus.Simulation
