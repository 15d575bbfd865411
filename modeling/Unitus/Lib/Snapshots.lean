import Mathlib

/-!
# Lib — Snapshots: nested transactions over a map

A stack of versions of a map `α → β`, the innermost first and the committed store last, is what
a stack of write-back caches over a store is for.  A write changes the innermost version
(`write`); committing level `i` copies its version into the level below it (`commit`); a new
level starts as a copy of the innermost one (`begin`); closing the innermost level commits it
first (`close`), aborting it does not (`abort`).  Nothing else changes a version: in particular
what is read at a level is that level's version, whatever has been cached where.
-/

namespace Unitus.Snapshots

variable {α β : Type} [DecidableEq α]

/-- `f` applied at `a` to the innermost version. -/
def write (a : α) (f : β → β) : List (α → β) → List (α → β)
  | [] => []
  | m :: ms => Function.update m a (f (m a)) :: ms

/-- Level `i` committed: its version copied into level `i + 1`; nothing where there is no level
below it. -/
def commit : Nat → List (α → β) → List (α → β)
  | 0, m :: _ :: ms => m :: m :: ms
  | i + 1, m :: ms => m :: commit i ms
  | _, ms => ms

omit [DecidableEq α] in
@[simp] theorem commit_zero (m m' : α → β) (ms : List (α → β)) :
    commit 0 (m :: m' :: ms) = m :: m :: ms := rfl

omit [DecidableEq α] in
@[simp] theorem commit_succ (i : Nat) (m : α → β) (ms : List (α → β)) :
    commit (i + 1) (m :: ms) = m :: commit i ms := rfl

/-- A new innermost level, a copy of the innermost one. -/
def begin : List (α → β) → List (α → β)
  | [] => []
  | m :: ms => m :: m :: ms

/-- The innermost level committed and closed. -/
def close (ms : List (α → β)) : List (α → β) := (commit 0 ms).tail

/-- The innermost level dropped, its writes lost. -/
def abort (ms : List (α → β)) : List (α → β) := ms.tail

end Unitus.Snapshots
