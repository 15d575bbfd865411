import Mathlib.Data.List.Basic
import Unitus.Lib.Except

/-!
# Lib — Codec

Readers of a stream of tokens that throw on malformed input, as `StateT (List σ) (Except ε)`,
and the round trip of a reader against a writer: from what the writer wrote for a well-formed
value, followed by anything, the reader returns that value and leaves what followed.  Round trips
compose along `bind` (`RoundTrip.run_bind`), over `n` values read one after another
(`RoundTrip.run_readN`), and for a block of `n` tokens read at once (`run_readTokens`).  A reader
is `Canonical` for a writer when everything it accepts is what the writer writes; the inversion
lemmas `run_bind_eq_ok`, `eq_of_run_readToken` and `eq_of_run_readTokens` read that off a reader
step by step.  A fixed template, a header, a body of `n` tokens and a trailer, is rebuilt from
its tokens by `eq_frame_of_getD`.
-/

namespace Codec

variable {ε σ α β : Type}

/-- A reader: from the tokens left, the value read and the tokens after it, or an error. -/
abbrev Reader (ε σ α : Type) := StateT (List σ) (Except ε) α

/-- One token, or `e` at the end of the stream. -/
def readToken (e : ε) : Reader ε σ σ := fun s =>
  match s with
  | [] => .error e
  | x :: xs => .ok (x, xs)

/-- A block of `n` tokens at once, or `e` if fewer are left. -/
def readTokens (e : ε) (n : Nat) : Reader ε σ {l : List σ // l.length = n} := fun s =>
  if h : n ≤ s.length then .ok (⟨s.take n, by simp [h]⟩, s.drop n) else .error e

/-- `n` values read one after another. -/
def readN (rd : Reader ε σ α) : Nat → Reader ε σ (List α)
  | 0 => pure []
  | n + 1 => do
    let a ← rd
    let as ← readN rd n
    pure (a :: as)

/-- `rd` reads back what `ser` writes for the values that `P` admits. -/
def RoundTrip (P : α → Prop) (ser : α → List σ) (rd : Reader ε σ α) : Prop :=
  ∀ a rest, P a → rd.run (ser a ++ rest) = .ok (a, rest)

/-- `rd` accepts nothing but what `ser` writes: a stream that `rd` reads `a` from begins with
`ser a`, and `rd` leaves what follows it. -/
def Canonical (ser : α → List σ) (rd : Reader ε σ α) : Prop :=
  ∀ s a rest, rd.run s = .ok (a, rest) → s = ser a ++ rest

/-- A `bind` that returns ran its two readers one after the other. -/
theorem run_bind_eq_ok {x : Reader ε σ α} {f : α → Reader ε σ β} {s rest : List σ} {b : β} :
    (x >>= f).run s = .ok (b, rest) ↔
      ∃ a s', x.run s = .ok (a, s') ∧ (f a).run s' = .ok (b, rest) := by
  rw [StateT.run_bind]
  cases x.run s with
  | error e => simp
  | ok p =>
    obtain ⟨a, s'⟩ := p
    simp [StateT.run]

/-- A reader that returns goes on with the rest of the stream. -/
theorem run_bind_of_ok {x : Reader ε σ α} {f : α → Reader ε σ β} {s s' : List σ} {a : α}
    (h : x.run s = .ok (a, s')) : (x >>= f).run s = (f a).run s' := by
  rw [StateT.run_bind, h]
  rfl

/-- A reader that throws ends the read. -/
theorem run_bind_of_error {x : Reader ε σ α} {f : α → Reader ε σ β} {s : List σ} {e : ε}
    (h : x.run s = .error e) : (x >>= f).run s = .error e := by
  rw [StateT.run_bind, h]
  rfl

@[simp] theorem run_pure (a : α) (s : List σ) :
    (pure a : Reader ε σ α).run s = .ok (a, s) := rfl

theorem run_pure_bind (a : α) (f : α → Reader ε σ β) (s : List σ) :
    (pure a >>= f).run s = (f a).run s := rfl

@[simp] theorem run_throw (e : ε) (s : List σ) : (throw e : Reader ε σ α).run s = .error e := rfl

theorem run_throw_bind (e : ε) (f : α → Reader ε σ β) (s : List σ) :
    ((throw e : Reader ε σ α) >>= f).run s = .error e := rfl

theorem eq_of_run_pure {a b : α} {s rest : List σ}
    (h : (pure a : Reader ε σ α).run s = .ok (b, rest)) : b = a ∧ rest = s := by
  cases h
  exact ⟨rfl, rfl⟩

theorem RoundTrip.run_bind {P : α → Prop} {ser : α → List σ} {rd : Reader ε σ α}
    (h : RoundTrip P ser rd) {a : α} (ha : P a) (f : α → Reader ε σ β) (rest : List σ) :
    (rd >>= f).run (ser a ++ rest) = (f a).run rest :=
  run_bind_of_ok (h a rest ha)

theorem roundTrip_readToken (e : ε) : RoundTrip (fun _ => True) (fun x => [x]) (readToken (σ := σ) e) :=
  fun _ _ _ => rfl

@[simp] theorem run_readToken_cons (e : ε) (x : σ) (xs : List σ) :
    (readToken e).run (x :: xs) = .ok (x, xs) := rfl

theorem eq_of_run_readToken {e : ε} {s rest : List σ} {x : σ}
    (h : (readToken e).run s = .ok (x, rest)) : s = x :: rest := by
  cases s with
  | nil => cases h
  | cons y ys =>
    cases h
    rfl

theorem eq_of_run_readTokens {e : ε} {n : Nat} {s rest : List σ}
    {l : {l : List σ // l.length = n}} (h : (readTokens e n).run s = .ok (l, rest)) :
    s = l.1 ++ rest := by
  simp only [readTokens, StateT.run] at h
  split at h
  · cases h
    exact (List.take_append_drop n s).symm
  · cases h

/-- A block of `n` tokens reads back as written. -/
theorem run_readTokens (e : ε) {n : Nat} (l rest : List σ) (hl : l.length = n) :
    (readTokens e n).run (l ++ rest) = .ok (⟨l, hl⟩, rest) := by
  subst hl
  simp [readTokens, StateT.run]

/-- **Reading `n` values** back, one after another, each as `g` of what `ser` wrote. -/
theorem run_readN_map {P : α → Prop} {ser : α → List σ} {rd : Reader ε σ β} {g : α → β}
    (h : ∀ a rest, P a → rd.run (ser a ++ rest) = .ok (g a, rest)) :
    ∀ (l : List α) (rest : List σ), (∀ a ∈ l, P a) →
      (readN rd l.length).run (l.flatMap ser ++ rest) = .ok (l.map g, rest)
  | [], rest, _ => rfl
  | a :: l, rest, hl => by
    rw [List.length_cons, readN, List.flatMap_cons, List.append_assoc,
      run_bind_of_ok (h a _ (hl a List.mem_cons_self))]
    rw [run_bind_of_ok (run_readN_map h l rest fun b hb => hl b (List.mem_cons_of_mem a hb))]
    rfl

/-- Reading `n` values back, one after another, each as `ser` wrote it. -/
theorem RoundTrip.run_readN {P : α → Prop} {ser : α → List σ} {rd : Reader ε σ α}
    (h : RoundTrip P ser rd) (l : List α) (rest : List σ) (hl : ∀ a ∈ l, P a) :
    (readN rd l.length).run (l.flatMap ser ++ rest) = .ok (l, rest) := by
  rw [run_readN_map (g := id) h l rest hl, List.map_id]

/-- A list that agrees with `hd` at its start and with `tl` at its end, with `n` items
between, is `hd`, those `n` items, and `tl`: the shape a fixed template is checked for. -/
theorem eq_frame_of_getD {l hd tl : List α} {n : Nat} {d : α}
    (hlen : l.length = hd.length + n + tl.length)
    (hhd : ∀ i < hd.length, l.getD i d = hd.getD i d)
    (htl : ∀ i < tl.length, l.getD (hd.length + n + i) d = tl.getD i d) :
    l = hd ++ (l.drop hd.length).take n ++ tl := by
  have hhd' : l.take hd.length = hd := by
    refine List.ext_getElem (by simp; omega) fun i h₁ h₂ => ?_
    have hi : i < l.length := by omega
    have := hhd i h₂
    simp only [List.getD_eq_getElem?_getD, List.getElem?_eq_getElem hi,
      List.getElem?_eq_getElem h₂, Option.getD_some] at this
    simpa using this
  have htl' : l.drop (hd.length + n) = tl := by
    refine List.ext_getElem (by simp; omega) fun i h₁ h₂ => ?_
    have hi : hd.length + n + i < l.length := by omega
    have := htl i h₂
    simp only [List.getD_eq_getElem?_getD, List.getElem?_eq_getElem hi,
      List.getElem?_eq_getElem h₂, Option.getD_some] at this
    simpa using this
  calc l = l.take hd.length ++ l.drop hd.length := (List.take_append_drop _ _).symm
    _ = l.take hd.length ++ ((l.drop hd.length).take n ++ l.drop (hd.length + n)) := by
      rw [← List.drop_drop, List.take_append_drop n (l.drop hd.length)]
    _ = hd ++ (l.drop hd.length).take n ++ tl := by rw [hhd', htl', List.append_assoc]

end Codec
