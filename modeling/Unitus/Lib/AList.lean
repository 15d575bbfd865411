import Mathlib

/-!
# Lib — association lists: weights, and folds that work key by key

`sumOf w s` adds a weight `w a b` over the entries of an association list.  Inserting at a key
replaces the weight of its old entry (`sumOf_insert`, `sumOf_erase_add`), and erasing a key that
is not there changes nothing (`sumOf_erase_of_lookup_eq_none`): a counter kept beside a map and
moved by the weights of what is written and removed stays the sum.  A key written and then erased
is as if only erased (`erase_insert_self`).

A fold over the entries of an association list whose step at `⟨a, b⟩` changes a state only at
the key `a` leaves every key's value one step from where it started, because the keys are
distinct: `foldlM_keywise` says so for a step that may fail, and that it fails nowhere when no
entry would make it fail against the first state; `foldl_keywise` is the step that never fails.
-/

namespace AList

variable {α : Type*} [DecidableEq α] {β : α → Type*}

/-! ### Weights -/

section SumOf

variable (w : (a : α) → β a → Nat)

/-- The sum of the weights `w a b` of the entries `⟨a, b⟩`. -/
def sumOf (s : AList β) : Nat := (s.entries.map fun x => w x.1 x.2).sum

omit [DecidableEq α] in
@[simp] theorem sumOf_empty : sumOf w (∅ : AList β) = 0 := rfl

theorem sumOf_insert (a : α) (b : β a) (s : AList β) :
    sumOf w (s.insert a b) = sumOf w (s.erase a) + w a b := by
  simp only [sumOf, entries_insert, List.map_cons, List.sum_cons]
  rw [Nat.add_comm]
  rfl

theorem sumOf_erase_add {a : α} {b : β a} {s : AList β} (h : s.lookup a = some b) :
    sumOf w (s.erase a) + w a b = sumOf w s := by
  have hmem : a ∈ s.entries.keys := mem_keys.mp (lookup_isSome.mp (by simp [h]))
  obtain ⟨b', l₁, l₂, hl₁, hs, herase⟩ := List.exists_of_kerase hmem
  -- the entry found is the one `lookup` returns, since `a` is not a key before it
  have hb : b' = b := by
    have hlook : s.entries.dlookup a = some b' := by
      rw [hs, List.dlookup_append, List.dlookup_eq_none.mpr hl₁, Option.none_or,
        List.dlookup_cons_eq]
    rw [← Option.some_inj, ← hlook]
    exact h
  subst hb
  have he : (s.erase a).entries = l₁ ++ l₂ := herase
  simp only [sumOf, he, hs, List.map_append, List.map_cons, List.sum_append, List.sum_cons]
  omega

theorem sumOf_erase_of_lookup_eq_none {a : α} {s : AList β} (h : s.lookup a = none) :
    sumOf w (s.erase a) = sumOf w s := by
  have he : (s.erase a).entries = s.entries :=
    List.kerase_of_notMem_keys fun hk => lookup_eq_none.mp h (mem_keys.mpr hk)
  simp only [sumOf, he]

end SumOf

/-- Writing a key and then erasing it leaves what erasing it leaves. -/
@[simp] theorem erase_insert_self (a : α) (b : β a) (s : AList β) :
    (s.insert a b).erase a = s.erase a :=
  ext (List.kerase_cons_eq rfl)

/-! ### Folds key by key -/

section Keywise

variable {ε σ : Type*} {γ : α → Type*} (get : σ → (a : α) → Option (γ a)) (P : σ → Prop)
  (bad : (a : α) → β a → Option (γ a) → Prop) (g : (a : α) → β a → Option (γ a) → Option (γ a))

/-- The value at `a` after a fold key by key over `l`: one step from `v` if `l` has an entry
for `a`, `v` itself otherwise. -/
def afterFold (l : List (Sigma β)) (a : α) (v : Option (γ a)) : Option (γ a) :=
  match l.dlookup a with
  | some b => g a b v
  | none => v

@[simp] theorem afterFold_nil (a : α) (v : Option (γ a)) : afterFold g [] a v = v := rfl

/-- **A fold key by key.**  A step that keeps `P` and, at `⟨a, b⟩`, fails only where `bad a b`
holds of the state's value at `a`, and otherwise takes that value to `g a b` of it and leaves
every other key's: over entries with distinct keys, none bad against the first state, the fold
does not fail, keeps `P`, and takes each key's value one step from the first state's. -/
theorem foldlM_keywise (step : σ → Sigma β → Except ε σ)
    (hstep : ∀ s x, P s → ¬ bad x.1 x.2 (get s x.1) →
      ∃ s', step s x = .ok s' ∧ P s' ∧ get s' x.1 = g x.1 x.2 (get s x.1) ∧
        ∀ a, a ≠ x.1 → get s' a = get s a) :
    ∀ (l : List (Sigma β)), l.NodupKeys → ∀ s, P s → (∀ x ∈ l, ¬ bad x.1 x.2 (get s x.1)) →
      ∃ s', l.foldlM step s = .ok s' ∧ P s' ∧ ∀ a, get s' a = afterFold g l a (get s a) := by
  intro l
  -- the entries are walked from the first one, with the state the fold has reached generalized
  induction l with
  | nil => exact fun _ s hs _ => ⟨s, rfl, hs, fun _ => rfl⟩
  | cons x l ih =>
    intro hnd s hs hgood
    obtain ⟨hx, hnd⟩ := List.nodupKeys_cons.mp hnd
    obtain ⟨s₁, hstep₁, hs₁, hget₁, hother₁⟩ := hstep s x hs (hgood x List.mem_cons_self)
    -- the other entries have other keys, where the first step changed nothing
    have hrest : ∀ y ∈ l, ¬ bad y.1 y.2 (get s₁ y.1) := by
      intro y hy
      have hne : y.1 ≠ x.1 := fun h => hx (h ▸ List.mem_keys_of_mem hy)
      rw [hother₁ y.1 hne]
      exact hgood y (List.mem_cons_of_mem x hy)
    obtain ⟨s', hfold, hs', hget'⟩ := ih hnd s₁ hs₁ hrest
    refine ⟨s', by rw [List.foldlM_cons, hstep₁]; exact hfold, hs', fun a => ?_⟩
    obtain ⟨a', b⟩ := x
    by_cases ha : a = a'
    · subst ha
      have hnone : l.dlookup a = none := List.dlookup_eq_none.mpr hx
      rw [hget', afterFold, hnone, hget₁, afterFold, List.dlookup_cons_eq]
    · rw [hget', hother₁ a ha, afterFold, afterFold, List.dlookup_cons_ne l _ ha]

omit [DecidableEq α] in
theorem foldlM_ok (f : σ → Sigma β → σ) :
    ∀ (l : List (Sigma β)) (s : σ),
      l.foldlM (fun s x => (.ok (f s x) : Except ε σ)) s = .ok (l.foldl f s)
  | [], _ => rfl
  | x :: l, s => by rw [List.foldlM_cons, List.foldl_cons]; exact foldlM_ok f l (f s x)

/-- `foldlM_keywise` for a step that never fails. -/
theorem foldl_keywise (f : σ → Sigma β → σ)
    (hstep : ∀ s x, P s → P (f s x) ∧ get (f s x) x.1 = g x.1 x.2 (get s x.1) ∧
      ∀ a, a ≠ x.1 → get (f s x) a = get s a)
    (l : List (Sigma β)) (hnd : l.NodupKeys) (s : σ) (hs : P s) :
    P (l.foldl f s) ∧ ∀ a, get (l.foldl f s) a = afterFold g l a (get s a) := by
  obtain ⟨s', hfold, hs', hget⟩ := foldlM_keywise get P (fun _ _ _ => False) g
    (fun s x => (.ok (f s x) : Except Empty σ)) (fun s x hs _ => ⟨f s x, rfl, hstep s x hs⟩) l
    hnd s hs (fun _ _ h => h)
  rw [foldlM_ok, Except.ok.injEq] at hfold
  subst hfold
  exact ⟨hs', hget⟩

end Keywise

end AList
