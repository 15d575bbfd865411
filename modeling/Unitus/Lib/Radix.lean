import Mathlib

/-!
# Lib — numerals in a fixed base, most significant digit first

`bigEndian b l` reads the digits `l` with the first one the most significant: Mathlib's
`Nat.ofDigits` of the reversed list.  A digit written at the end multiplies by the base and adds
(`bigEndian_append_singleton`); digits below the base stay below `b ^ length` (`bigEndian_lt`);
zeros in front change nothing (`bigEndian_replicate_zero_append`); and with its leading zeros
dropped a numeral is the base's canonical digits of its value (`digits_bigEndian`), which do not
start with a zero (`head?_reverse_digits_ne`).

A buffer of `k * N / D + 1` digits in base `a` holds every number below `b ^ k` as soon as
`b ^ q ≤ a ^ p` for a fraction `p / q` at most `N / D` and the `q` smallest `k` are checked
(`pow_lt_pow_mul_div_add_one`): a conversion between bases that allocates `len * N / D + 1`
digits for `len` digits of the other base is shown never to run out of room this way, from one
inequality between powers and a finite check.
-/

namespace Nat

/-- The value of the digits `l` in base `b`, the first digit the most significant. -/
def bigEndian (b : Nat) (l : List Nat) : Nat := Nat.ofDigits b l.reverse

section BigEndian

variable {b : Nat}

@[simp] theorem bigEndian_nil : bigEndian b [] = 0 := rfl

@[simp] theorem bigEndian_append_singleton (l : List Nat) (x : Nat) :
    bigEndian b (l ++ [x]) = b * bigEndian b l + x := by
  rw [bigEndian, List.reverse_append, List.reverse_singleton, List.singleton_append,
    Nat.ofDigits_cons, bigEndian]
  ring

theorem bigEndian_append (l m : List Nat) :
    bigEndian b (l ++ m) = bigEndian b l * b ^ m.length + bigEndian b m := by
  rw [bigEndian, List.reverse_append, Nat.ofDigits_append, List.length_reverse, bigEndian,
    bigEndian]
  ring

@[simp] theorem bigEndian_replicate_zero_append (n : Nat) (l : List Nat) :
    bigEndian b (List.replicate n 0 ++ l) = bigEndian b l := by
  rw [bigEndian_append, bigEndian, List.reverse_replicate, Nat.ofDigits_replicate_zero]
  simp

theorem bigEndian_lt (hb : 1 < b) {l : List Nat} (hl : ∀ x ∈ l, x < b) :
    bigEndian b l < b ^ l.length := by
  rw [bigEndian, ← List.length_reverse]
  exact Nat.ofDigits_lt_base_pow_length hb (fun x hx => hl x (List.mem_reverse.mp hx))

/-- The canonical digits, most significant first, are a numeral of their number. -/
@[simp] theorem bigEndian_reverse_digits (n : Nat) : bigEndian b (Nat.digits b n).reverse = n := by
  rw [bigEndian, List.reverse_reverse, Nat.ofDigits_digits]

/-- Dropping a numeral's leading zeros leaves the canonical digits of its value, most
significant first. -/
theorem digits_bigEndian (hb : 1 < b) :
    ∀ {l : List Nat}, (∀ x ∈ l, x < b) →
      (Nat.digits b (bigEndian b l)).reverse = l.dropWhile (· == 0)
  | [], _ => by simp
  | x :: l, hl => by
    by_cases hx : x = 0
    · subst hx
      have h := bigEndian_replicate_zero_append (b := b) 1 l
      rw [List.replicate_one, List.singleton_append] at h
      rw [h, digits_bigEndian hb (fun y hy => hl y (List.mem_cons_of_mem 0 hy))]
      simp
    · have hlast : ∀ (h : l.reverse ++ [x] ≠ []), (l.reverse ++ [x]).getLast h ≠ 0 := by
        intro h
        rwa [List.getLast_append_of_ne_nil _ (List.cons_ne_nil x []), List.getLast_singleton]
      have hdig := Nat.digits_ofDigits b hb (l.reverse ++ [x])
        (fun y hy => hl y (by simpa [or_comm] using hy)) hlast
      rw [bigEndian, List.reverse_cons, hdig, List.reverse_append, List.reverse_reverse]
      simp [hx]

/-- The canonical digits, most significant first, do not start with a zero. -/
theorem head?_reverse_digits_ne (b V : Nat) : (Nat.digits b V).reverse.head? ≠ some 0 := by
  rw [List.head?_reverse]
  by_cases hV : V = 0
  · simp [hV]
  · rw [List.getLast?_eq_some_getLast (Nat.digits_ne_nil_iff_ne_zero.mpr hV), Ne, Option.some_inj]
    exact Nat.getLast_digit_ne_zero b hV

end BigEndian

/-- **Room for a conversion.**  If `b ^ q ≤ a ^ p` with `p / q ≤ N / D`, and the numbers below
`b ^ r` fit in `r * N / D + 1` digits of base `a` for the `q` smallest `r`, they do for every
`r`: a step of `q` digits of base `b` needs `p` digits of base `a`, and the allocation grows by
at least `p` over it. -/
theorem pow_lt_pow_mul_div_add_one {a b N D p q : Nat} (ha : 0 < a) (hD : 0 < D)
    (hq : 0 < q) (hpow : b ^ q ≤ a ^ p) (hratio : p * D ≤ q * N)
    (hsmall : ∀ r < q, b ^ r < a ^ (r * N / D + 1)) : ∀ k, b ^ k < a ^ (k * N / D + 1) := by
  intro k
  induction k using Nat.strong_induction_on with
  | _ k ih =>
    by_cases hk : k < q
    · exact hsmall k hk
    obtain ⟨j, rfl⟩ : ∃ j, k = j + q := ⟨k - q, by omega⟩
    -- the allocation for `j + q` digits is at least `p` more than for `j`
    have hgrow : j * N / D + p ≤ (j + q) * N / D :=
      calc j * N / D + p = (j * N + p * D) / D := (Nat.add_mul_div_right _ _ hD).symm
        _ ≤ (j + q) * N / D := Nat.div_le_div_right (by nlinarith)
    calc b ^ (j + q) = b ^ j * b ^ q := Nat.pow_add b j q
      _ < a ^ (j * N / D + 1) * a ^ p :=
        Nat.mul_lt_mul_of_lt_of_le (ih j (by omega)) hpow (Nat.pow_pos ha)
      _ = a ^ (j * N / D + p + 1) := by rw [← Nat.pow_add]; ring_nf
      _ ≤ a ^ ((j + q) * N / D + 1) := Nat.pow_le_pow_right ha (by omega)

end Nat
