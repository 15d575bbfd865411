import Mathlib

/-!
# Lib — rounding to a binary floating-point format

A binary format with `p`-bit significands holds the numbers `± m · 2^e` with `m < 2^p` and `e`
in its exponent range (`Binary`; `binary32` is IEEE 754's single format).  A function is
correctly rounded when each of its results is a number of the format nearest to the exact value
(`IsNearest`).  Nearest numbers are pinned down by comparisons alone: a nearest number is the
exact value when that is in the format (`IsNearest.eq_of_mem`), is not below a number of the
format below the exact value (`IsNearest.le_of_mem`), stays below a number `q` when the exact
value is nearer to a smaller number of the format (`IsNearest.lt_of_lt_midpoint`), and reaches
`q` when no number of the format lies just below it (`IsNearest.le_of_gap`).  Above `2^a` the
numbers of the format are multiples of `2^(a - p + 1)` (`Binary.exists_mul_of_le`), which gives
the gaps.

Integers convert to a `p`-bit format by `roundBits`: to nearest, ties to even.

The logarithms to base `2` that rounding is applied to are placed by two bounds from
`log x ≤ x - 1` (`logb_two_le`, `le_logb_two`).
-/

namespace Rounding

/-! ### Formats and nearest numbers -/

/-- The numbers `± m · 2^(emin + e)` with `m < 2^p` and `e < n`. -/
def Binary (p : Nat) (emin : Int) (n : Nat) : Set ℚ :=
  {y | ∃ m : ℕ, m < 2 ^ p ∧ ∃ e : ℕ, e < n ∧ (y = m * 2 ^ (emin + e) ∨ y = -(m * 2 ^ (emin + e)))}

/-- IEEE 754 binary32: `24`-bit significands, exponents from `-149` (the subnormals' unit) to
`104`. -/
def binary32 : Set ℚ := Binary 24 (-149) 254

theorem mem_Binary {p n : Nat} {emin : Int} {m e : Nat} (hm : m < 2 ^ p) (he : e < n) :
    (m : ℚ) * 2 ^ (emin + e) ∈ Binary p emin n :=
  ⟨m, hm, e, he, .inl rfl⟩

/-- A format has finitely many numbers: the images of its significands, exponents and signs. -/
theorem Binary.finite (p : Nat) (emin : Int) (n : Nat) : (Binary p emin n).Finite := by
  let f : (ℕ × ℕ) × Bool → ℚ := fun x =>
    if x.2 then x.1.1 * 2 ^ (emin + x.1.2) else -(x.1.1 * 2 ^ (emin + x.1.2))
  refine (((Set.finite_Iio (2 ^ p)).prod (Set.finite_Iio n)).prod Set.finite_univ |>.image f).subset ?_
  rintro y ⟨m, hm, e, he, rfl | rfl⟩
  · exact ⟨((m, e), true), ⟨⟨hm, he⟩, trivial⟩, rfl⟩
  · exact ⟨((m, e), false), ⟨⟨hm, he⟩, trivial⟩, rfl⟩

/-- Above `2^a`, the numbers of a format are multiples of `2^(a - p + 1)`. -/
theorem Binary.exists_mul_of_le {p n : Nat} {emin : Int} {y : ℚ} (hy : y ∈ Binary p emin n)
    {a : Int} (ha : (2 : ℚ) ^ a ≤ y) : ∃ k : ℤ, y = k * 2 ^ (a - p + 1) := by
  obtain ⟨m, hm, e, -, hy | hy⟩ := hy
  · subst hy
    -- `m < 2^p` puts the exponent at `a - p + 1` or above
    have hexp : a - p + 1 ≤ emin + e := by
      by_contra hlt
      have h1 : (m : ℚ) * 2 ^ (emin + (e : Int)) < 2 ^ (p : Int) * 2 ^ (a - p) := by
        calc (m : ℚ) * 2 ^ (emin + (e : Int))
            < 2 ^ (p : Int) * 2 ^ (emin + (e : Int)) := by
              rw [zpow_natCast]
              exact mul_lt_mul_of_pos_right (by exact_mod_cast hm) (zpow_pos two_pos _)
          _ ≤ 2 ^ (p : Int) * 2 ^ (a - p) := by
              gcongr
              · norm_num
              · omega
      rw [← zpow_add₀ two_ne_zero, show (p : Int) + (a - p) = a by ring] at h1
      linarith
    obtain ⟨d, hd⟩ : ∃ d : Nat, emin + e = a - p + 1 + d :=
      ⟨(emin + e - (a - p + 1)).toNat, by omega⟩
    refine ⟨m * 2 ^ d, ?_⟩
    rw [hd, zpow_add₀ two_ne_zero, zpow_natCast]
    push_cast
    ring
  · -- a negative number is below `2^a`
    have : (0 : ℚ) ≤ m * 2 ^ (emin + e) := by positivity
    have := zpow_pos (two_pos : (0 : ℚ) < 2) a
    linarith

/-- `r` is a number of `S` nearest to `x`. -/
def IsNearest (S : Set ℚ) (x : ℝ) (r : ℚ) : Prop :=
  r ∈ S ∧ ∀ y ∈ S, |(r : ℝ) - x| ≤ |(y : ℝ) - x|

/-- A finite set has a nearest number to every real. -/
theorem exists_isNearest {S : Set ℚ} (hS : S.Finite) (hne : S.Nonempty) (x : ℝ) :
    ∃ r, IsNearest S x r := by
  obtain ⟨r, hr, hmin⟩ :=
    hS.toFinset.exists_min_image (fun y : ℚ => |(y : ℝ) - x|) (hS.toFinset_nonempty.mpr hne)
  exact ⟨r, hS.mem_toFinset.mp hr, fun y hy => hmin y (hS.mem_toFinset.mpr hy)⟩

section IsNearest

variable {S : Set ℚ} {x : ℝ} {r q : ℚ}

/-- A number of the format is its own nearest number. -/
theorem IsNearest.eq_of_mem (h : IsNearest S (q : ℝ) r) (hq : q ∈ S) : r = q := by
  have := h.2 q hq
  rw [sub_self, abs_zero] at this
  exact_mod_cast sub_eq_zero.mp (abs_nonpos_iff.mp this)

/-- The nearest number is not below a number of the format below `x`. -/
theorem IsNearest.le_of_mem (h : IsNearest S x r) (hq : q ∈ S) (hqx : (q : ℝ) ≤ x) : q ≤ r := by
  by_contra hlt
  have hrq : (r : ℝ) < q := by exact_mod_cast not_le.mp hlt
  have := h.2 q hq
  rw [abs_of_nonpos (by linarith), abs_of_nonpos (by linarith)] at this
  linarith

/-- The nearest number stays below `q` when `x` is nearer to a smaller number `y`. -/
theorem IsNearest.lt_of_lt_midpoint (h : IsNearest S x r) {y : ℚ} (hy : y ∈ S) (hyq : y < q)
    (hx : x < ((y : ℝ) + q) / 2) : r < q := by
  by_contra hle
  have hqr : (q : ℝ) ≤ r := by exact_mod_cast not_lt.mp hle
  have hyq' : (y : ℝ) < q := by exact_mod_cast hyq
  have := h.2 y hy
  rw [abs_of_nonneg (by linarith)] at this
  rcases le_or_gt (y : ℝ) x with hyx | hyx
  · rw [abs_of_nonpos (by linarith)] at this
    linarith
  · rw [abs_of_pos (by linarith)] at this
    linarith

/-- The nearest number reaches `q` when the numbers of the format below `q` lie `d` or more
below it and `x` is within `d / 2` of `q`. -/
theorem IsNearest.le_of_gap (h : IsNearest S x r) (hq : q ∈ S) {d : ℚ}
    (hgap : ∀ y ∈ S, y < q → y ≤ q - d) (hx : (q : ℝ) - d / 2 < x) : q ≤ r := by
  rcases le_or_gt (q : ℝ) x with hqx | hxq
  · exact h.le_of_mem hq hqx
  · by_contra hlt
    have hrq := not_le.mp hlt
    have hr : (r : ℝ) ≤ q - d := by exact_mod_cast hgap r h.1 hrq
    have := h.2 q hq
    rw [abs_of_neg (by linarith), abs_of_pos (by linarith)] at this
    linarith

end IsNearest

/-! ### Converting integers -/

/-- An integer rounded to `p` significant bits, to nearest, ties to even. -/
def roundBits (p n : Nat) : Nat :=
  if n < 2 ^ p then n
  else
    let s := n.log2 + 1 - p
    let q := n / 2 ^ s
    let r := n % 2 ^ s
    -- round up past the half, and at the half to an even significand
    if r > 2 ^ s / 2 ∨ (r = 2 ^ s / 2 ∧ q % 2 = 1) then (q + 1) * 2 ^ s else q * 2 ^ s

theorem roundBits_of_lt {p n : Nat} (h : n < 2 ^ p) : roundBits p n = n := if_pos h

/-! ### Logarithms to base `2` -/

/-- From above: `log (x / 2^m) ≤ x / 2^m - 1`. -/
theorem logb_two_le (m : Nat) {x : ℝ} (hx : 0 < x) :
    Real.logb 2 x ≤ m - (2 ^ m - x) / (2 ^ m * Real.log 2) := by
  have hl := Real.log_pos one_lt_two
  have hm : (0 : ℝ) < 2 ^ m := by positivity
  have hlog := Real.log_le_sub_one_of_pos (div_pos hx hm)
  rw [Real.log_div hx.ne' hm.ne', Real.log_pow] at hlog
  have hrhs : ((m : ℝ) - (2 ^ m - x) / (2 ^ m * Real.log 2)) * Real.log 2 =
      m * Real.log 2 + (x / 2 ^ m - 1) := by
    field_simp
    ring
  rw [Real.logb, div_le_iff₀ hl, hrhs]
  linarith

/-- From below: `log (x / 2^m) ≥ 1 - 2^m / x`. -/
theorem le_logb_two (m : Nat) {x : ℝ} (hx : 0 < x) :
    m - (2 ^ m - x) / (x * Real.log 2) ≤ Real.logb 2 x := by
  have hl := Real.log_pos one_lt_two
  have hm : (0 : ℝ) < 2 ^ m := by positivity
  have hlog := Real.log_le_sub_one_of_pos (div_pos hm hx)
  rw [Real.log_div hm.ne' hx.ne', Real.log_pow] at hlog
  have hlhs : ((m : ℝ) - (2 ^ m - x) / (x * Real.log 2)) * Real.log 2 =
      m * Real.log 2 - (2 ^ m / x - 1) := by
    field_simp
  rw [Real.logb, le_div_iff₀ hl, hlhs]
  linarith

end Rounding
