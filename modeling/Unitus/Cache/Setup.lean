import Unitus.Cache.CuckooCache
import Unitus.Lib.Except

/-!
# Cache — the table size `setup` picks

`setup(n)` takes `depth_limit` from `std::log2((float)max(2, n))`, truncated, and sets
`size = 1 << depth_limit`.  With `std::log2` correctly rounded (`CorrectlyRounded`; such a
function exists, `nearestLog2`), the exact logarithm of `x = max(2, n)` lies in `[k, k + 1)` for
`k = ⌊log₂ x⌋`, and it rounds below `k + 1` unless it is within `2^-20` of `k + 1`, half the gap
between the `binary32` numbers there (`CorrectlyRounded.mem_Ico`).  The results:

* `setup_size`: for every `n < 2^21 - 1`, `size` is the largest power of two not above
  `max(2, n)`, with `hash_mask = size - 1` and `depth_limit = log₂ size`, as documented;
* `setup_two_pow_21_sub_one`: at `n = 2^21 - 1`, whose logarithm is within `2^-20` of `21`,
  the logarithm rounds up to `21` and `size = 2^21 > n`;
* **`setup_shift_by_32`**: at `n = 2^32 - 1` already the conversion to `float` rounds up to
  `2^32`; its logarithm is `32`, and `1 << depth_limit` shifts the `int` by its width.
-/

namespace Unitus

namespace CuckooCache

open Rounding

/-! ### A correctly rounded `std::log2` -/

/-- `std::log2` on `float`, correctly rounded: its value at each positive argument is a
`binary32` number nearest to the exact logarithm. -/
def CorrectlyRounded (log2f : ℚ → ℚ) : Prop :=
  ∀ x : ℚ, 0 < x → IsNearest binary32 (Real.logb 2 x) (log2f x)

/-- Integers below `2^24` are `binary32` numbers. -/
theorem natCast_mem_binary32 {k : ℕ} (hk : k < 2 ^ 24) : (k : ℚ) ∈ binary32 := by
  have h := @mem_Binary 24 254 (-149) k 149 hk (by norm_num)
  rw [show (-149 : ℤ) + ((149 : ℕ) : ℤ) = 0 by norm_num, zpow_zero, mul_one] at h
  exact h

/-- `k - 2^-19`, for `1 ≤ k ≤ 32`, is a `binary32` number: the one below `k` when `k > 16`. -/
theorem sub_mem_binary32 {k : ℕ} (h1 : 1 ≤ k) (hk : k ≤ 32) :
    (k : ℚ) - 1 / 2 ^ 19 ∈ binary32 := by
  have hm : 1 ≤ k * 2 ^ 19 := Nat.one_le_iff_ne_zero.mpr (by positivity)
  have hlt : k * 2 ^ 19 - 1 < 2 ^ 24 := by
    have : k * 2 ^ 19 ≤ 32 * 2 ^ 19 := Nat.mul_le_mul_right _ hk
    omega
  have h := @mem_Binary 24 254 (-149) (k * 2 ^ 19 - 1) 130 hlt (by norm_num)
  have hval : (((k * 2 ^ 19 - 1 : ℕ) : ℚ)) * 2 ^ ((-149 : ℤ) + ((130 : ℕ) : ℤ)) =
      (k : ℚ) - 1 / 2 ^ 19 := by
    rw [Nat.cast_sub hm, show (-149 : ℤ) + ((130 : ℕ) : ℤ) = -19 by norm_num]
    push_cast
    rw [zpow_neg, zpow_ofNat]
    field_simp
    norm_num
  rw [hval] at h
  exact h

theorem binary32_nonempty : binary32.Nonempty :=
  ⟨_, natCast_mem_binary32 (k := 0) (by norm_num)⟩

/-- A correctly rounded `std::log2`: a nearest `binary32` number to each logarithm. -/
noncomputable def nearestLog2 (x : ℚ) : ℚ :=
  (exists_isNearest (Binary.finite 24 (-149) 254) binary32_nonempty (Real.logb 2 x)).choose

theorem correctlyRounded_nearestLog2 : CorrectlyRounded nearestLog2 := fun x _ =>
  (exists_isNearest (Binary.finite 24 (-149) 254) binary32_nonempty (Real.logb 2 x)).choose_spec

/-- `log₂ (2^k) = k`. -/
theorem logb_two_pow (k : ℕ) : Real.logb 2 ((2 : ℝ) ^ k) = k := by
  rw [Real.logb_pow, Real.logb_self_eq_one one_lt_two, mul_one]

section CorrectlyRounded

variable {log2f : ℚ → ℚ} (hf : CorrectlyRounded log2f)
include hf

/-- At a power of two the logarithm is exact. -/
theorem CorrectlyRounded.pow_two {k : ℕ} (hk : k < 2 ^ 24) : log2f (2 ^ k) = k := by
  have h := hf (2 ^ k) (by positivity)
  rw [Rat.cast_pow, Rat.cast_ofNat, logb_two_pow, ← Rat.cast_natCast] at h
  exact h.eq_of_mem (natCast_mem_binary32 hk)

/-- In the binade `[2^k, 2^(k+1))`, up to `2^(k+1) · (1 - 2^-20)`, the logarithm rounds into
`[k, k + 1)`: it is `k` or more, and nearer to `k + 1 - 2^-19` than to `k + 1`. -/
theorem CorrectlyRounded.mem_Ico {x k : ℕ} (hkx : 2 ^ k ≤ x) (hk : k < 32)
    (hx : (x : ℝ) ≤ 2 ^ (k + 1) * (1 - 1 / 2 ^ 20)) :
    (k : ℚ) ≤ log2f x ∧ log2f x < k + 1 := by
  have hx0 : (0 : ℝ) < x := lt_of_lt_of_le (by positivity) (by exact_mod_cast hkx : (2 : ℝ) ^ k ≤ x)
  have h := hf x (by exact_mod_cast hx0)
  rw [Rat.cast_natCast] at h
  -- the logarithm is at least `k`
  have hL1 : (k : ℝ) ≤ Real.logb 2 x := by
    rw [← logb_two_pow k]
    exact (Real.logb_le_logb one_lt_two (by positivity) hx0).mpr (by exact_mod_cast hkx)
  -- and more than `2^-20` below `k + 1`
  have hL2 : Real.logb 2 x < (k + 1 : ℝ) - 1 / 2 ^ 20 := by
    have hup := logb_two_le (k + 1) hx0
    have hl := Real.log_pos one_lt_two
    have hl1 : Real.log 2 < 1 := by
      have := Real.log_lt_sub_one_of_pos two_pos (by norm_num)
      linarith
    have hP : (0 : ℝ) < 2 ^ (k + 1) := by positivity
    have hgap : 1 / 2 ^ 20 < (2 ^ (k + 1) - x) / (2 ^ (k + 1) * Real.log 2) := by
      rw [lt_div_iff₀ (by positivity)]
      nlinarith
    push_cast at hup
    linarith
  refine ⟨?_, ?_⟩
  · exact_mod_cast h.le_of_mem (natCast_mem_binary32 (by omega)) (by exact_mod_cast hL1)
  · have hmem := sub_mem_binary32 (k := k + 1) (by omega) (by omega)
    push_cast at hmem
    have hmid : Real.logb 2 x < (((k + 1 - 1 / 2 ^ 19 : ℚ) : ℝ) + ((k + 1 : ℚ) : ℝ)) / 2 := by
      push_cast
      linarith
    exact h.lt_of_lt_midpoint hmem (by linarith) hmid

end CorrectlyRounded

/-! ### The table size -/

/-- A `float` in `[k, k + 1)` truncates to `k`. -/
theorem floatToUInt8_of_mem_Ico {f : ℚ} {k : ℕ} (hk : k < 256) (h1 : (k : ℚ) ≤ f)
    (h2 : f < k + 1) : floatToUInt8 f = .ok (UInt8.ofNat k) := by
  have hfloor : ⌊f⌋ = (k : ℤ) := Int.floor_eq_iff.mpr ⟨by exact_mod_cast h1, by exact_mod_cast h2⟩
  have hk' : (k : ℚ) + 1 ≤ 256 := by exact_mod_cast (hk : k + 1 ≤ 256)
  have h0 : (0 : ℚ) ≤ k := Nat.cast_nonneg k
  unfold floatToUInt8
  rw [if_neg (by push Not; constructor <;> linarith), hfloor, Int.toNat_natCast]

variable {Element : Type} [Inhabited Element]

/-- A depth below `32` sets the table to `2^depth` slots. -/
theorem setup_of_depth {log2f : ℚ → ℚ} {new_size : UInt32} {k : ℕ} (hk : k < 32)
    (hd : floatToUInt8 (log2f (toFloat (max 2 new_size))) = .ok (UInt8.ofNat k)) :
    ∃ c : cache Element, cache.setup log2f new_size = .ok c ∧ c.size.toNat = 2 ^ k ∧
      c.hash_mask = c.size - 1 ∧ c.depth_limit.toNat = k := by
  have hk' : (UInt8.ofNat k).toNat = k := by
    rw [UInt8.toNat_ofNat']
    exact Nat.mod_eq_of_lt (by omega)
  simp only [cache.setup, hd, hk', Except.ok_bind, if_neg (by omega : ¬k ≥ 32)]
  refine ⟨_, rfl, ?_, rfl, hk'⟩
  show (UInt32.ofNat (2 ^ k)).toNat = 2 ^ k
  rw [UInt32.toNat_ofNat']
  exact Nat.mod_eq_of_lt (Nat.pow_lt_pow_right (by norm_num) hk)

/-- `(float)max(2, n)` is exact below `2^24`. -/
theorem toFloat_max_two {new_size : UInt32} (hn : new_size.toNat < 2 ^ 24) :
    toFloat (max 2 new_size) = (max 2 new_size.toNat : ℕ) := by
  have h2 : (2 : UInt32).toNat = 2 := rfl
  unfold toFloat
  rw [UInt32.toNat_max, h2, roundBits_of_lt (by omega)]

/-- **As documented, below `2^21 - 1`.**  For every correctly rounded `std::log2` and every
`n < 2^21 - 1`, `setup(n)` makes `size` the largest power of two not above `max(2, n)`, with
`hash_mask = size - 1` and `depth_limit = log₂ size`. -/
theorem setup_size {log2f : ℚ → ℚ} (hf : CorrectlyRounded log2f) (new_size : UInt32)
    (hn : new_size.toNat < 2 ^ 21 - 1) :
    ∃ c : cache Element, cache.setup log2f new_size = .ok c ∧
      c.size.toNat = 2 ^ Nat.log2 (max 2 new_size.toNat) ∧ c.hash_mask = c.size - 1 ∧
      c.depth_limit.toNat = Nat.log2 (max 2 new_size.toNat) := by
  set x := max 2 new_size.toNat with hxdef
  set k := Nat.log2 x
  have hx0 : x ≠ 0 := by omega
  have hkx : 2 ^ k ≤ x := Nat.log2_self_le hx0
  have hxk : x < 2 ^ (k + 1) := Nat.lt_log2_self
  have hk : k ≤ 20 := Nat.lt_succ_iff.mp ((Nat.log2_lt hx0).mpr (by omega))
  -- `x` is `2^-20` of the binade below `2^(k+1)`: one below it, two when `k = 20`
  have hroom : x * 2 ^ 20 + 2 ^ (k + 1) ≤ 2 ^ (k + 1) * 2 ^ 20 := by
    rcases Nat.lt_or_ge k 20 with hk20 | hk20
    · have : 2 ^ (k + 1) ≤ 2 ^ 20 := Nat.pow_le_pow_right (by norm_num) hk20
      nlinarith
    · have hk20 : k = 20 := by omega
      rw [hk20]
      omega
  have hxr : (x : ℝ) ≤ 2 ^ (k + 1) * (1 - 1 / 2 ^ 20) := by
    have : (x : ℝ) * 2 ^ 20 + 2 ^ (k + 1) ≤ 2 ^ (k + 1) * 2 ^ 20 := by exact_mod_cast hroom
    have hkey : (2 : ℝ) ^ (k + 1) * (1 - 1 / 2 ^ 20) =
        (2 ^ (k + 1) * 2 ^ 20 - 2 ^ (k + 1)) / 2 ^ 20 := by
      field_simp
    rw [hkey, le_div_iff₀ (by positivity)]
    linarith
  obtain ⟨h1, h2⟩ := hf.mem_Ico hkx (by omega) hxr
  rw [← toFloat_max_two (by omega)] at h1 h2
  exact setup_of_depth (by omega) (floatToUInt8_of_mem_Ico (by omega) h1 h2)

theorem setup_size_thousand :
    CorrectlyRounded nearestLog2 ∧ (1000 : UInt32).toNat < 2 ^ 21 - 1 ∧
      ∃ c : cache Unit, cache.setup nearestLog2 1000 = .ok c ∧
        c.size.toNat = 2 ^ Nat.log2 (max 2 (1000 : UInt32).toNat) ∧ c.hash_mask = c.size - 1 ∧
        c.depth_limit.toNat = Nat.log2 (max 2 (1000 : UInt32).toNat) :=
  ⟨correctlyRounded_nearestLog2, by decide,
    setup_size correctlyRounded_nearestLog2 1000 (by decide)⟩

/-- At `n = 2^21 - 1` the logarithm, `2^-20 · (1 / (2 log 2) + …)` below `21`, rounds up to
`21`, and `setup` makes the table larger than `n`. -/
theorem setup_two_pow_21_sub_one {log2f : ℚ → ℚ} (hf : CorrectlyRounded log2f) :
    ∃ c : cache Element, cache.setup log2f (2 ^ 21 - 1) = .ok c ∧ c.size.toNat = 2 ^ 21 := by
  have hfloat : toFloat (max 2 (2 ^ 21 - 1)) = ((2 ^ 21 - 1 : ℕ) : ℚ) := by
    rw [toFloat_max_two (by decide)]
    rfl
  have hx0 : (0 : ℝ) < (2 ^ 21 - 1 : ℕ) := by norm_num
  have h := hf ((2 ^ 21 - 1 : ℕ) : ℚ) (by norm_num)
  rw [Rat.cast_natCast] at h
  -- `log₂ (2^21 - 1) > 21 - 2^-20`, from `log 2 > 0.693`
  have hlow : (21 : ℝ) - 1 / 2 ^ 20 < Real.logb 2 ((2 ^ 21 - 1 : ℕ) : ℝ) := by
    have hl := le_logb_two 21 hx0
    have hl2 := Real.log_two_gt_d9
    have : (2 ^ 21 - ((2 ^ 21 - 1 : ℕ) : ℝ)) / ((2 ^ 21 - 1 : ℕ) * Real.log 2) < 1 / 2 ^ 20 := by
      rw [div_lt_div_iff₀ (by positivity) (by positivity)]
      norm_num
      linarith
    push_cast at hl this ⊢
    linarith
  have hhigh : Real.logb 2 ((2 ^ 21 - 1 : ℕ) : ℝ) < 21 := by
    have h := Real.logb_lt_logb one_lt_two hx0 (by norm_num : ((2 ^ 21 - 1 : ℕ) : ℝ) < 2 ^ 21)
    rw [logb_two_pow] at h
    exact_mod_cast h
  -- below `21`, `binary32` numbers are `2^-19` apart or more
  have hgap : ∀ y ∈ binary32, y < 21 → y ≤ 21 - 1 / 2 ^ 19 := by
    intro y hy hy21
    rcases lt_or_ge y 16 with hy16 | hy16
    · linarith
    · obtain ⟨j, rfl⟩ := Binary.exists_mul_of_le hy (a := 4) (by norm_num; exact hy16)
      norm_num at hy21 ⊢
      have hj : j < 21 * 2 ^ 19 := by exact_mod_cast (by linarith : (j : ℚ) < 21 * 2 ^ 19)
      have hj' : (j : ℚ) ≤ 21 * 2 ^ 19 - 1 := by exact_mod_cast (by omega : j ≤ 21 * 2 ^ 19 - 1)
      linarith
  have h21 := h.le_of_gap (natCast_mem_binary32 (k := 21) (by norm_num)) hgap
    (by push_cast; linarith)
  have h22 := h.lt_of_lt_midpoint (q := 22) (sub_mem_binary32 (k := 22) (by norm_num) (by norm_num))
    (by norm_num) (by push_cast at hhigh ⊢; linarith)
  rw [← hfloat] at h21 h22
  obtain ⟨c, hc, hsize, -⟩ := @setup_of_depth Element _ log2f (2 ^ 21 - 1) 21 (by norm_num)
    (floatToUInt8_of_mem_Ico (by norm_num) (by exact_mod_cast h21) (by push_cast at h22 ⊢; linarith))
  exact ⟨c, hc, hsize⟩

theorem setup_two_pow_21_sub_one_nearestLog2 :
    CorrectlyRounded nearestLog2 ∧
      ∃ c : cache Unit, cache.setup nearestLog2 (2 ^ 21 - 1) = .ok c ∧ c.size.toNat = 2 ^ 21 :=
  ⟨correctlyRounded_nearestLog2, setup_two_pow_21_sub_one correctlyRounded_nearestLog2⟩

/-- **`setup(2^32 - 1)` shifts by 32.**  For every correctly rounded `std::log2`, `(float)(2^32 - 1)`
rounds to `2^32`, whose logarithm is `32`, so `depth_limit = 32` and `size = 1 << depth_limit` is
a shift of the `int` `1` by its width, undefined: `setup` does not round `2^32 - 1` down to a
power of two, as its comment says it does. -/
theorem setup_shift_by_32 {log2f : ℚ → ℚ} (hf : CorrectlyRounded log2f) :
    (cache.setup log2f 0xFFFFFFFF : Except String (cache Element)) =
      .error "1 << depth_limit: shift by 32 or more" := by
  have hfloat : toFloat (max 2 0xFFFFFFFF) = 2 ^ 32 := by
    rw [show max (2 : UInt32) 0xFFFFFFFF = 0xFFFFFFFF from rfl]
    unfold toFloat
    rw [show roundBits 24 (0xFFFFFFFF : UInt32).toNat = 2 ^ 32 by decide]
    norm_num
  have hlog : log2f (toFloat (max 2 0xFFFFFFFF)) = 32 := by
    rw [hfloat, hf.pow_two (by norm_num)]
    norm_num
  have hd : floatToUInt8 (log2f (toFloat (max 2 0xFFFFFFFF))) = .ok 32 := by
    rw [hlog, floatToUInt8_of_mem_Ico (k := 32) (by norm_num) (by norm_num) (by norm_num)]
    rfl
  simp only [cache.setup, hd, Except.ok_bind]
  rfl

theorem setup_shift_by_32_nearestLog2 :
    CorrectlyRounded nearestLog2 ∧
      (cache.setup nearestLog2 0xFFFFFFFF : Except String (cache Unit)) =
        .error "1 << depth_limit: shift by 32 or more" :=
  ⟨correctlyRounded_nearestLog2, setup_shift_by_32 correctlyRounded_nearestLog2⟩

end CuckooCache

end Unitus
