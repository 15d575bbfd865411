import Unitus.Arith.Compact
import Unitus.Arith.BaseUintCorrect

/-!
# Arith — the compact encoding: what it decodes to, and its round trip

`SetCompact` reads a compact value as its mantissa `nWord` and exponent `nSize`, and decodes it
to `nWord * 256^(nSize - 3)`, modulo `2^256`, or `nWord` shifted down for an exponent of at most
three (`toNat_setCompact`).  No compact value decodes to `2^256 - 1`, so the `bnTarget + 1` that
the work computation divides by never wraps to zero (`toNat_setCompact_add_one_lt`).

`GetCompact` is described on numbers by `compactOf`: the byte length of the value and its top
three bytes, moved down a byte when they would set the sign bit (`getCompact_eq`).  From that
description, the round trip: decoding keeps the top bytes of the value, and encoding the
decoded value gives the same compact value (`compact_round_trip`).
-/

namespace Unitus

namespace BaseUint

variable {BITS : Nat}

/-- `base_uint(uint64_t b)` is `b`, on a width of at least two limbs. -/
theorem toNat_ofUInt64 (h : 2 ≤ BITS / 32) (b : UInt64) :
    (ofUInt64 b : BaseUint BITS).toNat = b.toNat := by
  have hb := b.toNat_lt
  show limbsVal (List.take _ _) = _
  rw [List.take_of_length_le (by simp; omega), limbsVal_cons, limbsVal_cons,
    limbsVal_replicate_zero, UInt64.toNat_toUInt32, UInt64.toNat_toUInt32, UInt64.toNat_shiftRight]
  simp only [UInt64.toNat_ofNat, Nat.mul_zero, Nat.add_zero, Nat.shiftRight_eq_div_pow]
  rw [show 32 % 2 ^ 64 % 64 = 32 by norm_num, ← Nat.mod_mul, ← Nat.pow_add, Nat.mod_eq_of_lt hb]

theorem limbsVal_eq_zero_iff : ∀ l : List UInt32, limbsVal l = 0 ↔ ∀ x ∈ l, x = 0
  | [] => by simp
  | x :: l => by
    rw [limbsVal_cons, List.forall_mem_cons, ← limbsVal_eq_zero_iff l, ← UInt32.toNat_inj]
    simp only [UInt32.toNat_zero]
    omega

/-- `a == 0`: every limb is zero, which is the value being zero. -/
theorem EqualTo_zero_iff (a : BaseUint BITS) : a.EqualTo 0 = true ↔ a.toNat = 0 := by
  rw [toNat, limbsVal_eq_zero_iff, EqualTo]
  rcases a with ⟨pn, -⟩
  dsimp only
  rcases pn with _ | ⟨x, _ | ⟨y, rest⟩⟩
  · simp
  · simp
  · simp [and_comm]

/-- `GetLow64()` is the value modulo `2^64`, on a width of at least two limbs. -/
theorem toNat_getLow64 (a : BaseUint BITS) : a.getLow64.toNat = a.toNat % 2 ^ 64 := by
  have h0 := getD_toNat a.pn 0
  have h1 := getD_toNat a.pn 1
  have hlt := (a.pn.getD 1 0).toNat_lt
  rw [getLow64, UInt64.toNat_or, UInt64.toNat_shiftLeft, UInt32.toNat_toUInt64,
    UInt32.toNat_toUInt64, show (32 : UInt64).toNat % 64 = 32 from rfl, Nat.shiftLeft_eq,
    Nat.mod_eq_of_lt (show (a.pn.getD 1 0).toNat * 2 ^ 32 < 2 ^ 64 by omega), Nat.mul_comm,
    Nat.lor_comm, ← Nat.two_pow_add_eq_or_of_lt (a.pn.getD 0 0).toNat_lt, h0, h1,
    show (2 : Nat) ^ 64 = 2 ^ 32 * 2 ^ 32 from rfl, Nat.mod_mul]
  simp only [toNat, Nat.mul_zero, Nat.mul_one, Nat.pow_zero, Nat.div_one]
  exact Nat.add_comm _ _

theorem limbsVal_injective :
    ∀ {l l' : List UInt32}, l.length = l'.length → limbsVal l = limbsVal l' → l = l'
  | [], [], _, _ => rfl
  | x :: l, y :: l', hlen, h => by
    have hx := x.toNat_lt
    have hy := y.toNat_lt
    rw [limbsVal_cons, limbsVal_cons] at h
    have hl : limbsVal l = limbsVal l' := by omega
    rw [UInt32.toNat_inj.mp (show x.toNat = y.toNat by omega),
      limbsVal_injective (Nat.succ_injective hlen) hl]

/-- A number of the width is its value. -/
theorem toNat_inj {a b : BaseUint BITS} : a.toNat = b.toNat ↔ a = b :=
  ⟨fun h => ext_pn (limbsVal_injective (by rw [a.length_pn, b.length_pn]) h),
    fun h => h ▸ rfl⟩

end BaseUint

/-! ### The compact encoding on numbers -/

/-- `GetCompact`'s exponent before the sign-bit adjustment: `(bits() + 7) / 8`, the length of
the value in bytes. -/
def compactSize (x : Nat) : Nat := (x.size + 7) / 8

/-- `GetCompact`'s mantissa before the adjustment: the value moved up to three bytes, or its top
three bytes. -/
def compactWord (x : Nat) : Nat :=
  if compactSize x ≤ 3 then x * 256 ^ (3 - compactSize x) else x / 256 ^ (compactSize x - 3)

/-- `GetCompact` on numbers: the mantissa and the exponent, with the mantissa moved down a byte
when its top bit, the sign bit, is set. -/
def compactOf (x : Nat) : Nat × Nat :=
  if 2 ^ 23 ≤ compactWord x then (compactWord x / 256, compactSize x + 1)
  else (compactWord x, compactSize x)

/-- The byte length is pinned down by the power of `256` the value lies below. -/
theorem compactSize_eq {x s : Nat} (hs : 1 ≤ s) (h1 : 256 ^ (s - 1) ≤ x) (h2 : x < 256 ^ s) :
    compactSize x = s := by
  have hle : x.size ≤ 8 * s := Nat.size_le.mpr (by rwa [Nat.pow_mul])
  have hgt : 8 * (s - 1) < x.size := Nat.lt_size.mpr (by rwa [Nat.pow_mul])
  unfold compactSize
  omega

theorem lt_pow_compactSize (x : Nat) : x < 256 ^ compactSize x := by
  have hle : x.size ≤ 8 * compactSize x := by unfold compactSize; omega
  calc x < 2 ^ x.size := Nat.lt_size_self x
    _ ≤ 2 ^ (8 * compactSize x) := Nat.pow_le_pow_right (by norm_num) hle
    _ = 256 ^ compactSize x := by rw [Nat.pow_mul]

theorem pow_compactSize_le {x : Nat} (hx : x ≠ 0) : 256 ^ (compactSize x - 1) ≤ x := by
  have hpos : 0 < x.size := Nat.size_pos.mpr (Nat.pos_of_ne_zero hx)
  have hle : 8 * (compactSize x - 1) ≤ x.size - 1 := by unfold compactSize; omega
  calc 256 ^ (compactSize x - 1) = 2 ^ (8 * (compactSize x - 1)) := by rw [Nat.pow_mul]
    _ ≤ 2 ^ (x.size - 1) := Nat.pow_le_pow_right (by norm_num) hle
    _ ≤ x := Nat.lt_size.mp (by omega)

theorem compactSize_zero : compactSize 0 = 0 := by simp [compactSize]

theorem compactSize_pos {x : Nat} (hx : x ≠ 0) : 1 ≤ compactSize x := by
  have hpos : 0 < x.size := Nat.size_pos.mpr (Nat.pos_of_ne_zero hx)
  unfold compactSize
  omega

/-- The mantissa before the adjustment has three bytes, the top one not zero. -/
theorem compactWord_bounds {x : Nat} (hx : x ≠ 0) :
    256 ^ 2 ≤ compactWord x ∧ compactWord x < 256 ^ 3 := by
  have h1 := pow_compactSize_le hx
  have h2 := lt_pow_compactSize x
  have hs := compactSize_pos hx
  unfold compactWord
  split_ifs with h
  · -- a short value moves up to three bytes
    have e1 : 256 ^ 2 = 256 ^ (compactSize x - 1) * 256 ^ (3 - compactSize x) := by
      rw [← Nat.pow_add]; congr 1; omega
    have e2 : 256 ^ 3 = 256 ^ compactSize x * 256 ^ (3 - compactSize x) := by
      rw [← Nat.pow_add]; congr 1; omega
    constructor
    · rw [e1]; exact Nat.mul_le_mul_right _ h1
    · rw [e2]; exact Nat.mul_lt_mul_of_pos_right h2 (by positivity)
  · -- a long value keeps its top three bytes
    have e1 : 256 ^ (compactSize x - 1) = 256 ^ 2 * 256 ^ (compactSize x - 3) := by
      rw [← Nat.pow_add]; congr 1; omega
    have e2 : 256 ^ compactSize x = 256 ^ 3 * 256 ^ (compactSize x - 3) := by
      rw [← Nat.pow_add]; congr 1; omega
    constructor
    · rw [Nat.le_div_iff_mul_le (by positivity), ← e1]; exact h1
    · rw [Nat.div_lt_iff_lt_mul (by positivity), ← e2]; exact h2


/-- `SetCompact`'s value on numbers: the mantissa shifted down for an exponent of at most three,
and up by `nSize - 3` bytes, modulo `2^256`, otherwise. -/
def compactValue (nWord nSize : Nat) : Nat :=
  if nSize ≤ 3 then nWord / 256 ^ (3 - nSize) else nWord * 256 ^ (nSize - 3) % 2 ^ 256

@[simp] theorem compactOf_zero : compactOf 0 = (0, 0) := by
  simp [compactOf, compactWord, compactSize_zero]

theorem compactSize_le {x : Nat} (hx : x < 2 ^ 256) : compactSize x ≤ 32 := by
  rcases Nat.eq_zero_or_pos x with rfl | hpos
  · simp [compactSize_zero]
  · have h := lt_of_le_of_lt (pow_compactSize_le hpos.ne') hx
    rw [show (2 : Nat) ^ 256 = 256 ^ 32 by norm_num,
      Nat.pow_lt_pow_iff_right (by norm_num)] at h
    omega

/-- From three bytes up, the mantissa moved down a byte is the value moved down one byte more. -/
theorem compactWord_div_256 {x : Nat} (h : 3 ≤ compactSize x) :
    compactWord x / 256 = x / 256 ^ (compactSize x + 1 - 3) := by
  unfold compactWord
  split_ifs with h3
  · rw [show compactSize x = 3 by omega]
    simp
  · rw [Nat.div_div_eq_div_mul, ← Nat.pow_succ]
    congr 2
    omega

/-- The mantissa before the adjustment fits three bytes. -/
theorem compactWord_lt (x : Nat) : compactWord x < 2 ^ 24 := by
  rcases Nat.eq_zero_or_pos x with rfl | hpos
  · simp [compactWord, compactSize_zero]
  · exact (compactWord_bounds hpos.ne').2

/-- The mantissa fits 23 bits. -/
theorem compactOf_fst_lt (x : Nat) : (compactOf x).1 < 2 ^ 23 := by
  rcases Nat.eq_zero_or_pos x with rfl | hpos
  · simp
  · have hw := (compactWord_bounds hpos.ne').2
    unfold compactOf
    split_ifs with hb
    · exact Nat.div_lt_of_lt_mul (by omega)
    · exact Nat.lt_of_not_le hb

/-- The exponent is at most 33, and 33 only with a mantissa of two bytes. -/
theorem compactOf_snd_le {x : Nat} (hx : x < 2 ^ 256) :
    (compactOf x).2 ≤ 33 ∧ (32 < (compactOf x).2 → (compactOf x).1 < 2 ^ 16) := by
  have hs := compactSize_le hx
  rcases Nat.eq_zero_or_pos x with rfl | hpos
  · simp
  · have hw := (compactWord_bounds hpos.ne').2
    unfold compactOf
    split_ifs with hb
    · exact ⟨by omega, fun _ => Nat.div_lt_of_lt_mul (by omega)⟩
    · exact ⟨by omega, fun h => by omega⟩

/-- Above three bytes the mantissa keeps at least 15 significant bits. -/
theorem le_compactOf_fst {x : Nat} (h : 3 < (compactOf x).2) : 2 ^ 15 ≤ (compactOf x).1 := by
  rcases Nat.eq_zero_or_pos x with rfl | hpos
  · simp at h
  · have hw := (compactWord_bounds hpos.ne').1
    unfold compactOf at h ⊢
    split_ifs with hb
    · exact (Nat.le_div_iff_mul_le (by norm_num)).mpr (by omega)
    · omega

/-- **`GetCompact` then `SetCompact`, on numbers**: the decoded value keeps the top bytes of
`x`, those above the exponent's `nSize - 3` low bytes. -/
theorem compactValue_compactOf {x : Nat} (hx : x < 2 ^ 256) :
    compactValue (compactOf x).1 (compactOf x).2 =
      x / 256 ^ ((compactOf x).2 - 3) * 256 ^ ((compactOf x).2 - 3) := by
  have hwrap : ∀ k, x / 256 ^ k * 256 ^ k % 2 ^ 256 = x / 256 ^ k * 256 ^ k := fun k =>
    Nat.mod_eq_of_lt (lt_of_le_of_lt (Nat.div_mul_le_self x _) hx)
  unfold compactOf compactValue
  split_ifs with hb h3 h3
  · -- a short value moved up to three bytes and one byte down comes back whole
    have e : compactWord x = x * 256 ^ (3 - (compactSize x + 1)) * 256 := by
      rw [compactWord, if_pos (by omega), Nat.mul_assoc, ← Nat.pow_succ]
      congr 2
      omega
    rw [e, Nat.mul_div_cancel _ (by norm_num), Nat.mul_div_cancel _ (by positivity)]
    simp [show compactSize x + 1 - 3 = 0 by omega]
  · rw [compactWord_div_256 (by omega), hwrap]
  · rw [compactWord, if_pos h3, Nat.mul_div_cancel _ (by positivity)]
    simp [show compactSize x - 3 = 0 by omega]
  · rw [compactWord, if_neg h3, hwrap]


/-- A value of `nSize` bytes whose top three bytes are `w` is read back as `w`. -/
theorem compactWord_of_size {y w s : Nat} (hs : 3 ≤ s) (hsize : compactSize y = s)
    (hy : y = w * 256 ^ (s - 3)) : compactWord y = w := by
  rw [compactWord, hsize]
  split_ifs with h3
  · rw [hy, show s - 3 = 0 by omega, show 3 - s = 0 by omega]
    simp
  · rw [hy, Nat.mul_div_cancel _ (by positivity)]

/-- **Re-encoding is stable**: a mantissa with 15 to 23 significant bits and an exponent above
three is what `GetCompact` finds again in the value they stand for. -/
theorem compactOf_mul {w s : Nat} (hw1 : 2 ^ 15 ≤ w) (hw2 : w < 2 ^ 23) (hs : 3 < s) :
    compactOf (w * 256 ^ (s - 3)) = (w, s) := by
  have hpow : ∀ k, 256 ^ (k + (s - 3)) = 256 ^ k * 256 ^ (s - 3) := fun k => Nat.pow_add _ _ _
  by_cases h16 : 2 ^ 16 ≤ w
  · -- the value has `s` bytes and its top three are `w`, without the sign bit
    have hsize : compactSize (w * 256 ^ (s - 3)) = s := by
      apply compactSize_eq (by omega)
      · rw [show s - 1 = 2 + (s - 3) by omega, hpow]
        exact Nat.mul_le_mul_right _ h16
      · conv_rhs => rw [show s = 3 + (s - 3) by omega, hpow]
        exact Nat.mul_lt_mul_of_pos_right (by omega) (by positivity)
    rw [compactOf, compactWord_of_size (by omega) hsize rfl, if_neg (by omega), hsize]
  · -- the value has `s - 1` bytes; its top three are `w * 256`, which sets the sign bit
    have hsize : compactSize (w * 256 ^ (s - 3)) = s - 1 := by
      apply compactSize_eq (by omega)
      · rw [show s - 1 - 1 = 1 + (s - 3) by omega, hpow]
        exact Nat.mul_le_mul_right _ (by omega)
      · rw [show s - 1 = 2 + (s - 3) by omega, hpow]
        exact Nat.mul_lt_mul_of_pos_right (by omega) (by positivity)
    have hword : compactWord (w * 256 ^ (s - 3)) = w * 256 := by
      apply compactWord_of_size (by omega) hsize
      rw [Nat.mul_assoc, ← Nat.pow_succ']
      congr 2
      omega
    rw [compactOf, hword, if_pos (by omega), hsize, Nat.mul_div_cancel _ (by norm_num)]
    congr 1
    omega

/-- **`GetCompact` never overshoots an exact exponent**: a value `m * 256^t` with a 23-bit `m`
is encoded with an exponent of at most `t + 3`. -/
theorem compactOf_snd_le_of_eq_mul {m t : Nat} (hm : m < 2 ^ 23) :
    (compactOf (m * 256 ^ t)).2 ≤ t + 3 := by
  rcases Nat.eq_zero_or_pos m with rfl | hpos
  · simp
  · have hx : m * 256 ^ t ≠ 0 := Nat.mul_ne_zero hpos.ne' (by positivity)
    have hlt : m * 256 ^ t < 256 ^ (t + 3) := by
      rw [Nat.pow_add, Nat.mul_comm]
      exact Nat.mul_lt_mul_of_pos_left (by omega) (by positivity)
    have hs : compactSize (m * 256 ^ t) ≤ t + 3 := by
      have h := lt_of_le_of_lt (pow_compactSize_le hx) hlt
      rw [Nat.pow_lt_pow_iff_right (by norm_num)] at h
      omega
    unfold compactOf
    split_ifs with hb
    · -- at the full `t + 3` bytes the top three are `m`, which leaves the sign bit clear
      have hne : compactSize (m * 256 ^ t) ≠ t + 3 := fun heq => by
        rw [compactWord_of_size (by omega) heq (by rw [Nat.add_sub_cancel])] at hb
        omega
      dsimp only
      omega
    · exact hs



/-- A mantissa of `j` bytes shifted by `t` bytes stays below `2^256` while `j + t ≤ 32`. -/
theorem mul_pow_256_lt {w j t : Nat} (hw : w < 256 ^ j) (ht : j + t ≤ 32) :
    w * 256 ^ t < 2 ^ 256 :=
  calc w * 256 ^ t < 256 ^ j * 256 ^ t := Nat.mul_lt_mul_of_pos_right hw (by positivity)
    _ = 256 ^ (j + t) := (Nat.pow_add _ _ _).symm
    _ ≤ 256 ^ 32 := Nat.pow_le_pow_right (by norm_num) ht
    _ = 2 ^ 256 := by norm_num

/-- **Re-encoding the decoded value**: `GetCompact` of what `SetCompact` makes of `GetCompact x`
finds the same mantissa and exponent. -/
theorem compactOf_compactValue {x : Nat} (hx : x < 2 ^ 256) :
    compactOf (compactValue (compactOf x).1 (compactOf x).2) = compactOf x := by
  have hw := compactOf_fst_lt x
  obtain ⟨hs, h33⟩ := compactOf_snd_le hx
  by_cases h3 : (compactOf x).2 ≤ 3
  · rw [compactValue_compactOf hx, show (compactOf x).2 - 3 = 0 by omega]
    simp
  · -- the mantissa times `256^(nSize - 3)` does not wrap, and is re-encoded as itself
    have hlt : (compactOf x).1 * 256 ^ ((compactOf x).2 - 3) < 2 ^ 256 := by
      by_cases h32 : (compactOf x).2 ≤ 32
      · exact mul_pow_256_lt (j := 3) (by omega) (by omega)
      · exact mul_pow_256_lt (j := 2) (by have := h33 (by omega); omega) (by omega)
    rw [compactValue, if_neg h3, Nat.mod_eq_of_lt hlt,
      compactOf_mul (le_compactOf_fst (by omega)) hw (by omega)]

/-- The 32 bits of a compact value: the exponent byte, the sign bit and the 23-bit mantissa. -/
def compactBits (nWord nSize : Nat) (fNegative : Bool) : Nat :=
  2 ^ 24 * nSize + (if fNegative then 2 ^ 23 else 0) + nWord

namespace ArithUint256

open BaseUint

/-- The exponent byte of a compact value. -/
def nSizeOf (nCompact : UInt32) : Nat := (nCompact >>> 24).toNat

/-- The 23-bit mantissa of a compact value. -/
def nWordOf (nCompact : UInt32) : Nat := (nCompact &&& 0x007fffff).toNat

theorem nSizeOf_eq (nCompact : UInt32) : nSizeOf nCompact = nCompact.toNat / 2 ^ 24 := by
  rw [nSizeOf, UInt32.toNat_shiftRight, show (24 : UInt32).toNat % 32 = 24 from rfl,
    Nat.shiftRight_eq_div_pow]

theorem nWordOf_lt (nCompact : UInt32) : nWordOf nCompact < 2 ^ 23 := by
  rw [nWordOf, UInt32.toNat_and]
  exact lt_of_le_of_lt Nat.and_le_right (by decide)

/-- **`SetCompact`'s value**: the mantissa shifted down for an exponent of at most three, and
up by `nSize - 3` bytes, modulo `2^256`, otherwise. -/
theorem toNat_setCompact (nCompact : UInt32) :
    (setCompact nCompact).value.toNat =
      if nSizeOf nCompact ≤ 3 then nWordOf nCompact / 2 ^ (8 * (3 - nSizeOf nCompact))
      else nWordOf nCompact * 2 ^ (8 * (nSizeOf nCompact - 3)) % 2 ^ 256 := by
  unfold setCompact nSizeOf nWordOf
  dsimp only
  split_ifs with h
  · have hs : 8 * (3 - (nCompact >>> 24).toNat) < 32 := by omega
    rw [toNat_ofUInt64 (by norm_num), UInt32.toNat_toUInt64, UInt32.toNat_shiftRight,
      toNat_toUInt32_of_lt hs, Nat.mod_eq_of_lt hs, Nat.shiftRight_eq_div_pow]
  · rw [toNat_shl, toNat_ofUInt64 (by norm_num), UInt32.toNat_toUInt64]

/-- No compact value decodes to `2^256 - 1`: with an exponent above three the value is a
multiple of `256`, and below it the value fits the mantissa.  So `bnTarget + 1` never wraps. -/
theorem toNat_setCompact_add_one_lt (nCompact : UInt32) :
    (setCompact nCompact).value.toNat + 1 < 2 ^ 256 := by
  have hw := nWordOf_lt nCompact
  rw [toNat_setCompact]
  split_ifs with h
  · have := Nat.div_le_self (nWordOf nCompact) (2 ^ (8 * (3 - nSizeOf nCompact)))
    omega
  · -- an even number below `2^256` is not `2^256 - 1`
    have heven : 2 ∣ nWordOf nCompact * 2 ^ (8 * (nSizeOf nCompact - 3)) % 2 ^ 256 := by
      rw [Nat.dvd_mod_iff (Nat.dvd_of_pow_dvd (by norm_num) (dvd_refl _))]
      exact Dvd.dvd.mul_left (dvd_pow_self 2 (by omega)) _
    have hlt := Nat.mod_lt (nWordOf nCompact * 2 ^ (8 * (nSizeOf nCompact - 3)))
      (Nat.two_pow_pos 256)
    omega

/-! ### Masks of a compact value -/

theorem toNat_and_7fffff (c : UInt32) : (c &&& 0x007fffff).toNat = c.toNat % 2 ^ 23 := by
  rw [UInt32.toNat_and]
  exact Nat.and_two_pow_sub_one_eq_mod _ 23

/-- The sign bit of a compact value is bit 23. -/
theorem and_800000_ne_zero_iff_bit (c : UInt32) :
    c &&& 0x00800000 ≠ 0 ↔ c.toNat / 2 ^ 23 % 2 = 1 := by
  rw [ne_eq, ← UInt32.toNat_inj, UInt32.toNat_and,
    show (0x00800000 : UInt32).toNat = 2 ^ 23 from rfl, UInt32.toNat_zero, Nat.and_two_pow,
    Nat.testBit_eq_decide_div_mod_eq]
  simp

/-- Below `2^24`, the sign bit is set exactly from `2^23` up. -/
theorem and_800000_ne_zero_iff {c : UInt32} (h : c.toNat < 2 ^ 24) :
    c &&& 0x00800000 ≠ 0 ↔ 2 ^ 23 ≤ c.toNat := by
  rw [and_800000_ne_zero_iff_bit]
  omega

/-- A 23-bit mantissa has nothing above the mask. -/
theorem and_not_7fffff_eq_zero {c : UInt32} (h : c.toNat < 2 ^ 23) : c &&& ~~~0x007fffff = 0 := by
  have hc : c &&& 0x007fffff = c := by
    rw [← UInt32.toNat_inj, toNat_and_7fffff, Nat.mod_eq_of_lt h]
  rw [← hc, UInt32.and_assoc, show (0x007fffff : UInt32) &&& ~~~0x007fffff = 0 by decide,
    UInt32.and_zero]

theorem toNat_ofNat_compactBits {w s : Nat} {neg : Bool} (hw : w < 2 ^ 23) (hs : s < 256) :
    (UInt32.ofNat (compactBits w s neg)).toNat = compactBits w s neg := by
  rw [UInt32.toNat_ofNat', Nat.mod_eq_of_lt]
  unfold compactBits
  split <;> omega

/-- The mantissa and the exponent of a compact value read back. -/
theorem compactBits_fields {w s : Nat} {neg : Bool} (hw : w < 2 ^ 23) (hs : s < 256) :
    nSizeOf (UInt32.ofNat (compactBits w s neg)) = s ∧
      nWordOf (UInt32.ofNat (compactBits w s neg)) = w ∧
      (UInt32.ofNat (compactBits w s neg) &&& 0x00800000 ≠ 0 ↔ neg = true) := by
  have hc := @toNat_ofNat_compactBits w s neg hw hs
  refine ⟨?_, ?_, ?_⟩
  · rw [nSizeOf_eq, hc, compactBits]
    split <;> omega
  · rw [nWordOf, toNat_and_7fffff, hc, compactBits]
    split <;> omega
  · rw [and_800000_ne_zero_iff_bit, hc, compactBits]
    cases neg <;> simp <;> omega

/-! ### `GetCompact` -/

/-- The mantissa `GetCompact` reads before the sign-bit adjustment: the value moved up to three
bytes through `GetLow64`, or its top three bytes through `>>`. -/
theorem toNat_getCompact_mantissa (a : ArithUint256) :
    (if (a.bits + 7) / 8 ≤ 3 then (a.getLow64 <<< (8 * (3 - (a.bits + 7) / 8)).toUInt64).toUInt32
      else (a.shr (8 * ((a.bits + 7) / 8 - 3))).getLow64.toUInt32).toNat =
      compactWord a.toNat := by
  have hw := compactWord_lt a.toNat
  rw [bits_eq_size, show (a.toNat.size + 7) / 8 = compactSize a.toNat from rfl]
  unfold compactWord at hw ⊢
  split_ifs at hw ⊢ with h3
  · have hk : 8 * (3 - compactSize a.toNat) < 64 := by omega
    have hpow : 2 ^ (8 * (3 - compactSize a.toNat)) = 256 ^ (3 - compactSize a.toNat) :=
      Nat.pow_mul 2 8 _
    have hlow : a.toNat % 2 ^ 64 = a.toNat :=
      Nat.mod_eq_of_lt (lt_of_le_of_lt (Nat.le_mul_of_pos_right _
        (by positivity : 0 < 256 ^ (3 - compactSize a.toNat))) (by omega))
    rw [UInt64.toNat_toUInt32, UInt64.toNat_shiftLeft, toNat_getLow64, hlow,
      UInt64.toNat_ofNat', Nat.mod_eq_of_lt (by omega : 8 * (3 - compactSize a.toNat) < 2 ^ 64),
      Nat.mod_eq_of_lt hk, Nat.shiftLeft_eq, hpow, Nat.mod_eq_of_lt (by omega),
      Nat.mod_eq_of_lt (by omega)]
  · have hpow : 2 ^ (8 * (compactSize a.toNat - 3)) = 256 ^ (compactSize a.toNat - 3) :=
      Nat.pow_mul 2 8 _
    rw [UInt64.toNat_toUInt32, toNat_getLow64, toNat_shr, hpow,
      Nat.mod_mod_of_dvd _ (by norm_num : 2 ^ 32 ∣ 2 ^ 64), Nat.mod_eq_of_lt (by omega)]

/-- `nCompact | nSize << 24`: the exponent byte above a 24-bit mantissa. -/
theorem toNat_or_shiftLeft_24 {c : UInt32} {n : Nat} (hc : c.toNat < 2 ^ 24) (hn : n < 256) :
    (c ||| n.toUInt32 <<< 24).toNat = 2 ^ 24 * n + c.toNat := by
  have hn' : n.toUInt32.toNat = n := by simp [Nat.toUInt32]; omega
  rw [UInt32.toNat_or, UInt32.toNat_shiftLeft, hn', show (24 : UInt32).toNat % 32 = 24 from rfl,
    Nat.shiftLeft_eq, Nat.mod_eq_of_lt (by omega), Nat.lor_comm, Nat.mul_comm,
    ← Nat.two_pow_add_eq_or_of_lt hc]

/-- `nCompact | 0x00800000`: the sign bit set over a 23-bit mantissa. -/
theorem toNat_or_800000 {c : UInt32} {w n : Nat} (hw : w < 2 ^ 23) (hc : c.toNat = 2 ^ 24 * n + w) :
    (c ||| 0x00800000).toNat = 2 ^ 24 * n + 2 ^ 23 + w := by
  have hw' : 2 ^ 23 * 1 + w < 2 ^ 24 := by omega
  rw [UInt32.toNat_or, hc, show (0x00800000 : UInt32).toNat = 2 ^ 23 * 1 from rfl,
    Nat.two_pow_add_eq_or_of_lt (by omega : w < 2 ^ 24), Nat.lor_assoc, Nat.lor_comm w,
    ← Nat.two_pow_add_eq_or_of_lt hw, ← Nat.two_pow_add_eq_or_of_lt hw']
  omega

/-- **`GetCompact`**: no `assert` fails, and the compact value holds the mantissa and the
exponent of `compactOf`, with the sign bit for a negative request and a non-zero mantissa. -/
theorem getCompact_eq (a : ArithUint256) (fNegative : Bool) :
    getCompact a fNegative = .ok (UInt32.ofNat (compactBits (compactOf a.toNat).1
      (compactOf a.toNat).2 (fNegative && (compactOf a.toNat).1 != 0))) := by
  have hw := compactOf_fst_lt a.toNat
  have hs := (compactOf_snd_le a.toNat_lt).1
  have hw0 := compactWord_lt a.toNat
  unfold getCompact
  extract_lets nSize0 nCompact0 nCompact1 nSize nCompact2
  have h0 : nCompact0.toNat = compactWord a.toNat := toNat_getCompact_mantissa a
  have hs0 : nSize0 = compactSize a.toNat := by simp only [nSize0, bits_eq_size]; rfl
  clear_value nCompact0 nSize0
  -- the sign-bit adjustment is the one of `compactOf`
  have h1 : nCompact1.toNat = (compactOf a.toNat).1 ∧ nSize = (compactOf a.toNat).2 := by
    by_cases hb : 2 ^ 23 ≤ compactWord a.toNat
    · have hc : nCompact0 &&& 0x00800000 ≠ 0 :=
        (and_800000_ne_zero_iff (h0 ▸ hw0)).mpr (h0 ▸ hb)
      simp only [nCompact1, nSize, compactOf, if_pos hc, if_pos hb, hs0, and_true]
      rw [UInt32.toNat_shiftRight, show (8 : UInt32).toNat % 32 = 8 from rfl,
        Nat.shiftRight_eq_div_pow, h0]
    · have hc : ¬nCompact0 &&& 0x00800000 ≠ 0 := fun h =>
        hb (h0 ▸ (and_800000_ne_zero_iff (h0 ▸ hw0)).mp h)
      simp only [nCompact1, nSize, compactOf, if_neg hc, if_neg hb, hs0, h0, and_self]
  have h2 : nCompact2.toNat = 2 ^ 24 * nSize + nCompact1.toNat :=
    toNat_or_shiftLeft_24 (by omega) (by omega)
  clear_value nCompact2 nCompact1 nSize
  obtain ⟨h1, rfl⟩ := h1
  rw [h1] at h2
  generalize compactOf a.toNat = p at hw hs h1 h2 ⊢
  obtain ⟨w, s⟩ := p
  dsimp only at hw hs h1 h2 ⊢
  rw [if_neg (not_not.mpr (and_not_7fffff_eq_zero (h1 ▸ hw))), if_neg (by omega)]
  -- the sign bit goes on exactly for a negative request with a non-zero mantissa
  have hm : nCompact2 &&& 0x007fffff ≠ 0 ↔ w ≠ 0 := by
    rw [ne_eq, ← UInt32.toNat_inj, toNat_and_7fffff, h2, UInt32.toNat_zero]
    omega
  congr 1
  rw [← UInt32.toNat_inj, toNat_ofNat_compactBits hw (by omega), compactBits]
  cases fNegative <;> by_cases hw' : w = 0 <;> simp [hm, hw', h2, toNat_or_800000 hw h2]

/-! ### `SetCompact` of what `GetCompact` writes -/

theorem toNat_setCompact_eq (nCompact : UInt32) :
    (setCompact nCompact).value.toNat = compactValue (nWordOf nCompact) (nSizeOf nCompact) := by
  rw [toNat_setCompact, compactValue, Nat.pow_mul, Nat.pow_mul]

/-- **`SetCompact` of an encoded mantissa and exponent**: the value they stand for, no sign
without the sign bit, and no overflow for an exponent of at most 33 (with at most two mantissa
bytes at 33). -/
theorem setCompact_compactBits {w s : Nat} {neg : Bool} (hw : w < 2 ^ 23) (hs : s ≤ 33)
    (h33 : 32 < s → w < 2 ^ 16) :
    (setCompact (UInt32.ofNat (compactBits w s neg))).value.toNat = compactValue w s ∧
      (neg = false → (setCompact (UInt32.ofNat (compactBits w s neg))).fNegative = false) ∧
      (setCompact (UInt32.ofNat (compactBits w s neg))).fOverflow = false := by
  obtain ⟨hsz, hwd, hsign⟩ := @compactBits_fields w s neg hw (by omega)
  generalize UInt32.ofNat (compactBits w s neg) = c at hsz hwd hsign ⊢
  refine ⟨by rw [toNat_setCompact_eq, hsz, hwd], fun hneg => ?_, ?_⟩
  · have h80 : c &&& 0x00800000 = 0 := not_not.mp (mt hsign.mp (by simp [hneg]))
    simp [setCompact, h80]
  · have hsz' : (c >>> 24).toNat = s := hsz
    have hwd' : (c &&& 0x007fffff).toNat = w := hwd
    simp only [setCompact, hsz']
    split_ifs with h3
    · -- an exponent of at most three overflows nothing
      simp [show ¬34 < s by omega, show ¬33 < s by omega, show ¬32 < s by omega]
    · -- at 33 the mantissa has at most two bytes
      have h32 : ¬(65535 < w ∧ 32 < s) := fun h => absurd (h33 h.2) (by omega)
      simp only [UInt32.lt_iff_toNat_lt, hwd', show (255 : UInt32).toNat = 255 from rfl,
        show (65535 : UInt32).toNat = 65535 from rfl]
      simp [show ¬34 < s by omega, show ¬33 < s by omega]
      omega

/-- Without the overflow flag, `SetCompact`'s value is a 23-bit mantissa times a power of `256`:
the shift loses nothing modulo `2^256`. -/
theorem setCompact_value_eq_mul {nCompact : UInt32} (h : (setCompact nCompact).fOverflow = false) :
    ∃ m t, m < 2 ^ 23 ∧ (setCompact nCompact).value.toNat = m * 256 ^ t := by
  have hw := nWordOf_lt nCompact
  rw [toNat_setCompact_eq, compactValue]
  split_ifs with h3
  · exact ⟨_, 0, lt_of_le_of_lt (Nat.div_le_self _ _) hw, by rw [Nat.pow_zero, Nat.mul_one]⟩
  · refine ⟨nWordOf nCompact, nSizeOf nCompact - 3, hw, Nat.mod_eq_of_lt ?_⟩
    by_cases hw0 : nWordOf nCompact = 0
    · rw [hw0, Nat.zero_mul]
      positivity
    · -- the overflow checks bound the exponent by the mantissa's byte count
      have hne : nCompact &&& 0x007fffff ≠ 0 := fun h0 => hw0 (by rw [nWordOf, h0]; rfl)
      have hsz : (nCompact >>> 24).toNat = nSizeOf nCompact := rfl
      have hwd : (nCompact &&& 0x007fffff).toNat = nWordOf nCompact := rfl
      simp only [setCompact, hsz, if_neg h3, UInt32.lt_iff_toNat_lt, hwd,
        show (255 : UInt32).toNat = 255 from rfl, show (65535 : UInt32).toNat = 65535 from rfl] at h
      simp [hne] at h
      rcases Nat.lt_or_ge (nWordOf nCompact) 256 with h1 | h1
      · exact mul_pow_256_lt (j := 1) (by omega) (by omega)
      rcases Nat.lt_or_ge (nWordOf nCompact) 65536 with h2 | h2
      · exact mul_pow_256_lt (j := 2) (by omega) (by omega)
      · exact mul_pow_256_lt (j := 3) (by omega) (by omega)

/-- **`GetCompact` then `SetCompact`**: `GetCompact` never fails; `SetCompact` of its result
raises no overflow, and no sign for a non-negative request; the decoded value keeps exactly the
bytes of `x` above the exponent's `nSize - 3` low ones; and `GetCompact` of it gives the same
compact value again. -/
theorem getCompact_setCompact (x : ArithUint256) (fNegative : Bool) :
    ∃ nCompact, getCompact x fNegative = .ok nCompact ∧
      (fNegative = false → (setCompact nCompact).fNegative = false) ∧
      (setCompact nCompact).fOverflow = false ∧
      (setCompact nCompact).value.toNat =
        x.toNat / 256 ^ (nSizeOf nCompact - 3) * 256 ^ (nSizeOf nCompact - 3) ∧
      getCompact (setCompact nCompact).value fNegative = .ok nCompact := by
  have hx : x.toNat < 2 ^ 256 := x.toNat_lt
  have hw := compactOf_fst_lt x.toNat
  obtain ⟨hs, h33⟩ := compactOf_snd_le hx
  obtain ⟨hval, hneg, hov⟩ :=
    @setCompact_compactBits _ _ (fNegative && (compactOf x.toNat).1 != 0) hw hs h33
  have hsz := (@compactBits_fields _ (compactOf x.toNat).2
    (fNegative && (compactOf x.toNat).1 != 0) hw (by omega)).1
  refine ⟨_, getCompact_eq x fNegative, fun hf => hneg (by simp [hf]), hov, ?_, ?_⟩
  · rw [hval, hsz, compactValue_compactOf hx]
  · rw [getCompact_eq, hval, compactOf_compactValue hx]

attribute [ext] Decoded

/-- **`SetCompact`, `GetCompact`, `SetCompact`**: a compact value that decodes without a sign
or an overflow decodes to a number `GetCompact` encodes back to the same decoding. -/
theorem setCompact_getCompact_setCompact {nCompact : UInt32}
    (hneg : (setCompact nCompact).fNegative = false)
    (hov : (setCompact nCompact).fOverflow = false) :
    ∃ c, getCompact (setCompact nCompact).value = .ok c ∧
      setCompact c = setCompact nCompact := by
  obtain ⟨m, t, hm, hv⟩ := setCompact_value_eq_mul hov
  obtain ⟨c, hc, hneg', hov', hval, -⟩ :=
    getCompact_setCompact (setCompact nCompact).value false
  refine ⟨c, hc, Decoded.ext ?_ (by rw [hneg' rfl, hneg]) (by rw [hov', hov])⟩
  -- the exponent found again is at most the one `nCompact` has, so no byte is cut off
  have hs : nSizeOf c - 3 ≤ t := by
    have h := compactOf_snd_le_of_eq_mul (t := t) hm
    rw [← hv] at h
    have hs33 := (compactOf_snd_le (setCompact nCompact).value.toNat_lt).1
    obtain rfl := Except.ok.inj ((getCompact_eq _ false).symm.trans hc)
    rw [(compactBits_fields (compactOf_fst_lt _) (by omega)).1]
    omega
  have hdvd : 256 ^ (nSizeOf c - 3) ∣ (setCompact nCompact).value.toNat :=
    hv ▸ Dvd.dvd.mul_left (Nat.pow_dvd_pow 256 hs) m
  rw [← toNat_inj, hval, Nat.div_mul_cancel hdvd]

end ArithUint256

open ArithUint256 in
/-- **Compact round trip**: `GetCompact` never fails; decoding its result raises no overflow,
no sign for a non-negative request, and gives the top bytes of `x`, less than `256^(nSize - 3)`
below it, which `GetCompact` encodes to the same value; and a compact value that decodes without
a sign or an overflow is decoded the same after encoding and decoding again. -/
theorem compact_round_trip :
    (∀ (x : ArithUint256) (fNegative : Bool),
      ∃ nCompact, getCompact x fNegative = .ok nCompact ∧
      (fNegative = false → (setCompact nCompact).fNegative = false) ∧
      (setCompact nCompact).fOverflow = false ∧
      (setCompact nCompact).value ≤ x ∧
      (setCompact nCompact).value.toNat =
        x.toNat / 256 ^ (nSizeOf nCompact - 3) * 256 ^ (nSizeOf nCompact - 3) ∧
      x.toNat - (setCompact nCompact).value.toNat < 256 ^ (nSizeOf nCompact - 3) ∧
      getCompact (setCompact nCompact).value fNegative = .ok nCompact) ∧
    (∀ nCompact : UInt32, (setCompact nCompact).fNegative = false →
      (setCompact nCompact).fOverflow = false →
      ∃ c, getCompact (setCompact nCompact).value = .ok c ∧
        setCompact c = setCompact nCompact) := by
  refine ⟨fun x fNegative => ?_,
    fun nCompact hneg hov => setCompact_getCompact_setCompact hneg hov⟩
  obtain ⟨c, hc, hneg, hov, hval, hre⟩ := getCompact_setCompact x fNegative
  -- the decoded value is `x` less its remainder modulo `256^(nSize - 3)`
  have hmod := Nat.mod_add_div' x.toNat (256 ^ (nSizeOf c - 3))
  have hlt := Nat.mod_lt x.toNat (show 0 < 256 ^ (nSizeOf c - 3) by positivity)
  refine ⟨c, hc, hneg, hov, BaseUint.le_iff_toNat_le.mpr (by omega), hval, by omega, hre⟩

theorem compact_round_trip_genesis :
    ∃ c, ArithUint256.getCompact (ArithUint256.setCompact 0x1d00ffff).value = .ok c ∧
      ArithUint256.setCompact c = ArithUint256.setCompact 0x1d00ffff :=
  compact_round_trip.2 0x1d00ffff (by decide) (by decide)

end Unitus
