import Mathlib.Data.Nat.Bitwise

/-!
# Lib — the bits of bytes and words

A byte's low seven bits and its top bit, read off its value: the mask `0x7F`, the test
`b & 0x80`, and `b | 0x80` that sets the top bit of a byte below `128`.  Formats that keep a sign
or a continuation flag in the top bit of a byte are read through these.

A byte used as eight flags: bit `p` tested as `(b & (1 << p)) != 0` (`and_shiftLeft_ne_zero_iff`),
set by a loop `b |= (1 << i)` (`testBit_foldl_or`; over all eight bits from `0`,
`testBit_foldl_or_range`), and a byte is non-zero exactly when a bit is
set (`ne_zero_iff_exists_testBit`).

Words used as bit arrays: the two words `pos & ~1` and `pos | 1` of a pair (`toNat_and_not_one`,
`toNat_or_one`), bit `b` of a `uint64_t` replaced by `(w & ~(1 << b)) | (v << b)`
(`getLsbD_set`), tested by `((w >> b) & 1) != 0` (`and_one_shiftRight_ne_zero_iff`), and the
masks `-(uint64_t)flag` with every bit or none set (`getLsbD_neg_ofBool`).

Bits regrouped between bytes and shorter digits, as the base64 and base32 codecs do, are read on
`Nat`: a mask `x & (2^k - 1)` is `x % 2^k` (`and_eq_mod`), and `(a << k) | b` with `b` below
`2^k` is `a * 2^k + b` (`shiftLeft_or_eq_add`); `omega` reads the shifts by numerals itself.
-/

namespace Nat

/-- A number below `256` is the value of its byte. -/
theorem toNat_toUInt8_of_lt {n : Nat} (h : n < 256) : n.toUInt8.toNat = n := by
  rw [Nat.toUInt8_eq, UInt8.toNat_ofNat', Nat.mod_eq_of_lt h]

/-- A mask of the `k` low bits. -/
theorem and_eq_mod {x m : Nat} (k : Nat) (hm : m = 2 ^ k - 1) : x &&& m = x % 2 ^ k := by
  rw [hm, Nat.and_two_pow_sub_one_eq_mod]

/-- Bits below bit `k` put under `a` shifted up by `k`: the or is a sum. -/
theorem shiftLeft_or_eq_add {a b k : Nat} (hb : b < 2 ^ k) : a <<< k ||| b = a * 2 ^ k + b := by
  rw [← Nat.shiftLeft_add_eq_or_of_lt hb, Nat.shiftLeft_eq]

end Nat

namespace UInt8

theorem toNat_and_7F (b : UInt8) : (b &&& 0x7F).toNat = b.toNat % 128 := by
  rw [UInt8.toNat_and]
  exact Nat.and_two_pow_sub_one_eq_mod _ 7

/-- A byte's low seven bits are not all clear exactly when it is not a multiple of `128`. -/
theorem and_7F_ne_zero_iff (b : UInt8) : b &&& 0x7F ≠ 0 ↔ b.toNat % 128 ≠ 0 := by
  rw [ne_eq, ← UInt8.toNat_inj, toNat_and_7F]
  simp

theorem toNat_pos {b : UInt8} (h : b ≠ 0) : 0 < b.toNat :=
  Nat.pos_of_ne_zero fun h' => h (UInt8.toNat_inj.mp h')

/-- The top bit of a byte is set exactly when the byte is at least `128`. -/
theorem and_80_ne_zero_iff (b : UInt8) : b &&& 0x80 ≠ 0 ↔ 128 ≤ b.toNat := by
  rw [ne_eq, ← UInt8.toNat_inj, UInt8.toNat_and,
    show (0x80 : UInt8).toNat = 2 ^ 7 from rfl, show (0 : UInt8).toNat = 0 from rfl,
    Nat.and_two_pow, Nat.testBit_eq_decide_div_mod_eq]
  have hb := b.toNat_lt
  by_cases h : 128 ≤ b.toNat
  · have : b.toNat / 128 % 2 = 1 := by omega
    simp [this, h]
  · have : b.toNat / 128 % 2 = 0 := by omega
    simp [this, h]

theorem and_80_eq_zero_iff (b : UInt8) : b &&& 0x80 = 0 ↔ b.toNat < 128 := by
  have := b.and_80_ne_zero_iff
  constructor
  · intro h
    by_contra hb
    exact this.mpr (by omega) h
  · intro h
    by_contra hb
    have := this.mp hb
    omega

/-- Setting the top bit of a byte below `128` adds `128`. -/
theorem toNat_or_80 {b : UInt8} (h : b.toNat < 128) : (b ||| 0x80).toNat = b.toNat + 128 := by
  rw [UInt8.toNat_or, show (0x80 : UInt8).toNat = 2 ^ 7 * 1 from rfl, Nat.or_comm,
    ← Nat.two_pow_add_eq_or_of_lt h]
  omega

/-! ### Eight flags -/

theorem toNat_one_shiftLeft_of_lt {i : Nat} (hi : i < 8) :
    ((1 : UInt8) <<< i.toUInt8).toNat = 2 ^ i := by
  have hi' : i.toUInt8.toNat = i := by
    rw [Nat.toUInt8, UInt8.toNat_ofNat', Nat.mod_eq_of_lt (by omega)]
  rw [UInt8.toNat_shiftLeft, hi', Nat.mod_eq_of_lt hi, UInt8.toNat_one, Nat.one_shiftLeft,
    Nat.mod_eq_of_lt (Nat.pow_lt_pow_right Nat.one_lt_two hi)]

/-- Bit `p` of what the loop `b |= (1 << i)` builds from `b`, over the steps `i` whose test `f`
passes: set in `b`, or set by a step `i = p`. -/
theorem testBit_foldl_or (f : Nat → Bool) {p : Nat} :
    ∀ (l : List Nat) (b : UInt8), (∀ i ∈ l, i < 8) →
      (l.foldl (fun b i => if f i then b ||| ((1 : UInt8) <<< i.toUInt8) else b) b).toNat.testBit
          p =
        (b.toNat.testBit p || l.any fun i => f i && i == p)
  | [], b, _ => by simp
  | i :: l, b, hl => by
    have hi := hl i List.mem_cons_self
    rw [List.foldl_cons, testBit_foldl_or f l _ fun j hj => hl j (List.mem_cons_of_mem i hj),
      List.any_cons]
    by_cases hf : f i = true
    · rw [if_pos hf, UInt8.toNat_or, toNat_one_shiftLeft_of_lt hi, Nat.testBit_or,
        Nat.testBit_two_pow, hf]
      by_cases hip : i = p
      · simp [hip]
      · simp [beq_false_of_ne hip, hip]
    · rw [if_neg hf]
      simp [hf]

/-- The byte that `b |= (1 << i)` for each `i < 8` whose test `f` passes builds from `0`: its bit
`p` is `f p`. -/
theorem testBit_foldl_or_range (f : Nat → Bool) {p : Nat} (hp : p < 8) :
    ((List.range 8).foldl (fun b i => if f i then b ||| ((1 : UInt8) <<< i.toUInt8) else b)
      0).toNat.testBit p = f p := by
  rw [testBit_foldl_or f (List.range 8) 0 fun i hi => List.mem_range.mp hi, UInt8.toNat_zero,
    Nat.zero_testBit, Bool.false_or, Bool.eq_iff_iff, List.any_eq_true]
  constructor
  · rintro ⟨i, -, h⟩
    rw [Bool.and_eq_true, beq_iff_eq] at h
    exact h.2 ▸ h.1
  · intro h
    exact ⟨p, List.mem_range.mpr hp, by rw [h, beq_self_eq_true]; rfl⟩

/-- Bit `p` of a byte, as `(b & (1 << p)) != 0` tests it. -/
theorem and_shiftLeft_ne_zero_iff (b : UInt8) {p : Nat} (hp : p < 8) :
    b &&& ((1 : UInt8) <<< p.toUInt8) ≠ 0 ↔ b.toNat.testBit p = true := by
  rw [ne_eq, ← UInt8.toNat_inj, UInt8.toNat_and, toNat_one_shiftLeft_of_lt hp, Nat.and_two_pow]
  cases b.toNat.testBit p <;> simp

/-- A byte is non-zero exactly when one of its eight bits is set. -/
theorem ne_zero_iff_exists_testBit (b : UInt8) :
    b ≠ 0 ↔ ∃ p < 8, b.toNat.testBit p = true := by
  constructor
  · intro hb
    by_contra hno
    push Not at hno
    apply hb
    apply UInt8.toNat_inj.mp
    apply Nat.zero_of_testBit_eq_false
    intro i
    by_cases hi : i < 8
    · exact Bool.eq_false_iff.mpr (hno i hi)
    · -- a byte has no bit from `8` on
      exact Nat.testBit_eq_false_of_lt
        (lt_of_lt_of_le b.toNat_lt (Nat.pow_le_pow_right Nat.two_pos (by omega)))
  · rintro ⟨p, -, h⟩ rfl
    simp at h

end UInt8

/-! ### Pairs of words -/

namespace UInt32

/-- `pos & ~1`: the first word of `pos`'s pair. -/
theorem toNat_and_not_one (pos : UInt32) : (pos &&& ~~~1).toNat = 2 * (pos.toNat / 2) := by
  have hlt := pos.toNat_lt
  rw [UInt32.toNat_and, UInt32.toNat_not]
  apply Nat.eq_of_testBit_eq
  intro i
  rw [Nat.testBit_and]
  rcases i with _ | i
  · simp [Nat.testBit_zero]
  · -- above bit `0`, `~1` keeps every bit of a number below `2^32`
    have hkeep : (pos.toNat / 2).testBit i = true → i < 31 := by
      intro h
      by_contra hi
      rw [Nat.testBit_eq_false_of_lt (lt_of_lt_of_le (by omega)
        (Nat.pow_le_pow_right Nat.two_pos (not_lt.mp hi)))] at h
      exact Bool.false_ne_true h
    simp only [Nat.testBit_succ,
      show (UInt32.size - 1 - (1 : UInt32).toNat) / 2 = 2 ^ 31 - 1 by rfl,
      Nat.testBit_two_pow_sub_one, Nat.mul_div_cancel_left _ Nat.two_pos]
    cases h : (pos.toNat / 2).testBit i
    · rfl
    · simpa using hkeep h

/-- `pos | 1`: the second word of `pos`'s pair. -/
theorem toNat_or_one (pos : UInt32) : (pos ||| 1).toNat = 2 * (pos.toNat / 2) + 1 := by
  rw [UInt32.toNat_or]
  apply Nat.eq_of_testBit_eq
  intro i
  rw [Nat.testBit_or]
  rcases i with _ | i
  · simp [Nat.testBit_zero]
  · simp [Nat.testBit_succ, Nat.mul_add_div Nat.two_pos]

end UInt32

namespace UInt64

theorem toNat_toBitVec_toUInt64_mod {b : Nat} (hb : b < 64) :
    (b.toUInt64.toBitVec % 64).toNat = b := by
  simp [BitVec.toNat_umod]
  omega

/-- The bits above the lowest of a word that is `0` or `1` are clear. -/
theorem getLsbD_of_le_one {v : UInt64} (hv : v ≤ 1) {k : Nat} (hk : 0 < k) :
    v.toBitVec.getLsbD k = false := by
  rw [← BitVec.testBit_toNat, UInt64.toNat_toBitVec]
  apply Nat.testBit_eq_false_of_lt
  have : v.toNat ≤ 1 := UInt64.le_iff_toNat_le.mp hv
  calc v.toNat < 2 ^ 1 := by omega
    _ ≤ 2 ^ k := Nat.pow_le_pow_right Nat.two_pos hk

/-- `(w & ~(1 << b)) | (v << b)` for `v` a bit: bit `b` becomes `v`, the others stay. -/
theorem getLsbD_set (w v : UInt64) {b i : Nat} (hv : v ≤ 1) (hb : b < 64) (hi : i < 64) :
    ((w &&& ~~~((1 : UInt64) <<< b.toUInt64)) ||| (v <<< b.toUInt64)).toBitVec.getLsbD i =
      if i = b then v.toBitVec.getLsbD 0 else w.toBitVec.getLsbD i := by
  simp only [UInt64.toBitVec_or, UInt64.toBitVec_and, UInt64.toBitVec_not,
    UInt64.toBitVec_shiftLeft, BitVec.shiftLeft_eq', toNat_toBitVec_toUInt64_mod hb,
    BitVec.getLsbD_or, BitVec.getLsbD_and, BitVec.getLsbD_not, BitVec.getLsbD_shiftLeft,
    UInt64.toBitVec_one, BitVec.getLsbD_one]
  by_cases hib : i = b
  · subst hib
    simp [hi]
  · rcases Nat.lt_or_ge i b with h | h
    · simp [hib, hi, h]
    · -- above `b`, the shifted `v` has only clear bits
      simp [hib, hi, getLsbD_of_le_one hv (show 0 < i - b by omega)]
      exact fun _ => .inr (by omega)

/-- `((w >> b) & 1) != 0` tests bit `b`. -/
theorem and_one_shiftRight_ne_zero_iff (w : UInt64) {b : Nat} (hb : b < 64) :
    (w >>> b.toUInt64) &&& 1 ≠ 0 ↔ w.toBitVec.getLsbD b = true := by
  have hmod : b.toUInt64.toNat % 64 = b := by simp; omega
  rw [← BitVec.testBit_toNat, UInt64.toNat_toBitVec, ne_eq, ← UInt64.toNat_inj,
    UInt64.toNat_and, UInt64.toNat_shiftRight, hmod, Nat.testBit, Nat.land_comm]
  simp

/-- `-(uint64_t)flag`: every bit set for a set flag, none for a clear one. -/
theorem getLsbD_neg_ofBool (t : Bool) {i : Nat} (hi : i < 64) :
    (-(if t then 1 else 0 : UInt64)).toBitVec.getLsbD i = t := by
  cases t
  · simp
  · rw [if_pos rfl, UInt64.toBitVec_neg, UInt64.toBitVec_one, BitVec.neg_one_eq_allOnes,
      BitVec.getLsbD_allOnes, decide_eq_true hi]

end UInt64
