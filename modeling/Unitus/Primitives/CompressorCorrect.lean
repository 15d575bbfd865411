import Unitus.Primitives.Compressor
import Unitus.Primitives.Coins

/-!
# Primitives — the compressed serialization reads back

The amount code is a bijection on numbers: `decompressAmountNat` and `compressAmountNat`
invert each other (`decompressAmountNat_compressAmountNat`,
`compressAmountNat_decompressAmountNat`).  On `uint64_t` the source computes both modulo
`2^64` (`toNat_CompressAmount`, `toNat_DecompressAmount`): so every amount up to `MAX_MONEY`
decodes back, and every code whose amount does not wrap is the code of that amount
(`CompressAmount_round_trip`).  A code whose amount wraps decodes to the wrapped amount, whose
own code is another (`DecompressAmount_wraps`).

A script that one of the recognisers accepts is the template around the bytes it returns
(`eq_of_IsToKeyID`, `eq_of_IsToScriptID`, `eq_of_IsToPubKey`); so what `Compress` writes,
`Decompress` turns back into the script (`Decompress_Compress`), given that libsecp256k1
recovers a full key from its x coordinate and parity (`PubKeyOps.DecompressRecovers`).  Every
script up to `MAX_SCRIPT_SIZE` then reads back as itself (`CScriptCompressor_round_trip`); a
longer one is skipped and read as `OP_RETURN` while its size fits an `int`, and from `2^31`
bytes on `ignore` is handed a negative size and the read throws
(`CScriptCompressor_long_script_throws`).
-/

namespace Unitus

open Codec

/-! ### The amount code on numbers -/

/-- `n` with up to `k` trailing decimal zeros taken off, and how many were. -/
def stripTens : Nat → Nat → Nat × Nat
  | 0, n => (n, 0)
  | k + 1, n =>
    if n % 10 = 0 then ((stripTens k (n / 10)).1, (stripTens k (n / 10)).2 + 1) else (n, 0)

/-- The amount code on numbers: `0` for `0`; otherwise, with `e` trailing zeros taken off (at
most nine) leaving `n`, `1 + 10 * (9 * (n / 10) + n % 10 - 1) + e` below nine and
`1 + 10 * (n - 1) + 9` at nine. -/
def compressAmountNat (n : Nat) : Nat :=
  if n = 0 then 0
  else if (stripTens 9 n).2 < 9 then
    1 + ((stripTens 9 n).1 / 10 * 9 + (stripTens 9 n).1 % 10 - 1) * 10 + (stripTens 9 n).2
  else 1 + ((stripTens 9 n).1 - 1) * 10 + 9

/-- The amount a code stands for, on numbers. -/
def decompressAmountNat (x : Nat) : Nat :=
  if x = 0 then 0
  else
    (if (x - 1) % 10 < 9 then (x - 1) / 10 / 9 * 10 + ((x - 1) / 10 % 9 + 1)
      else (x - 1) / 10 + 1) * 10 ^ ((x - 1) % 10)

theorem stripTens_spec : ∀ (k n : Nat),
    n = (stripTens k n).1 * 10 ^ (stripTens k n).2 ∧ (stripTens k n).2 ≤ k ∧
      ((stripTens k n).2 < k → (stripTens k n).1 % 10 ≠ 0)
  | 0, n => by simp [stripTens]
  | k + 1, n => by
    by_cases h : n % 10 = 0
    · obtain ⟨he, hle, hlt⟩ := stripTens_spec k (n / 10)
      simp only [stripTens, if_pos h]
      refine ⟨?_, by omega, fun h' => hlt (by omega)⟩
      rw [Nat.pow_succ, ← Nat.mul_assoc, ← he]
      omega
    · simp [stripTens, h]

theorem stripTens_mul : ∀ {k j m : Nat}, j ≤ k → (j < k → m % 10 ≠ 0) →
    stripTens k (m * 10 ^ j) = (m, j)
  | 0, j, m, hj, _ => by
    obtain rfl : j = 0 := by omega
    simp [stripTens]
  | k + 1, 0, m, _, hm => by
    simp [stripTens, hm (by omega)]
  | k + 1, j + 1, m, hj, hm => by
    have h10 : m * 10 ^ (j + 1) % 10 = 0 := by
      rw [Nat.pow_succ, ← Nat.mul_assoc]
      exact Nat.mul_mod_left _ _
    have hdiv : m * 10 ^ (j + 1) / 10 = m * 10 ^ j := by
      rw [Nat.pow_succ, ← Nat.mul_assoc, Nat.mul_div_cancel _ (by norm_num)]
    have ih := @stripTens_mul k j m (by omega) fun h => hm (by omega)
    simp only [stripTens, if_pos h10, hdiv, ih]

/-- **The amount code decodes**: `decompressAmountNat` inverts `compressAmountNat`. -/
theorem decompressAmountNat_compressAmountNat (n : Nat) :
    decompressAmountNat (compressAmountNat n) = n := by
  rcases Nat.eq_zero_or_pos n with rfl | hn
  · simp [compressAmountNat, decompressAmountNat]
  obtain ⟨he, hle, hlt⟩ := stripTens_spec 9 n
  rw [compressAmountNat, if_neg hn.ne']
  generalize stripTens 9 n = p at he hle hlt ⊢
  obtain ⟨m, e⟩ := p
  dsimp only at he hle hlt ⊢
  have hm : m ≠ 0 := by rintro rfl; simp at he; omega
  by_cases h9 : e < 9
  · -- below nine zeros the last digit `m % 10` is not zero, and comes back as `q % 9 + 1`
    have hd := hlt h9
    rw [if_pos h9, decompressAmountNat, if_neg (by omega),
      show (1 + (m / 10 * 9 + m % 10 - 1) * 10 + e - 1) % 10 = e by omega, if_pos h9,
      show (1 + (m / 10 * 9 + m % 10 - 1) * 10 + e - 1) / 10 = m / 10 * 9 + (m % 10 - 1) by omega,
      show (m / 10 * 9 + (m % 10 - 1)) / 9 = m / 10 by omega,
      show (m / 10 * 9 + (m % 10 - 1)) % 9 = m % 10 - 1 by omega, he]
    congr 1
    omega
  · -- nine zeros: the code is `10 * m`
    obtain rfl : e = 9 := by omega
    rw [if_neg h9, decompressAmountNat, if_neg (by omega),
      show (1 + (m - 1) * 10 + 9 - 1) % 10 = 9 by omega, if_neg h9,
      show (1 + (m - 1) * 10 + 9 - 1) / 10 = m - 1 by omega, he]
    congr 1
    omega

/-- **Every code is the code of its amount**: `compressAmountNat` inverts
`decompressAmountNat`. -/
theorem compressAmountNat_decompressAmountNat (x : Nat) :
    compressAmountNat (decompressAmountNat x) = x := by
  rcases Nat.eq_zero_or_pos x with rfl | hx
  · simp [compressAmountNat, decompressAmountNat]
  rw [decompressAmountNat, if_neg hx.ne']
  generalize hq : (x - 1) / 10 = q
  generalize he : (x - 1) % 10 = e
  have hx' : x = 1 + q * 10 + e := by omega
  subst hx'
  have he10 : e < 10 := by omega
  by_cases h9 : e < 9
  · -- the amount is `m * 10^e` with `m`'s last digit `q % 9 + 1`, not zero
    have hm : (q / 9 * 10 + (q % 9 + 1)) % 10 ≠ 0 := by omega
    rw [if_pos h9, compressAmountNat, if_neg (Nat.mul_ne_zero (by omega) (by positivity)),
      stripTens_mul (by omega) fun _ => hm, if_pos h9]
    dsimp only
    rw [show (q / 9 * 10 + (q % 9 + 1)) / 10 = q / 9 by omega,
      show (q / 9 * 10 + (q % 9 + 1)) % 10 = q % 9 + 1 by omega]
    omega
  · -- nine zeros taken off `(q + 1) * 10^9`
    obtain rfl : e = 9 := by omega
    rw [if_neg h9, compressAmountNat, if_neg (Nat.mul_ne_zero (by omega) (by positivity)),
      stripTens_mul (m := q + 1) le_rfl fun h => absurd h h9, if_neg h9]
    dsimp only
    omega


/-- An amount's code is at most ten times the amount. -/
theorem compressAmountNat_le (n : Nat) : compressAmountNat n ≤ 10 * n := by
  rcases Nat.eq_zero_or_pos n with rfl | hn
  · simp [compressAmountNat]
  obtain ⟨he, -, -⟩ := stripTens_spec 9 n
  have hm : (stripTens 9 n).1 ≤ n := by
    conv_rhs => rw [he]
    exact Nat.le_mul_of_pos_right _ (by positivity)
  rw [compressAmountNat, if_neg hn.ne']
  split_ifs <;> omega

/-! ### On `uint64_t` -/

/-- `CompressAmount`'s loop takes the zeros off the value exactly: it never wraps. -/
theorem compressAmountLoop_eq : ∀ (k : Nat) (n : UInt64) (e : Nat),
    compressAmountLoop k n e =
      (UInt64.ofNat (stripTens k n.toNat).1, e + (stripTens k n.toNat).2)
  | 0, n, e => by simp [compressAmountLoop, stripTens]
  | k + 1, n, e => by
    have hmod : (n % 10 = 0) ↔ n.toNat % 10 = 0 := by
      rw [← UInt64.toNat_inj, UInt64.toNat_mod]
      rfl
    by_cases h : n.toNat % 10 = 0
    · rw [compressAmountLoop, if_pos (hmod.mpr h), compressAmountLoop_eq k, stripTens, if_pos h,
        UInt64.toNat_div, show (10 : UInt64).toNat = 10 from rfl, Nat.add_assoc, Nat.add_comm 1]
    · rw [compressAmountLoop, if_neg (mt hmod.mp h), stripTens, if_neg h]
      simp

/-- **`CompressAmount` on `uint64_t`** computes the amount code wherever the code fits 64 bits:
the loop and the digit never wrap, and then neither do the last products and sums. -/
theorem toNat_CompressAmount {n : UInt64} (h : compressAmountNat n.toNat < 2 ^ 64) :
    (CompressAmount n).toNat = compressAmountNat n.toNat := by
  by_cases h0 : n = 0
  · subst h0
    rfl
  have hn : n.toNat ≠ 0 := fun h => h0 (UInt64.toNat_inj.mp h)
  obtain ⟨he, hle, hlt⟩ := stripTens_spec 9 n.toNat
  have hlt64 := n.toNat_lt
  rw [CompressAmount, if_neg h0, compressAmountLoop_eq]
  rw [compressAmountNat, if_neg hn] at h ⊢
  generalize stripTens 9 n.toNat = p at he hle hlt h ⊢
  obtain ⟨m, e⟩ := p
  dsimp only at he hle hlt h ⊢
  have hm : m ≠ 0 := by rintro rfl; simp at he; omega
  have hm64 : m < 2 ^ 64 :=
    lt_of_le_of_lt (by rw [he]; exact Nat.le_mul_of_pos_right _ (by positivity)) hlt64
  have hmv : (UInt64.ofNat m).toNat = m := by
    rw [UInt64.toNat_ofNat']
    exact Nat.mod_eq_of_lt hm64
  generalize UInt64.ofNat m = u at hmv ⊢
  rw [Nat.zero_add]
  split_ifs at h ⊢ with h9
  · -- the digit is not zero, so `9 * (n / 10) + d - 1` does not wrap below zero
    have hd := hlt h9
    have hsub : 1 ≤ u / 10 * 9 + u % 10 := by
      rw [UInt64.le_iff_toNat_le]
      simp (disch := omega) only [UInt64.toNat_add, UInt64.toNat_mul, UInt64.toNat_div,
        UInt64.toNat_mod, hmv, UInt64.toNat_one, UInt64.reduceToNat, Nat.mod_eq_of_lt]
      omega
    simp (disch := omega) only [UInt64.toNat_add, UInt64.toNat_mul, UInt64.toNat_div,
      UInt64.toNat_mod, UInt64.toNat_sub_of_le _ _ hsub, hmv, UInt64.toNat_one, UInt64.reduceToNat,
      Nat.mod_eq_of_lt]
    rw [UInt64.toNat_ofNat_of_lt' (by simp [UInt64.size]; omega), Nat.mod_eq_of_lt h]
  · have hsub : 1 ≤ u := by
      rw [UInt64.le_iff_toNat_le, hmv, UInt64.toNat_one]
      omega
    simp (disch := omega) only [UInt64.toNat_add, UInt64.toNat_mul, UInt64.toNat_sub_of_le _ _ hsub,
      hmv, UInt64.toNat_one, UInt64.reduceToNat, Nat.mod_eq_of_lt]

theorem UInt64_toNat_ten : (10 : UInt64).toNat = 10 := rfl

/-- `DecompressAmount`'s loop multiplies by `10^e` modulo `2^64`. -/
theorem toNat_decompressAmountLoop : ∀ (e : Nat) (n : UInt64),
    (decompressAmountLoop e n).toNat = n.toNat * 10 ^ e % 2 ^ 64
  | 0, n => by simp [decompressAmountLoop, Nat.mod_eq_of_lt n.toNat_lt]
  | e + 1, n => by
    rw [decompressAmountLoop, toNat_decompressAmountLoop e, UInt64.toNat_mul, UInt64_toNat_ten,
      Nat.mod_mul_mod]
    congr 1
    ring

/-- **`DecompressAmount` on `uint64_t`** is the amount of the code modulo `2^64`: only the last
loop, multiplying by ten, wraps. -/
theorem toNat_DecompressAmount (x : UInt64) :
    (DecompressAmount x).toNat = decompressAmountNat x.toNat % 2 ^ 64 := by
  by_cases h0 : x = 0
  · subst h0
    rfl
  have hx : x.toNat ≠ 0 := fun h => h0 (UInt64.toNat_inj.mp h)
  have hlt := x.toNat_lt
  have hsub : 1 ≤ x := by
    rw [UInt64.le_iff_toNat_le, UInt64.toNat_one]
    omega
  have hx1 : (x - 1).toNat = x.toNat - 1 := by
    rw [UInt64.toNat_sub_of_le _ _ hsub, UInt64.toNat_one]
  rw [DecompressAmount, if_neg h0, decompressAmountNat, if_neg hx]
  dsimp only
  have he : ((x - 1) % 10).toNat = (x.toNat - 1) % 10 := by
    rw [UInt64.toNat_mod, hx1, UInt64_toNat_ten]
  have he9 : (x - 1) % 10 < 9 ↔ (x.toNat - 1) % 10 < 9 := by
    rw [UInt64.lt_iff_toNat_lt, he]
    rfl
  have hq : ((x - 1) / 10).toNat = (x.toNat - 1) / 10 := by
    rw [UInt64.toNat_div, hx1, UInt64_toNat_ten]
  rw [toNat_decompressAmountLoop, he]
  congr 2
  by_cases h9 : (x.toNat - 1) % 10 < 9
  · -- `q / 9 * 10 + (q % 9 + 1)` stays below `2^64`, as `q` is a tenth of `x`
    rw [if_pos (he9.mpr h9), if_pos h9]
    simp (disch := omega) only [UInt64.toNat_add, UInt64.toNat_mul, UInt64.toNat_div,
      UInt64.toNat_mod, hq, UInt64.toNat_one, UInt64.reduceToNat, Nat.mod_eq_of_lt]
  · rw [if_neg (mt he9.mp h9), if_neg h9]
    simp (disch := omega) only [UInt64.toNat_add, hq, UInt64.toNat_one, Nat.mod_eq_of_lt]

/-- An amount up to `MAX_MONEY` decompresses back from its code. -/
theorem DecompressAmount_CompressAmount {n : UInt64} (hn : (n.toNat : Int) ≤ MAX_MONEY) :
    DecompressAmount (CompressAmount n) = n := by
  -- an amount in range has a code below `10^17`, which does not wrap
  have hn' : n.toNat ≤ 10 ^ 16 := by
    simp only [MAX_MONEY, COIN] at hn
    omega
  have hc : compressAmountNat n.toNat < 2 ^ 64 :=
    lt_of_le_of_lt (compressAmountNat_le _) (by omega)
  apply UInt64.toNat_inj.mp
  rw [toNat_DecompressAmount, toNat_CompressAmount hc, decompressAmountNat_compressAmountNat,
    Nat.mod_eq_of_lt n.toNat_lt]

/-- **Amount compression round trip.**  Every amount up to `MAX_MONEY` decompresses back from its
code; and every code whose amount does not wrap 64 bits is the code of that amount. -/
theorem CompressAmount_round_trip :
    (∀ n : UInt64, (n.toNat : Int) ≤ MAX_MONEY → DecompressAmount (CompressAmount n) = n) ∧
      (∀ x : UInt64, decompressAmountNat x.toNat < 2 ^ 64 →
        CompressAmount (DecompressAmount x) = x) := by
  refine ⟨fun n hn => DecompressAmount_CompressAmount hn, fun x hx => ?_⟩
  have hd : (DecompressAmount x).toNat = decompressAmountNat x.toNat := by
    rw [toNat_DecompressAmount, Nat.mod_eq_of_lt hx]
  have hc : compressAmountNat (DecompressAmount x).toNat < 2 ^ 64 := by
    rw [hd, compressAmountNat_decompressAmountNat]
    exact x.toNat_lt
  apply UInt64.toNat_inj.mp
  rw [toNat_CompressAmount hc, hd, compressAmountNat_decompressAmountNat]

/-- Fifty coins: the amount goes to its code and back, and its code, whose amount fits in 64 bits,
to the amount and back. -/
theorem CompressAmount_round_trip_fifty :
    ((5000000000 : UInt64).toNat : Int) ≤ MAX_MONEY ∧
      DecompressAmount (CompressAmount 5000000000) = 5000000000 ∧
      decompressAmountNat (CompressAmount 5000000000).toNat < 2 ^ 64 ∧
      CompressAmount (DecompressAmount (CompressAmount 5000000000)) = CompressAmount 5000000000 := by
  have hn : ((5000000000 : UInt64).toNat : Int) ≤ MAX_MONEY := by decide
  have hx : decompressAmountNat (CompressAmount 5000000000).toNat < 2 ^ 64 := by decide
  exact ⟨hn, CompressAmount_round_trip.1 _ hn, hx, CompressAmount_round_trip.2 _ hx⟩

/-- The code `184467440740` stands for `18446744074 * 10^9`, which wraps to `290448384`: an
amount in range, whose own code is `2614035451`. -/
theorem DecompressAmount_wraps :
    DecompressAmount 184467440740 = 290448384 ∧
      ((290448384 : UInt64).toNat : Int) ≤ MAX_MONEY ∧
      CompressAmount 290448384 = 2614035451 := by
  decide

/-! ### Scripts -/

/-- What the round trip needs of libsecp256k1: `CPubKey::Decompress` recovers every fully valid
uncompressed key from the parity of its y coordinate, as the prefix `0x02` or `0x03`, and its
x coordinate. -/
def PubKeyOps.DecompressRecovers (ops : PubKeyOps) : Prop :=
  ∀ pubkey : List UInt8, pubkey.length = 65 → pubkey.getD 0 0 = 0x04 →
    ops.IsFullyValid pubkey = true →
    (ops.Decompress ((if pubkey.getD 64 0 % 2 = 0 then 0x02 else 0x03) ::
      (pubkey.drop 1).take 32)).map Subtype.val = some pubkey

/-- The low bit of a byte, as `&&& 0x01` takes it and as its parity. -/
theorem and_one_cases (b : UInt8) :
    b &&& 0x01 = 0 ∧ b % 2 = 0 ∨ b &&& 0x01 = 1 ∧ b % 2 ≠ 0 := by
  have hand : (b &&& 0x01).toNat = b.toNat % 2 := by
    rw [UInt8.toNat_and]
    exact Nat.and_one_is_mod _
  have hmod : (b % 2).toNat = b.toNat % 2 := UInt8.toNat_mod b 2
  rcases Nat.mod_two_eq_zero_or_one b.toNat with h | h
  · exact .inl ⟨UInt8.toNat_inj.mp (by rw [hand, h]; rfl),
      UInt8.toNat_inj.mp (by rw [hmod, h]; rfl)⟩
  · refine .inr ⟨UInt8.toNat_inj.mp (by rw [hand, h]; rfl), fun h2 => ?_⟩
    have := congrArg UInt8.toNat h2
    rw [hmod, h] at this
    exact absurd this (by decide)

/-- A script `IsToKeyID` recognises is the template around the 20 bytes it returns. -/
theorem eq_of_IsToKeyID {script keyID : CScript} (h : IsToKeyID script = some keyID) :
    keyID.length = 20 ∧
      script = [OP_DUP, OP_HASH160, 20] ++ keyID ++ [OP_EQUALVERIFY, OP_CHECKSIG] := by
  unfold IsToKeyID at h
  split_ifs at h with hs
  obtain ⟨hlen, h0, h1, h2, h23, h24⟩ := hs
  cases h
  refine ⟨by simp [hlen], eq_frame_of_getD (d := 0) (by simp [hlen]) ?_ ?_⟩
  · intro i hi
    simp only [List.length_cons, List.length_nil] at hi
    interval_cases i
    exacts [h0, h1, h2]
  · intro i hi
    simp only [List.length_cons, List.length_nil] at hi
    interval_cases i
    exacts [h23, h24]

/-- A script `IsToScriptID` recognises is the template around the 20 bytes it returns. -/
theorem eq_of_IsToScriptID {script scriptID : CScript} (h : IsToScriptID script = some scriptID) :
    scriptID.length = 20 ∧ script = [OP_HASH160, 20] ++ scriptID ++ [OP_EQUAL] := by
  unfold IsToScriptID at h
  split_ifs at h with hs
  obtain ⟨hlen, h0, h1, h22⟩ := hs
  cases h
  refine ⟨by simp [hlen], eq_frame_of_getD (d := 0) (by simp [hlen]) ?_ ?_⟩
  · intro i hi
    simp only [List.length_cons, List.length_nil] at hi
    interval_cases i
    exacts [h0, h1]
  · intro i hi
    simp only [List.length_cons, List.length_nil] at hi
    interval_cases i
    exact h22

/-- A script `IsToPubKey` recognises pushes the key it returns and checks a signature: a
compressed key of 33 bytes, or a fully valid key of 65. -/
theorem eq_of_IsToPubKey {ops : PubKeyOps} {script pubkey : CScript}
    (h : IsToPubKey ops script = some pubkey) :
    script = [33] ++ pubkey ++ [OP_CHECKSIG] ∧ pubkey.length = 33 ∧
        (pubkey.getD 0 0 = 0x02 ∨ pubkey.getD 0 0 = 0x03) ∨
      script = [65] ++ pubkey ++ [OP_CHECKSIG] ∧ pubkey.length = 65 ∧ pubkey.getD 0 0 = 0x04 ∧
        ops.IsFullyValid pubkey = true := by
  unfold IsToPubKey at h
  dsimp only at h
  split_ifs at h with hs hs' hvalid
  · obtain ⟨hlen, h0, h34, h1⟩ := hs
    cases h
    refine .inl ⟨eq_frame_of_getD (d := 0) (by simp [hlen]) ?_ ?_, by simp [hlen],
      by simpa using h1⟩
    · intro i hi
      simp only [List.length_cons, List.length_nil] at hi
      interval_cases i
      exact h0
    · intro i hi
      simp only [List.length_cons, List.length_nil] at hi
      interval_cases i
      exact h34
  · obtain ⟨hlen, h0, h66, h1⟩ := hs'
    cases h
    refine .inr ⟨eq_frame_of_getD (d := 0) (by simp [hlen]) ?_ ?_, by simp [hlen],
      by simpa using h1,
      hvalid⟩
    · intro i hi
      simp only [List.length_cons, List.length_nil] at hi
      interval_cases i
      exact h0
    · intro i hi
      simp only [List.length_cons, List.length_nil] at hi
      interval_cases i
      exact h66

/-- **What `Compress` writes, `Decompress` reads back**: a kind byte below `nSpecialScripts`,
the bytes `GetSpecialSize` gives for it, and from them the script itself. -/
theorem Decompress_Compress {ops : PubKeyOps} (hdec : ops.DecompressRecovers)
    {script compr : CScript} (h : Compress ops script = some compr) :
    ∃ nSize vch, compr = nSize :: vch ∧ nSize.toNat < nSpecialScripts ∧
      vch.length = GetSpecialSize nSize.toNat ∧ Decompress ops nSize.toNat vch = some script := by
  unfold Compress at h
  split at h
  · -- pay to a key hash
    next keyID hk =>
    obtain ⟨hlen, rfl⟩ := eq_of_IsToKeyID hk
    cases h
    refine ⟨0x00, keyID, rfl, by decide, by simp [GetSpecialSize, hlen], ?_⟩
    simp [Decompress, List.take_of_length_le hlen.le]
  split at h
  · -- pay to a script hash
    next scriptID hs =>
    obtain ⟨hlen, rfl⟩ := eq_of_IsToScriptID hs
    cases h
    refine ⟨0x01, scriptID, rfl, by decide, by simp [GetSpecialSize, hlen], ?_⟩
    simp [Decompress, List.take_of_length_le hlen.le]
  split at h
  · next pubkey hp =>
    split_ifs at h with hc hu
    · -- a compressed key: its prefix is the kind
      cases h
      rcases eq_of_IsToPubKey hp with ⟨rfl, hlen, -⟩ | ⟨-, -, h0, -⟩
      · obtain ⟨b, tail, rfl⟩ := List.exists_cons_of_length_pos (by omega : 0 < pubkey.length)
        replace hlen : tail.length = 32 := by simpa using hlen
        simp only [List.getD_cons_zero] at hc ⊢
        rcases hc with rfl | rfl
        · refine ⟨0x02, tail, by simp [List.take_of_length_le hlen.le], by decide,
            by simp [GetSpecialSize, hlen], ?_⟩
          simp [Decompress, List.take_of_length_le hlen.le]
        · refine ⟨0x03, tail, by simp [List.take_of_length_le hlen.le], by decide,
            by simp [GetSpecialSize, hlen], ?_⟩
          simp [Decompress, List.take_of_length_le hlen.le]
      · rw [h0] at hc
        exact absurd hc (by decide)
    · -- a full key: the kind keeps the parity of `y`, from which the key is recovered
      cases h
      rcases eq_of_IsToPubKey hp with ⟨-, -, h0 | h0⟩ | ⟨rfl, hlen, h0, hvalid⟩
      · exact absurd h0 (by simp_all)
      · exact absurd h0 (by simp_all)
      have hx : ((pubkey.drop 1).take 32).length = 32 := by simp [hlen]
      have hrec := hdec pubkey hlen h0 hvalid
      rcases and_one_cases (pubkey.getD 64 0) with ⟨h1, h2⟩ | ⟨h1, h2⟩
      · rw [if_pos h2, Option.map_eq_some_iff] at hrec
        obtain ⟨pk, hpk, hpk'⟩ := hrec
        refine ⟨0x04, (pubkey.drop 1).take 32, by rw [h1]; rfl, by decide,
          by simp [GetSpecialSize, hlen], ?_⟩
        show Decompress ops 4 _ = _
        rw [Decompress, if_neg (by decide), if_neg (by decide), if_neg (by decide),
          if_pos (by decide), List.take_of_length_le hx.le,
          show (4 - 2 : Nat).toUInt8 = 0x02 from rfl, hpk]
        subst hpk'
        rfl
      · rw [if_neg h2, Option.map_eq_some_iff] at hrec
        obtain ⟨pk, hpk, hpk'⟩ := hrec
        refine ⟨0x05, (pubkey.drop 1).take 32, by rw [h1]; rfl, by decide,
          by simp [GetSpecialSize, hlen], ?_⟩
        show Decompress ops 5 _ = _
        rw [Decompress, if_neg (by decide), if_neg (by decide), if_neg (by decide),
          if_pos (by decide), List.take_of_length_le hx.le,
          show (5 - 2 : Nat).toUInt8 = 0x03 from rfl, hpk]
        subst hpk'
        rfl
  · cases h

/-- `VARINT(size + 6)` of a script no longer than `MAX_SCRIPT_SIZE` reads back as that size. -/
theorem toNat_ofNat_size_add (n : Nat) (h : n < 2 ^ 32 - nSpecialScripts) :
    (BitVec.ofNat 32 (n + nSpecialScripts)).toNat = n + nSpecialScripts := by
  rw [BitVec.toNat_ofNat, Nat.mod_eq_of_lt (by omega)]

/-- **Script compression round trip**: a script no longer than `MAX_SCRIPT_SIZE`, written
compressed and read back into any script, is itself, and what followed it is left. -/
theorem CScriptCompressor.Unserialize_Serialize {ops : PubKeyOps} (hdec : ops.DecompressRecovers)
    (script0 : CScript) {script : CScript} (hsize : script.length ≤ MAX_SCRIPT_SIZE)
    (rest : List UInt8) :
    (CScriptCompressor.Unserialize ops script0).run
      (CScriptCompressor.Serialize ops script ++ rest) = .ok (script, rest) := by
  unfold CScriptCompressor.Serialize
  split
  · -- a special script: its kind byte, then the bytes its kind reads
    next compr hc =>
    obtain ⟨nSize, vch, rfl, hkind, hlen, hdecomp⟩ := Decompress_Compress hdec hc
    have hkind' : nSize.toNat < 6 := hkind
    have hk : (BitVec.ofNat 32 nSize.toNat).toNat = nSize.toNat := by
      rw [BitVec.toNat_ofNat, Nat.mod_eq_of_lt (by omega)]
    rw [CScriptCompressor.Unserialize, List.cons_append,
      run_bind_of_ok (VarInt.run_ReadVarInt_of_lt (by omega) _),
      hk, if_pos hkind, run_bind_of_ok (run_readTokens endOfData vch rest hlen)]
    simp [hdecomp]
  · -- any other script: its size and its bytes as they are
    have hsize' : script.length ≤ 10000 := hsize
    have hw := toNat_ofNat_size_add script.length (by simp only [nSpecialScripts]; omega)
    rw [List.append_assoc, CScriptCompressor.Unserialize,
      VarInt.roundTrip_ReadVarInt.run_bind trivial, hw, if_neg (by omega),
      if_neg (by omega), run_bind_of_ok (run_readTokens endOfData script rest (by omega))]
    rfl

/-- Only scripts of at most 67 bytes are compressed. -/
theorem length_le_of_Compress {ops : PubKeyOps} {script compr : CScript}
    (h : Compress ops script = some compr) : script.length ≤ 67 := by
  unfold Compress at h
  split at h
  · obtain ⟨hlen, rfl⟩ := eq_of_IsToKeyID ‹_›
    simp [hlen]
  split at h
  · obtain ⟨hlen, rfl⟩ := eq_of_IsToScriptID ‹_›
    simp [hlen]
  split at h
  · rcases eq_of_IsToPubKey ‹_› with ⟨rfl, hlen, -⟩ | ⟨rfl, hlen, -⟩ <;> simp [hlen]
  · cases h

/-- `ignore(n)` skips `n` bytes where `n` fits an `int`. -/
theorem run_ignore {l : List UInt8} (hl : l.length < 2 ^ 31) (rest : List UInt8) :
    (ignore l.length).run (l ++ rest) = .ok ((), rest) := by
  show ignore l.length (l ++ rest) = _
  rw [ignore, if_neg (by omega), if_neg (by simp), List.drop_left]

/-- A script longer than `MAX_SCRIPT_SIZE` is written as it is, and read back as the script it
is read into with `OP_RETURN` added, its bytes skipped; while its size fits an `int`. -/
theorem Unserialize_Serialize_of_long (ops : PubKeyOps) (script0 : CScript) {script : CScript}
    (hlong : MAX_SCRIPT_SIZE < script.length) (hlt : script.length < 2 ^ 31) (rest : List UInt8) :
    (CScriptCompressor.Unserialize ops script0).run
      (CScriptCompressor.Serialize ops script ++ rest) = .ok (script0 ++ [OP_RETURN], rest) := by
  have hnone : Compress ops script = none := by
    cases hc : Compress ops script with
    | none => rfl
    | some compr =>
      have := length_le_of_Compress hc
      simp only [MAX_SCRIPT_SIZE] at hlong
      omega
  have hw := toNat_ofNat_size_add script.length (by simp only [nSpecialScripts]; omega)
  rw [CScriptCompressor.Serialize, hnone, List.append_assoc, CScriptCompressor.Unserialize,
    VarInt.roundTrip_ReadVarInt.run_bind trivial, hw, if_neg (by omega), if_pos (by omega),
    Nat.add_sub_cancel, run_bind_of_ok (run_ignore hlt rest)]
  rfl

/-- From `2^31` bytes on, the size handed to `ignore(int)` is negative, and the read throws. -/
theorem Unserialize_Serialize_of_two_pow_31_le (ops : PubKeyOps) (script0 : CScript)
    {script : CScript} (hge : 2 ^ 31 ≤ script.length)
    (hlt : script.length < 2 ^ 32 - nSpecialScripts) (rest : List UInt8) :
    (CScriptCompressor.Unserialize ops script0).run
      (CScriptCompressor.Serialize ops script ++ rest) =
      .error "CDataStream::ignore(): nSize negative" := by
  have hnone : Compress ops script = none := by
    cases hc : Compress ops script with
    | none => rfl
    | some compr =>
      have := length_le_of_Compress hc
      omega
  rw [CScriptCompressor.Serialize, hnone, List.append_assoc, CScriptCompressor.Unserialize,
    VarInt.roundTrip_ReadVarInt.run_bind trivial, toNat_ofNat_size_add _ hlt, if_neg (by omega),
    if_pos (by simp only [MAX_SCRIPT_SIZE]; omega), Nat.add_sub_cancel]
  exact run_bind_of_error (if_pos hge)

/-- **Script compression round trip.**  Assuming libsecp256k1 recovers a full key from its
compressed form: a script no longer than `MAX_SCRIPT_SIZE` reads back as itself into any
script; a longer one, below `2^31` bytes, reads back into an empty script as one that
`IsUnspendable`; each read leaves exactly what followed. -/
theorem CScriptCompressor_round_trip (ops : PubKeyOps) (hdec : ops.DecompressRecovers) :
    (∀ (script script0 : CScript) (rest : List UInt8), script.length ≤ MAX_SCRIPT_SIZE →
      (CScriptCompressor.Unserialize ops script0).run
        (CScriptCompressor.Serialize ops script ++ rest) = .ok (script, rest)) ∧
    (∀ (script : CScript) (rest : List UInt8), MAX_SCRIPT_SIZE < script.length →
      script.length < 2 ^ 31 →
      ∃ script', (CScriptCompressor.Unserialize ops []).run
        (CScriptCompressor.Serialize ops script ++ rest) = .ok (script', rest) ∧
        script'.IsUnspendable = true) := by
  refine ⟨fun script script0 rest hsize =>
    CScriptCompressor.Unserialize_Serialize hdec script0 hsize rest,
    fun script rest hlong hlt => ⟨[OP_RETURN], ?_, by decide⟩⟩
  exact Unserialize_Serialize_of_long ops [] hlong hlt rest

/-- The x coordinate of the secp256k1 generator `G`, big-endian. -/
def generatorX : List UInt8 :=
  [0x79, 0xBE, 0x66, 0x7E, 0xF9, 0xDC, 0xBB, 0xAC,
  0x55, 0xA0, 0x62, 0x95, 0xCE, 0x87, 0x0B, 0x07,
  0x02, 0x9B, 0xFC, 0xDB, 0x2D, 0xCE, 0x28, 0xD9,
  0x59, 0xF2, 0x81, 0x5B, 0x16, 0xF8, 0x17, 0x98]

/-- The y coordinate of `G`, which is even. -/
def generatorY : List UInt8 :=
  [0x48, 0x3A, 0xDA, 0x77, 0x26, 0xA3, 0xC4, 0x65,
  0x5D, 0xA4, 0xFB, 0xFC, 0x0E, 0x11, 0x08, 0xA8,
  0xFD, 0x17, 0xB4, 0x48, 0xA6, 0x85, 0x54, 0x19,
  0x9C, 0x47, 0xD0, 0x8F, 0xFB, 0x10, 0xD4, 0xB8]

/-- `G` uncompressed, `04 ‖ x ‖ y`. -/
def generatorUncompressed : List UInt8 := 0x04 :: generatorX ++ generatorY

/-- `G` compressed, `02 ‖ x`, the prefix of an even y. -/
def generatorCompressed : List UInt8 := 0x02 :: generatorX

/-- A key library that knows the generator as libsecp256k1 does: both of its encodings are fully
valid, and its compressed encoding decompresses to the uncompressed one. -/
def generatorKeys : PubKeyOps :=
  ⟨fun pubkey => pubkey == generatorUncompressed || pubkey == generatorCompressed,
    fun compr => if compr = generatorCompressed then some ⟨generatorUncompressed, rfl⟩ else none⟩

/-- The script that pays to `G` uncompressed is written as kind `4` and `G`'s x coordinate, and
read back through `Decompress`. -/
theorem CScriptCompressor_round_trip_generator :
    generatorKeys.DecompressRecovers ∧
      (CScriptCompressor.Unserialize generatorKeys []).run
        (CScriptCompressor.Serialize generatorKeys ([65] ++ generatorUncompressed ++ [OP_CHECKSIG]) ++
          []) =
        .ok ([65] ++ generatorUncompressed ++ [OP_CHECKSIG], []) := by
  have hdec : generatorKeys.DecompressRecovers := by
    intro pubkey hlen _ hvalid
    -- the one fully valid 65-byte key the library knows is `G` uncompressed
    have hkey : pubkey = generatorUncompressed := by
      simp only [generatorKeys, Bool.or_eq_true, beq_iff_eq] at hvalid
      rcases hvalid with h | h
      · exact h
      · exact absurd hlen (by rw [h]; decide)
    subst hkey
    decide
  exact ⟨hdec, (CScriptCompressor_round_trip generatorKeys hdec).1 _ [] [] (by decide)⟩

/-- A key library that knows no key. -/
def noKeys : PubKeyOps := ⟨fun _ => false, fun _ => none⟩

/-- A script of `2^31` bytes, longer than `MAX_SCRIPT_SIZE`, does not read back at all:
`ignore` is handed a negative size. -/
theorem CScriptCompressor_long_script_throws :
    MAX_SCRIPT_SIZE < (List.replicate (2 ^ 31) (0 : UInt8)).length ∧
      (CScriptCompressor.Unserialize noKeys []).run
        (CScriptCompressor.Serialize noKeys (List.replicate (2 ^ 31) 0)) =
        .error "CDataStream::ignore(): nSize negative" := by
  have hlen : (List.replicate (2 ^ 31) (0 : UInt8)).length = 2 ^ 31 := List.length_replicate
  refine ⟨by rw [hlen]; decide, ?_⟩
  have h := Unserialize_Serialize_of_two_pow_31_le noKeys [] hlen.ge
    (by rw [hlen]; simp only [nSpecialScripts]; omega) []
  rwa [List.append_nil] at h

/-! ### Outputs -/

theorem toNat_ofInt_of_lt {v : Int} (h0 : 0 ≤ v) (h1 : v < 2 ^ 64) :
    (UInt64.ofInt v).toNat = v.toNat := by
  rw [UInt64.ofInt, UInt64.toNat_ofNat', Int.emod_eq_of_lt h0 h1, Nat.mod_eq_of_lt (by omega)]

/-- An amount in the `int64_t` range goes to `uint64_t` and back unchanged. -/
theorem toInt_toInt64_ofInt {v : Int} (h0 : 0 ≤ v) (h1 : v < 2 ^ 63) :
    (UInt64.ofInt v).toInt64.toInt = v := by
  have hn := toNat_ofInt_of_lt h0 (by omega)
  show (UInt64.ofInt v).toBitVec.toInt = v
  rw [BitVec.toInt_eq_toNat_cond, if_pos (by rw [UInt64.toNat_toBitVec, hn]; omega),
    UInt64.toNat_toBitVec, hn]
  omega

/-- **Output compression round trip**: an output with its amount in `MoneyRange` and a script
up to `MAX_SCRIPT_SIZE` reads back from its compressed form into any output. -/
theorem CTxOutCompressor.Unserialize_Serialize {ops : PubKeyOps} (hdec : ops.DecompressRecovers)
    (txout0 : CTxOut) {txout : CTxOut} (hvalue : MoneyRange txout.nValue = true)
    (hsize : txout.scriptPubKey.length ≤ MAX_SCRIPT_SIZE) (rest : List UInt8) :
    (CTxOutCompressor.Unserialize ops txout0).run
      (CTxOutCompressor.Serialize ops txout ++ rest) = .ok (txout, rest) := by
  have hv := MoneyRange_iff.mp hvalue
  have hamount : DecompressAmount (CompressAmount (UInt64.ofInt txout.nValue)) =
      UInt64.ofInt txout.nValue := by
    apply DecompressAmount_CompressAmount
    rw [toNat_ofInt_of_lt hv.1 (by omega), MAX_MONEY, COIN]
    omega
  rw [CTxOutCompressor.Serialize, CTxOutCompressor.Unserialize, List.append_assoc,
    VarInt.roundTrip_ReadVarInt.run_bind trivial, UInt64.ofBitVec_toBitVec, hamount,
    toInt_toInt64_ofInt hv.1 (by omega),
    run_bind_of_ok (CScriptCompressor.Unserialize_Serialize hdec _ hsize rest)]
  rfl

end Unitus
