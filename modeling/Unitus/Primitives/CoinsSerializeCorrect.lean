import Unitus.Primitives.CoinsSerialize
import Unitus.Primitives.CompressorCorrect
import Unitus.Lib.Lists

/-!
# Primitives — the serialization of `CCoins` reads back

The bitmask carries the availability of the outputs from `2` on: bit `i` of byte `b` is whether
output `2 + b*8 + i` is unspent (`maskBits_maskByte`), a byte is non-zero exactly when one of its
outputs is unspent (`maskByte_ne_zero_iff`), and `CalcMaskSize` finds the byte after the last
non-zero one and counts the non-zero ones (`CalcMaskSize_spec`, by the loop invariant
`MaskScan`).  The reader's loop, asked for that count, stops right after the last byte written
(`readMaskLoop_append`), and what it read, with the flags of outputs `0` and `1` from the header
code (`nCode_fields`), is the availability of the outputs up to the end of the bitmask
(`vAvail_eq`).  The outputs read back are the unspent ones, the others `CTxOut()`
(`readOutputs_filter`), and `vout` cut or padded with spent outputs to the end of the bitmask
differs from `vout` only in spent outputs at the end, which `Cleanup` drops
(`rdropWhile_padded`).

So a `CCoins` that is not pruned, with a non-negative version and height, amounts in range and
scripts up to `MAX_SCRIPT_SIZE`, reads back as itself with its spent outputs `CTxOut()` and
those at the end dropped (`Serialize_round_trip`), up to `2^32 - 6` outputs; from there on
`CalcMaskSize` does not end (`Serialize_too_many_outputs`).
-/

namespace Unitus

open Codec

namespace CCoins

/-! ### Which outputs are unspent -/

/-- Output `j` is there and unspent. -/
def unspentAt (vout : List CTxOut) (j : Nat) : Bool := !(vout.getD j CTxOut.null).IsNull

theorem unspentAt_of_le {vout : List CTxOut} {j : Nat} (hj : vout.length ≤ j) :
    unspentAt vout j = false := by
  rw [unspentAt, List.getD_eq_default _ _ hj]
  rfl

/-- The loops test `j < vout.size() && !vout[j].IsNull()`; past the end `getD` gives
`CTxOut()`, which is spent, so the test is `unspentAt`. -/
theorem lt_and_unspent (vout : List CTxOut) (j : Nat) :
    (decide (j < vout.length) && !(vout.getD j CTxOut.null).IsNull) = unspentAt vout j := by
  by_cases hj : j < vout.length
  · simp [hj, unspentAt]
  · rw [unspentAt_of_le (by omega)]
    simp [hj]

/-- Byte `b` of the bitmask has an unspent output. -/
def usedByte (vout : List CTxOut) (b : Nat) : Bool :=
  (List.range 8).any fun i => unspentAt vout (2 + b * 8 + i)

/-- Byte `b` of the bitmask has bit `i` set where output `2 + b*8 + i` is unspent. -/
theorem maskBits_maskByte (vout : List CTxOut) (b : Nat) :
    maskBits (maskByte vout b) = (List.range 8).map fun i => unspentAt vout (2 + b * 8 + i) := by
  refine List.map_congr_left fun p hp => ?_
  have hp : p < 8 := List.mem_range.mp hp
  rw [Bool.eq_iff_iff, decide_eq_true_iff, UInt8.and_shiftLeft_ne_zero_iff _ hp, maskByte,
    UInt8.testBit_foldl_or _ _ _ fun i hi => List.mem_range.mp hi]
  simp only [lt_and_unspent]
  simp [hp]

/-- A byte is non-zero exactly when one of its eight bits is set. -/
theorem ne_zero_iff_maskBits (x : UInt8) : x ≠ 0 ↔ (maskBits x).any id = true := by
  simp only [maskBits, List.any_map, List.any_eq_true, List.mem_range, Function.comp_apply, id,
    decide_eq_true_eq]
  rw [UInt8.ne_zero_iff_exists_testBit]
  exact exists_congr fun p => and_congr_right fun hp =>
    (UInt8.and_shiftLeft_ne_zero_iff x hp).symm

/-- Byte `b` of the bitmask is non-zero exactly when one of its outputs is unspent, as
`CalcMaskSize` tests it. -/
theorem maskByte_ne_zero_iff (vout : List CTxOut) (b : Nat) :
    maskByte vout b ≠ 0 ↔ usedByte vout b = true := by
  rw [ne_zero_iff_maskBits, maskBits_maskByte, List.any_map]
  rfl

/-! ### `CalcMaskSize` -/

/-- `!fZero` of `CalcMaskSize` is `usedByte`. -/
theorem not_fZero (vout : List CTxOut) (b : Nat) :
    (!(List.range 8).all fun i =>
        !decide (2 + b * 8 + i < vout.length) || (vout.getD (2 + b * 8 + i) CTxOut.null).IsNull) =
      usedByte vout b := by
  rw [List.not_all_eq_any_not]
  simp only [Bool.not_or, Bool.not_not, lt_and_unspent]
  rfl

/-- What the loop of `CalcMaskSize` has found after bytes `0` to `k - 1`: the byte after the
last used one, and how many are used. -/
structure MaskScan (vout : List CTxOut) (k : Nat) (acc : Nat × Nat) : Prop where
  count : acc.2 = (List.range k).countP (usedByte vout)
  le : acc.1 ≤ k
  unused : ∀ b, acc.1 ≤ b → b < k → usedByte vout b = false
  last : acc.1 = 0 ∨ usedByte vout (acc.1 - 1) = true

/-- One pass of the loop keeps `MaskScan`. -/
theorem MaskScan.step {vout : List CTxOut} {k : Nat} {acc : Nat × Nat} (h : MaskScan vout k acc) :
    MaskScan vout (k + 1) (if usedByte vout k then (k + 1, acc.2 + 1) else acc) := by
  by_cases hk : usedByte vout k = true
  · rw [if_pos hk]
    refine ⟨?_, le_rfl, fun b hb hb' => absurd hb' (by omega), .inr hk⟩
    rw [List.range_succ, List.countP_append, ← h.count]
    simp [hk]
  · rw [if_neg hk]
    refine ⟨?_, by have := h.le; omega, fun b hb hb' => ?_, h.last⟩
    · rw [List.range_succ, List.countP_append, ← h.count]
      simp [hk]
    · rcases Nat.lt_succ_iff_lt_or_eq.mp hb' with hb' | rfl
      · exact h.unused b hb hb'
      · simpa using hk

/-- The loop of `CalcMaskSize` over bytes `0` to `k - 1`. -/
theorem maskScan_foldl (vout : List CTxOut) (k : Nat) :
    MaskScan vout k ((List.range k).foldl (fun acc b =>
      if usedByte vout b then (b + 1, acc.2 + 1) else acc) (0, 0)) := by
  induction k with
  | zero => exact ⟨rfl, le_rfl, fun b _ hb => absurd hb (by omega), .inl rfl⟩
  | succ k ih =>
    rw [List.range_succ, List.foldl_append, List.foldl_cons, List.foldl_nil]
    exact ih.step

/-- **`CalcMaskSize`**: below `2^32 - 6` outputs it returns the byte after the last used byte
of the bitmask and the number of used bytes; no byte from there on is used. -/
theorem CalcMaskSize_spec (coins : CCoins) (hsize : coins.vout.length ≤ 2 ^ 32 - 6) :
    ∃ nMaskSize nMaskCode, coins.CalcMaskSize = some (nMaskSize, nMaskCode) ∧
      MaskScan coins.vout ((coins.vout.length + 5) / 8) (nMaskSize, nMaskCode) := by
  refine ⟨_, _, ?_, maskScan_foldl coins.vout ((coins.vout.length + 5) / 8)⟩
  rw [CalcMaskSize, if_neg (by omega)]
  simp only [not_fZero]

/-! ### Reading the bitmask -/

/-- The mask loop, asked for `k` non-zero bytes, reads a run of bytes with `k` non-zero ones
and the last of them non-zero, and stops right after it. -/
theorem readMaskLoop_append :
    ∀ (bytes : List UInt8) (k : Nat) (vAvail : List Bool) (s : List UInt8),
      bytes.countP (· ≠ 0) = k → (∀ h : bytes ≠ [], bytes.getLast h ≠ 0) →
      readMaskLoop k vAvail (bytes ++ s) = .ok (vAvail ++ bytes.flatMap maskBits, s)
  | [], k, vAvail, s, hk, _ => by
    subst hk
    simp [readMaskLoop]
  | x :: xs, k, vAvail, s, hk, hlast => by
    -- the last byte is non-zero, so `k` is at least one
    obtain ⟨k, rfl⟩ : ∃ k', k = k' + 1 := by
      have : 0 < (x :: xs).countP (· ≠ 0) :=
        List.countP_pos_iff.mpr ⟨_, List.getLast_mem (List.cons_ne_nil x xs),
          by simpa using hlast (List.cons_ne_nil x xs)⟩
      exact ⟨k - 1, by omega⟩
    have hxs : xs.countP (· ≠ 0) = if x ≠ 0 then k else k + 1 := by
      rw [List.countP_cons] at hk
      split_ifs at hk ⊢ with hx <;> simp_all
    have hlast' : ∀ h : xs ≠ [], xs.getLast h ≠ 0 := fun h => by
      simpa [List.getLast_cons h] using hlast (List.cons_ne_nil x xs)
    rw [List.cons_append, readMaskLoop, readMaskLoop_append xs _ _ s hxs hlast',
      List.flatMap_cons, List.append_assoc]

/-- The bitmask `Serialize` writes has as many non-zero bytes as `CalcMaskSize` counted, and
ends with a non-zero one. -/
theorem maskBytes_spec {vout : List CTxOut} {nMaskSize nMaskCode : Nat}
    (h : MaskScan vout ((vout.length + 5) / 8) (nMaskSize, nMaskCode)) :
    ((List.range nMaskSize).map (maskByte vout)).countP (· ≠ 0) = nMaskCode ∧
      ∀ hne : (List.range nMaskSize).map (maskByte vout) ≠ [],
        ((List.range nMaskSize).map (maskByte vout)).getLast hne ≠ 0 := by
  have hused : ∀ b, (decide (maskByte vout b ≠ 0)) = usedByte vout b := fun b => by
    rw [Bool.eq_iff_iff, decide_eq_true_iff, maskByte_ne_zero_iff]
  refine ⟨?_, fun hne => ?_⟩
  · -- no byte from `nMaskSize` on is used, so they add nothing to the count
    have hsplit : List.range ((vout.length + 5) / 8) = List.range nMaskSize ++
        (List.range ((vout.length + 5) / 8 - nMaskSize)).map (nMaskSize + ·) := by
      rw [← List.range_add, Nat.add_sub_cancel' h.le]
    have hrest : ((List.range ((vout.length + 5) / 8 - nMaskSize)).map
        (nMaskSize + ·)).countP (usedByte vout) = 0 := by
      rw [List.countP_eq_zero]
      intro b hb
      obtain ⟨i, hi, rfl⟩ := List.mem_map.mp hb
      simpa using h.unused _ (by omega) (by simp at hi; omega)
    have hcount : nMaskCode = (List.range ((vout.length + 5) / 8)).countP (usedByte vout) :=
      h.count
    rw [List.countP_map, hcount, hsplit, List.countP_append, hrest, Nat.add_zero]
    exact List.countP_congr fun b _ => by simp only [Function.comp_apply, hused]
  · -- the last byte written is the last used one
    have hpos : nMaskSize ≠ 0 := by simpa using hne
    rw [List.getLast_map, List.getLast_range]
    rw [maskByte_ne_zero_iff]
    exact h.last.resolve_left hpos

/-- The availability `Unserialize` reads, the first two outputs' and then the bitmask's bits,
is that of outputs `0` to `2 + 8 * nMaskSize - 1`. -/
theorem vAvail_eq (vout : List CTxOut) (nMaskSize : Nat) :
    [unspentAt vout 0, unspentAt vout 1] ++
        ((List.range nMaskSize).map (maskByte vout)).flatMap maskBits =
      (List.range (2 + 8 * nMaskSize)).map (unspentAt vout) := by
  rw [List.flatMap_map]
  simp only [maskBits_maskByte]
  rw [List.range_add, List.map_append, List.map_map,
    show (unspentAt vout ∘ fun x => 2 + x) = fun j => unspentAt vout (2 + j) from rfl,
    List.map_range_mul (fun j => unspentAt vout (2 + j)) 8 nMaskSize]
  simp only [Nat.add_assoc]
  rfl

/-! ### Reading the outputs -/

/-- What an output reads back as: `CTxOut()` where it is spent, itself where it is not. -/
def spentAsNull (out : CTxOut) : CTxOut := if out.IsNull then CTxOut.null else out

/-- The outputs `Serialize` writes and `Unserialize` reads back: unspent, with the amount in
range and a script up to `MAX_SCRIPT_SIZE`. -/
def Compressible (out : CTxOut) : Prop :=
  out.IsNull = false →
    MoneyRange out.nValue = true ∧ out.scriptPubKey.length ≤ MAX_SCRIPT_SIZE

instance (out : CTxOut) : Decidable (Compressible out) :=
  inferInstanceAs (Decidable (out.IsNull = false → _))

/-- The output loop, given each output's availability, reads back the unspent outputs that
`Serialize` wrote, and `CTxOut()` for the others. -/
theorem readOutputs_filter {ops : PubKeyOps} (hdec : ops.DecompressRecovers) :
    ∀ (outs : List CTxOut) (rest : List UInt8), (∀ out ∈ outs, Compressible out) →
      (readOutputs ops (outs.map fun out => !out.IsNull)).run
        ((outs.filter fun out => !out.IsNull).flatMap (CTxOutCompressor.Serialize ops) ++ rest) =
        .ok (outs.map spentAsNull, rest)
  | [], rest, _ => rfl
  | out :: outs, rest, h => by
    have ih := readOutputs_filter hdec outs rest fun o ho => h o (List.mem_cons_of_mem out ho)
    rw [List.map_cons, List.filter_cons, readOutputs]
    by_cases hnull : out.IsNull = true
    · -- a spent output: nothing is read and `CTxOut()` stays
      rw [if_neg (by simp [hnull]), if_neg (by simp [hnull]), run_pure_bind, run_bind_of_ok ih]
      simp [spentAsNull, hnull]
    · have hv := h out List.mem_cons_self (by simpa using hnull)
      rw [if_pos (by simpa using hnull), if_pos (by simpa using hnull), List.flatMap_cons,
        List.append_assoc,
        run_bind_of_ok (CTxOutCompressor.Unserialize_Serialize hdec _ hv.1 hv.2 _),
        run_bind_of_ok ih]
      simp [spentAsNull, hnull]

/-! ### Outputs up to the end of the bitmask -/

section Padded

variable {vout : List CTxOut} {N : Nat}

/-- Past `N`, where no output is unspent, every output is spent. -/
theorem IsNull_of_mem_drop (hN : ∀ j, N ≤ j → unspentAt vout j = false) :
    ∀ out ∈ vout.drop N, out.IsNull = true := by
  intro out hout
  obtain ⟨i, hi, rfl⟩ := List.getElem_of_mem hout
  have h := hN (N + i) (by omega)
  rw [unspentAt, List.getD_eq_getElem?_getD, List.getElem?_eq_getElem (by simp at hi; omega),
    Option.getD_some] at h
  simpa using h

theorem IsNull_of_mem_replicate {out : CTxOut} {k : Nat}
    (h : out ∈ List.replicate k CTxOut.null) :
    out.IsNull = true := by
  rw [List.eq_of_mem_replicate h]
  rfl

/-- Cut or padded to `N`, the outputs have the same unspent ones. -/
theorem filter_padded (hN : ∀ j, N ≤ j → unspentAt vout j = false) :
    ((List.range N).map fun j => vout.getD j CTxOut.null).filter (fun out => !out.IsNull) =
      vout.filter fun out => !out.IsNull := by
  have hpad : (List.replicate (N - vout.length) CTxOut.null).filter (fun out => !out.IsNull) =
      [] := List.filter_eq_nil_iff.mpr fun out hout => by simp [IsNull_of_mem_replicate hout]
  have hdrop : (vout.drop N).filter (fun out => !out.IsNull) = [] :=
    List.filter_eq_nil_iff.mpr fun out hout => by simp [IsNull_of_mem_drop hN out hout]
  conv_rhs => rw [← List.take_append_drop N vout]
  rw [List.map_getD_range, List.filter_append, List.filter_append, hpad, hdrop]

/-- Cut or padded to `N`, the outputs read back the same once `Cleanup` drops the spent ones at
the end. -/
theorem rdropWhile_padded (hN : ∀ j, N ≤ j → unspentAt vout j = false) :
    (((List.range N).map fun j => vout.getD j CTxOut.null).map spentAsNull).rdropWhile
        CTxOut.IsNull =
      (vout.map spentAsNull).rdropWhile CTxOut.IsNull := by
  have hnull : ∀ out, out.IsNull = true → (spentAsNull out).IsNull = true := fun out h => by
    simp [spentAsNull, h]
    rfl
  conv_rhs => rw [← List.take_append_drop N vout]
  rw [List.map_getD_range, List.map_append, List.map_append,
    List.rdropWhile_append_of_forall fun out hout => by
      obtain ⟨o, ho, rfl⟩ := List.mem_map.mp hout
      exact hnull o (IsNull_of_mem_replicate ho),
    List.rdropWhile_append_of_forall fun out hout => by
      obtain ⟨o, ho, rfl⟩ := List.mem_map.mp hout
      exact hnull o (IsNull_of_mem_drop hN o ho)]

end Padded

/-! ### The header code -/

/-- A bit below `8` of `8 * q + r`, on 32 bits, is that bit of `r`. -/
theorem ofNat_and_ne_zero_iff {q r m : Nat} (hr : r < 8) (hm : m < 8) (hx : 8 * q + r < 2 ^ 32) :
    BitVec.ofNat 32 (8 * q + r) &&& BitVec.ofNat 32 m ≠ 0 ↔ r &&& m ≠ 0 := by
  have hlow : (8 * q + r) &&& m = r &&& m := by
    have h7 : 7 &&& m = m := by
      rw [Nat.and_comm, show 7 = 2 ^ 3 - 1 from rfl, Nat.and_two_pow_sub_one_eq_mod,
        Nat.mod_eq_of_lt hm]
    calc (8 * q + r) &&& m = (8 * q + r) &&& (7 &&& m) := by rw [h7]
      _ = ((8 * q + r) &&& 7) &&& m := (Nat.and_assoc _ _ _).symm
      _ = r &&& m := by
        rw [show 7 = 2 ^ 3 - 1 from rfl, Nat.and_two_pow_sub_one_eq_mod]
        congr 1
        omega
  rw [ne_eq, ← BitVec.toNat_inj, BitVec.toNat_and, BitVec.toNat_ofNat, BitVec.toNat_ofNat,
    Nat.mod_eq_of_lt hx, Nat.mod_eq_of_lt (by omega), hlow]
  rfl

/-- What `Unserialize` reads off the header code `Serialize` writes: the coinbase flag, whether
outputs `0` and `1` are unspent, and `nCode / 8`. -/
theorem nCode_fields {q : Nat} (cb f s : Bool) (hq : q < 2 ^ 29) :
    let nCode := BitVec.ofNat 32
      (8 * q + (if cb then 1 else 0) + (if f then 2 else 0) + (if s then 4 else 0))
    decide (nCode &&& 1 ≠ 0) = cb ∧ decide (nCode &&& 2 ≠ 0) = f ∧
      decide (nCode &&& 4 ≠ 0) = s ∧ (nCode &&& 6 ≠ 0 ↔ (f || s) = true) ∧
      nCode.toNat / 8 = q := by
  intro nCode
  -- the flags are the low three bits, below the count
  obtain ⟨r, hr, hrv⟩ : ∃ r, r < 8 ∧
      r = (if cb then 1 else 0) + (if f then 2 else 0) + (if s then 4 else 0) :=
    ⟨_, by split_ifs <;> omega, rfl⟩
  have hn : nCode = BitVec.ofNat 32 (8 * q + r) := by
    simp only [nCode, hrv, Nat.add_assoc]
  have hx : 8 * q + r < 2 ^ 32 := by omega
  have h1 := ofNat_and_ne_zero_iff (m := 1) hr (by omega) hx
  have h2 := ofNat_and_ne_zero_iff (m := 2) hr (by omega) hx
  have h4 := ofNat_and_ne_zero_iff (m := 4) hr (by omega) hx
  have h6 := ofNat_and_ne_zero_iff (m := 6) hr (by omega) hx
  rw [hn, show (1 : BitVec 32) = BitVec.ofNat 32 1 from rfl,
    show (2 : BitVec 32) = BitVec.ofNat 32 2 from rfl,
    show (4 : BitVec 32) = BitVec.ofNat 32 4 from rfl,
    show (6 : BitVec 32) = BitVec.ofNat 32 6 from rfl, BitVec.toNat_ofNat, Nat.mod_eq_of_lt hx]
  simp only [h1, h2, h4, h6]
  -- the flags: one case for each of the eight values of `r`
  refine ⟨?_, ?_, ?_, ?_, by omega⟩ <;> subst hrv <;> cases cb <;> cases f <;> cases s <;>
    decide

/-! ### The round trip -/

section RoundTrip

variable {vout : List CTxOut} {nMaskSize nMaskCode : Nat}

/-- An unspent output from `2` on puts a non-zero byte in the bitmask. -/
theorem maskCode_ne_zero (h : MaskScan vout ((vout.length + 5) / 8) (nMaskSize, nMaskCode))
    {j : Nat} (hj : 2 ≤ j) (hu : unspentAt vout j = true) : nMaskCode ≠ 0 := by
  have hlt : j < vout.length := by
    by_contra hle
    rw [unspentAt_of_le (by omega)] at hu
    cases hu
  have hused : usedByte vout ((j - 2) / 8) = true := by
    rw [usedByte, List.any_eq_true]
    exact ⟨(j - 2) % 8, List.mem_range.mpr (Nat.mod_lt _ (by omega)), by
      rw [show 2 + (j - 2) / 8 * 8 + (j - 2) % 8 = j by omega]
      exact hu⟩
  have hcount : nMaskCode = (List.range ((vout.length + 5) / 8)).countP (usedByte vout) :=
    h.count
  rw [hcount]
  exact (List.countP_pos_iff.mpr ⟨_, List.mem_range.mpr (by omega), hused⟩).ne'

/-- No output from `2 + 8 * nMaskSize` on is unspent. -/
theorem unspentAt_of_maskScan (h : MaskScan vout ((vout.length + 5) / 8) (nMaskSize, nMaskCode))
    {j : Nat} (hj : 2 + 8 * nMaskSize ≤ j) : unspentAt vout j = false := by
  by_cases hlt : j < vout.length
  · -- output `j` is bit `(j - 2) % 8` of byte `(j - 2) / 8`, which is not used
    have hunused := h.unused ((j - 2) / 8) (by omega) (by omega)
    rw [usedByte, List.any_eq_false] at hunused
    have := hunused ((j - 2) % 8) (List.mem_range.mpr (Nat.mod_lt _ (by omega)))
    rw [show 2 + (j - 2) / 8 * 8 + (j - 2) % 8 = j by omega] at this
    simpa using this
  · exact unspentAt_of_le (by omega)

/-- Read with `getD`, an output is one of `vout` or `CTxOut()`, so compressible. -/
theorem compressible_getD (hout : ∀ out ∈ vout, Compressible out) (j : Nat) :
    Compressible (vout.getD j CTxOut.null) := by
  rw [List.getD_eq_getElem?_getD]
  cases hj : vout[j]? with
  | none => exact fun h => absurd h (by decide)
  | some out => exact hout out (List.mem_of_getElem? hj)

/-- `Serialize` where `CalcMaskSize` returns and the `assert` holds: the version, the header
code, the bitmask, the unspent outputs and the height. -/
theorem Serialize_eq (ops : PubKeyOps) (coins : CCoins)
    (hcalc : coins.CalcMaskSize = some (nMaskSize, nMaskCode))
    (hassert : (unspentAt coins.vout 0 || unspentAt coins.vout 1 || decide (nMaskCode ≠ 0)) =
      true) :
    coins.Serialize ops = .ok (VarInt.WriteVarIntInt coins.nVersion ++
      VarInt.WriteVarInt (BitVec.ofNat 32
        (8 * (nMaskCode - (if (unspentAt coins.vout 0 || unspentAt coins.vout 1) then 0 else 1)) +
          (if coins.fCoinBase then 1 else 0) + (if unspentAt coins.vout 0 then 2 else 0) +
          (if unspentAt coins.vout 1 then 4 else 0))) ++
      (List.range nMaskSize).map (maskByte coins.vout) ++
      (coins.vout.filter fun out => !out.IsNull).flatMap (CTxOutCompressor.Serialize ops) ++
      VarInt.WriteVarIntInt coins.nHeight) := by
  simp only [Serialize, hcalc, lt_and_unspent]
  rw [if_neg (by rw [hassert]; decide)]
  rfl

end RoundTrip

/-- **`CCoins` round trip.**  A `CCoins` that is not pruned, with a non-negative version and
height, every unspent output with its amount in range and a script up to `MAX_SCRIPT_SIZE`, and
at most `2^32 - 6` outputs, serializes, and reads back from what it wrote as itself with its
spent outputs `CTxOut()` and those at the end dropped, leaving what followed; given that
libsecp256k1 recovers a full key from its compressed form. -/
theorem Serialize_round_trip {ops : PubKeyOps} (hdec : ops.DecompressRecovers) (coins : CCoins)
    (hpruned : coins.IsPruned = false) (hversion : 0 ≤ coins.nVersion)
    (hheight : 0 ≤ coins.nHeight) (hout : ∀ out ∈ coins.vout, Compressible out)
    (hsize : coins.vout.length ≤ 2 ^ 32 - 6) (rest : List UInt8) :
    ∃ bytes, coins.Serialize ops = .ok bytes ∧
      (Unserialize ops).run (bytes ++ rest) =
        .ok (Cleanup { coins with vout := coins.vout.map spentAsNull }, rest) := by
  obtain ⟨nMaskSize, nMaskCode, hcalc, hscan⟩ := CalcMaskSize_spec coins hsize
  -- the `assert`: an unspent output is output `0`, output `1`, or marked in the bitmask
  have hassert : (unspentAt coins.vout 0 || unspentAt coins.vout 1 || decide (nMaskCode ≠ 0)) =
      true := by
    obtain ⟨out, hmem, hnull⟩ : ∃ out ∈ coins.vout, out.IsNull = false := by
      simpa [IsPruned] using hpruned
    obtain ⟨j, hj, rfl⟩ := List.getElem_of_mem hmem
    have hu : unspentAt coins.vout j = true := by
      simp [unspentAt, List.getElem?_eq_getElem hj, hnull]
    rcases j with _ | _ | j
    · simp [hu]
    · simp [hu]
    · simp [maskCode_ne_zero hscan (by omega) hu]
  refine ⟨_, Serialize_eq ops coins hcalc hassert, ?_⟩
  simp only [Unserialize, List.append_assoc]
  rw [VarInt.roundTrip_ReadVarIntInt.run_bind hversion,
    VarInt.roundTrip_ReadVarInt.run_bind trivial]
  -- the header code gives back the flags and the number of non-zero mask bytes
  have hcount : nMaskCode ≤ (coins.vout.length + 5) / 8 := by
    have hc : nMaskCode = (List.range ((coins.vout.length + 5) / 8)).countP (usedByte coins.vout) :=
      hscan.count
    exact hc ▸ (List.countP_le_length).trans (List.length_range).le
  obtain ⟨h1, h2, h4, h6, h8⟩ := nCode_fields coins.fCoinBase (unspentAt coins.vout 0)
    (unspentAt coins.vout 1) (q := nMaskCode -
      if (unspentAt coins.vout 0 || unspentAt coins.vout 1) = true then 0 else 1) (by omega)
  have hcode :
      (nMaskCode - if (unspentAt coins.vout 0 || unspentAt coins.vout 1) = true then 0 else 1) +
      (if (unspentAt coins.vout 0 || unspentAt coins.vout 1) = true then 0 else 1) = nMaskCode := by
    split_ifs with hfs
    · rfl
    · simp only [hfs, Bool.false_or] at hassert
      have : nMaskCode ≠ 0 := by simpa using hassert
      omega
  simp only [h1, h2, h4, h6, h8, hcode]
  -- the bitmask is read up to its last non-zero byte
  have hms := maskBytes_spec hscan
  rw [run_bind_of_ok (x := fun s => readMaskLoop nMaskCode _ s)
    (readMaskLoop_append _ _ _ _ hms.1 hms.2), vAvail_eq]
  -- the outputs are read up to the end of the bitmask: `vout` cut or padded with spent ones
  have hN : ∀ j, 2 + 8 * nMaskSize ≤ j → unspentAt coins.vout j = false :=
    fun j hj => unspentAt_of_maskScan hscan hj
  have hav : (List.range (2 + 8 * nMaskSize)).map (unspentAt coins.vout) =
      ((List.range (2 + 8 * nMaskSize)).map fun j => coins.vout.getD j CTxOut.null).map
        fun out => !out.IsNull := by
    rw [List.map_map]
    rfl
  have hcomp : ∀ out ∈ (List.range (2 + 8 * nMaskSize)).map
      (fun j => coins.vout.getD j CTxOut.null), Compressible out := by
    intro out hmem
    obtain ⟨j, -, rfl⟩ := List.mem_map.mp hmem
    exact compressible_getD hout j
  rw [hav, ← filter_padded hN, run_bind_of_ok (readOutputs_filter hdec _ _ hcomp),
    VarInt.roundTrip_ReadVarIntInt.run_bind hheight, run_pure, Cleanup, Cleanup,
    rdropWhile_padded hN]

/-- Three outputs, the middle one spent, and a spent one at the end, which `Cleanup` drops. -/
theorem Serialize_round_trip_spent_tail :
    let ops : PubKeyOps := ⟨fun _ => false, fun _ => none⟩
    let coins : CCoins :=
      ⟨true, [⟨50, []⟩, CTxOut.null, ⟨7, [0x51]⟩, CTxOut.null], 100, 1⟩
    ops.DecompressRecovers ∧ coins.IsPruned = false ∧ 0 ≤ coins.nVersion ∧
      0 ≤ coins.nHeight ∧
      (∀ out ∈ coins.vout, Compressible out) ∧ coins.vout.length ≤ 2 ^ 32 - 6 ∧
      ∃ bytes, coins.Serialize ops = .ok bytes ∧
        (Unserialize ops).run (bytes ++ []) =
          .ok (Cleanup { coins with vout := coins.vout.map spentAsNull }, []) := by
  intro ops coins
  have hdec : ops.DecompressRecovers := fun _ _ _ h => absurd h Bool.false_ne_true
  exact ⟨hdec, by decide, by decide, by decide, by decide, by decide,
    Serialize_round_trip hdec coins (by decide) (by decide) (by decide) (by decide) (by decide)
      []⟩

/-- A `CCoins` of more than `2^32 - 6` outputs has no serialization: `CalcMaskSize`'s loop does
not end. -/
theorem Serialize_of_too_many {coins : CCoins} (ops : PubKeyOps)
    (h : 2 ^ 32 - 6 < coins.vout.length) :
    coins.Serialize ops = .error "CalcMaskSize: 2+b*8 wraps and the loop does not end" := by
  have hnone : coins.CalcMaskSize = none := by
    rw [CalcMaskSize, if_pos h]
  simp only [Serialize, hnone]
  rfl

/-- `2^32 - 5` unspent outputs, each of amount `0` with an empty script, have no serialization
(with any key library; here `noKeys`). -/
theorem Serialize_too_many_outputs :
    (⟨false, List.replicate (2 ^ 32 - 5) ⟨0, []⟩, 0, 1⟩ : CCoins).IsPruned = false ∧
      (∀ out ∈ (⟨false, List.replicate (2 ^ 32 - 5) ⟨0, []⟩, 0, 1⟩ : CCoins).vout,
        Compressible out) ∧
      (⟨false, List.replicate (2 ^ 32 - 5) ⟨0, []⟩, 0, 1⟩ : CCoins).Serialize noKeys =
        .error "CalcMaskSize: 2+b*8 wraps and the loop does not end" := by
  refine ⟨?_, fun out hout => ?_, Serialize_of_too_many noKeys ?_⟩
  · rw [IsPruned, List.all_eq_false]
    exact ⟨⟨0, []⟩, List.mem_replicate.mpr ⟨by norm_num, rfl⟩, by decide⟩
  · rw [List.eq_of_mem_replicate hout]
    decide
  · simp only [List.length_replicate]
    norm_num

end CCoins

end Unitus
