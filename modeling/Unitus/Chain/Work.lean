import Unitus.Chain.BlockIndex
import Unitus.Arith.CompactCorrect
import Unitus.Lib.Except

/-!
# Chain — the work a block proves

`GetBlockProofBase` (`chain.cpp`) turns a block's target `T` into the expected number of hashes
to meet it, `2^256 / (T + 1)`.  `2^256` does not fit in an `arith_uint256`, so the source computes
`~T / (T + 1) + 1`, which is the same number as `T + 1` never wraps (`GetBlockProofBase_eq`).
-/

namespace Unitus

open BaseUint

/-- `GetBlockProofBase(block)`: the work of a block, `~bnTarget / (bnTarget + 1) + 1`, or `0` for
a target that decodes negative, overflowing or zero.  `operator/=` throws on a zero divisor. -/
def GetBlockProofBase (block : CBlockIndex) : Except String ArithUint256 :=
  let d := ArithUint256.setCompact block.nBits
  let bnTarget := d.value
  if d.fNegative || d.fOverflow || bnTarget.EqualTo 0 then pure (ofUInt64 0)
  else do
    let q ← bnTarget.compl.div (bnTarget + ofUInt64 1)
    pure (q + ofUInt64 1)

/-- **`GetBlockProofBase`** is `0` for a target flagged negative or overflowing or decoding to
`0`, and `2^256 / (T + 1)` for any other target `T`: `~T / (T + 1) + 1` computes it in 256 bits,
with `T + 1` never wrapping to zero. -/
theorem GetBlockProofBase_eq (block : CBlockIndex) :
    let d := ArithUint256.setCompact block.nBits
    d.value.toNat + 1 < 2 ^ 256 ∧
      Except.map toNat (GetBlockProofBase block) =
        .ok (if d.fNegative = true ∨ d.fOverflow = true ∨ d.value.toNat = 0 then 0
          else 2 ^ 256 / (d.value.toNat + 1)) := by
  have hT := ArithUint256.toNat_setCompact_add_one_lt block.nBits
  have hone : (ofUInt64 1 : ArithUint256).toNat = 1 := toNat_ofUInt64 (by norm_num) 1
  unfold GetBlockProofBase
  dsimp only
  generalize ArithUint256.setCompact block.nBits = d at hT ⊢
  refine ⟨hT, ?_⟩
  by_cases hz : d.fNegative = true ∨ d.fOverflow = true ∨ d.value.toNat = 0
  · -- a target the source rejects: no work
    rw [if_pos hz]
    have hflag : (d.fNegative || d.fOverflow || d.value.EqualTo 0) = true := by
      rcases hz with h | h | h <;> simp [h, EqualTo_zero_iff]
    simp only [hflag, if_true]
    show Except.ok (toNat (ofUInt64 0 : ArithUint256)) = _
    rw [toNat_ofUInt64 (by norm_num)]
    rfl
  · rw [if_neg hz]
    push Not at hz
    obtain ⟨hneg, hover, hpos⟩ := hz
    have hflag : (d.fNegative || d.fOverflow || d.value.EqualTo 0) = false := by
      have hzero : d.value.EqualTo 0 = false :=
        Bool.eq_false_iff.mpr fun h => hpos ((EqualTo_zero_iff _).mp h)
      simp [hneg, hover, hzero]
    simp only [hflag, Bool.false_eq_true, if_false]
    -- the divisor `T + 1` does not wrap, and the complement is `2^256 - 1 - T`
    have hdivisor : (d.value + ofUInt64 1).toNat = d.value.toNat + 1 := by
      rw [toNat_add, hone, Nat.mod_eq_of_lt (by simpa using hT)]
    have hcompl : d.value.compl.toNat = 2 ^ 256 - 1 - d.value.toNat := toNat_compl _
    have hdiv := div_eq d.value.compl (d.value + ofUInt64 1)
    rw [if_neg (by omega), hdivisor, hcompl] at hdiv
    obtain ⟨q, hq, hqval⟩ := Except.map_eq_ok.mp hdiv
    -- `(2^256 - 1 - T) / (T + 1) + 1 = 2^256 / (T + 1)`, which is at most `2^255`
    have hsum : q.toNat + 1 = 2 ^ 256 / (d.value.toNat + 1) := by
      rw [hqval, ← Nat.add_div_right _ (by omega)]
      congr 1
      omega
    have hsmall : 2 ^ 256 / (d.value.toNat + 1) < 2 ^ 256 :=
      Nat.div_lt_self (by positivity) (by omega)
    rw [hq]
    show Except.ok (q + ofUInt64 1).toNat = _
    rw [toNat_add, hone, Nat.mod_eq_of_lt (by simpa [hsum] using hsmall), hsum]

end Unitus
