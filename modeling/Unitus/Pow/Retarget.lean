import Unitus.Pow.NextWork

/-!
# Pow — one retarget step on the three networks

`GetNextWorkRequired` reads `fPowNoRetargeting` nowhere, so regtest retargets too, from
targets near its limit `2 ^ 255 - 1`.  The product `SetCompact(pindexPrev->nBits) *
nActualTimespan` is then far above `2 ^ 256`, and the `uint32_t` multiplication keeps only its
low 256 bits.  `regtestChain` is twelve regtest blocks of `ALGO_SLOT1` a minute apart, each at
the genesis target `0x207fffff`; the retarget after them wraps.
-/

namespace Unitus

namespace Pow

/-- A regtest block of `ALGO_SLOT1` at height `h`, a minute after the previous one, at the
genesis target `0x207fffff`, with the hash of bytes `h`. -/
def regtestBlock (h : Nat) : CBlockIndex :=
  ⟨Uint256.replicate (UInt8.ofNat h), h, 1, 0x207fffff, UInt32.ofNat (1419370259 + 60 * h)⟩

/-- Twelve such blocks, tip first. -/
def regtestChain : BlockPtr :=
  [regtestBlock 11, regtestBlock 10, regtestBlock 9, regtestBlock 8, regtestBlock 7,
    regtestBlock 6, regtestBlock 5, regtestBlock 4, regtestBlock 3, regtestBlock 2,
    regtestBlock 1, regtestBlock 0]

/-- The walk over `regtestChain` reaches the retarget, with the tip as `pindexPrev` and the
block at height 2 as `pindexFirst`. -/
theorem retargetWindow_regtestChain :
    retargetWindow regtestChain ALGO_SLOT1 regTestParams =
      some (regtestBlock 11, regtestBlock 11, regtestBlock 2) := by
  have hLast : getLastBlockIndexForAlgo regtestChain ALGO_SLOT1 = regtestChain := by decide
  have hBack : goBackAveragingInterval ALGO_SLOT1 (regTestParams.nPoWAveragingInterval - 1).toNat
      regtestChain = some [regtestBlock 2, regtestBlock 1, regtestBlock 0] := by decide
  -- the block below `pindexFirst` is earlier, so the time-warp loop stops at once
  have hWarp : skipTimeWarp ALGO_SLOT1 [regtestBlock 2, regtestBlock 1, regtestBlock 0] =
      some [regtestBlock 2, regtestBlock 1, regtestBlock 0] := by
    rw [skipTimeWarp]; decide
  unfold retargetWindow
  rw [hLast]
  unfold regtestChain at hBack ⊢
  dsimp only
  rw [hBack]
  dsimp only
  rw [hWarp]
  decide

/-- **The regtest retarget wraps.**  Every block of `regtestChain` decodes to a target that
is neither negative nor overflowing and is within its limit; `GetNextWorkRequired` does not
return the limit; and `SetCompact(pindexPrev->nBits) * nActualTimespan` is at least
`2 ^ 256`, so the 256-bit product the source computes is not the product. -/
theorem getNextWorkRequired_regtest_product_wraps :
    (∀ b ∈ regtestChain, (ArithUint256.setCompact b.nBits).fNegative = false ∧
      (ArithUint256.setCompact b.nBits).fOverflow = false ∧
      (ArithUint256.setCompact b.nBits).value.toNat ≤ (regTestParams.powLimit b.GetAlgo).toNat) ∧
    retargetWindow regtestChain ALGO_SLOT1 regTestParams =
      some (regtestBlock 11, regtestBlock 11, regtestBlock 2) ∧
    getNextWorkRequired regtestChain ALGO_SLOT1 regTestParams ≠
      ArithUint256.getCompact (regTestParams.powLimit ALGO_SLOT1) ∧
    2 ^ 256 ≤ (ArithUint256.setCompact (regtestBlock 11).nBits).value.toNat *
      (actualTimespan regTestParams (regtestBlock 11) (regtestBlock 11) (regtestBlock 2)).toNat ∧
    ((ArithUint256.setCompact (regtestBlock 11).nBits).value.mul32
        (toUInt32Wrap (actualTimespan regTestParams (regtestBlock 11) (regtestBlock 11)
          (regtestBlock 2)))).toNat ≠
      (ArithUint256.setCompact (regtestBlock 11).nBits).value.toNat *
        (actualTimespan regTestParams (regtestBlock 11) (regtestBlock 11) (regtestBlock 2)).toNat := by
  refine ⟨by decide, retargetWindow_regtestChain, ?_, by decide, by decide⟩
  -- the 256-bit division is evaluated by the kernel
  have hNew : retarget regTestParams ALGO_SLOT1 (regtestBlock 11) (regtestBlock 11)
      (regtestBlock 2) = .ok 521525146 := by decide +kernel
  have hLimit : ArithUint256.getCompact (regTestParams.powLimit ALGO_SLOT1) = .ok 0x207fffff := by
    decide +kernel
  unfold getNextWorkRequired
  rw [retargetWindow_regtestChain, hLimit]
  exact fun h => absurd (hNew.symm.trans h) (by decide)

end Pow

end Unitus
