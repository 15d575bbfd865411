import Unitus.Chain.BlockIndex

/-!
# Chain — the consensus parameters of the three networks

The fields of `Consensus::Params` (`consensus/params.h`) that the modelled code reads, and
their values in `CMainParams`, `CTestNetParams` and `CRegTestParams` (`chainparams.cpp`).
The three parameter objects are statics, so a field a constructor does not set is zero:
`CRegTestParams` sets neither `nTimeArgon2dStart`, `nBlockSequentialAlgoRule2Start` nor
`nBlockSequentialAlgoMaxCountV1`.  The `int64_t` fields are `Int`; no product of them below
overflows 64 bits at these values.
-/

namespace Unitus

/-- `Consensus::Params`, the fields read here. -/
structure Params where
  powLimit : Algo → ArithUint256
  fPowAllowMinDifficultyBlocks : Bool
  fPowNoRetargeting : Bool
  nPowTargetSpacing : Int
  nPowTargetTimespan : Int
  nPoWAveragingInterval : Int
  nMaxAdjustDown : Int
  nMaxAdjustUp : Int
  nTimeArgon2dStart : UInt32
  nBlockSequentialAlgoRule2Start : Int
  nBlockSequentialAlgoMaxCountV1 : Int
  nBlockSequentialAlgoMaxCountV2 : Int

namespace Params

/-- `nPoWAveragingTargetTimespan()`: `nPoWAveragingInterval * nPowTargetSpacing * algoCount`. -/
def nPoWAveragingTargetTimespan (p : Params) : Int :=
  p.nPoWAveragingInterval * p.nPowTargetSpacing * algoCount

end Params

/-- The number `n` as an `arith_uint256`, as `UintToArith256(uint256S(hex))` reads a hex
constant below `2 ^ 256`. -/
def ArithUint256.ofNat (n : Nat) : ArithUint256 :=
  ⟨(List.range 8).map (fun i => UInt32.ofNat (n / 2 ^ (32 * i))), by simp⟩

/-- `00000fff…f`, the limit of four of the five slots on main and test. -/
def powLimit236 : ArithUint256 := ArithUint256.ofNat (2 ^ 236 - 1)

/-- `0000ffff…f`, the limit of `ALGO_SLOT4` on main and test. -/
def powLimit240 : ArithUint256 := ArithUint256.ofNat (2 ^ 240 - 1)

/-- `7fffffff…f`, every limit on regtest. -/
def powLimit255 : ArithUint256 := ArithUint256.ofNat (2 ^ 255 - 1)

/-- `CMainParams`. -/
def mainParams : Params where
  powLimit a := if a = ALGO_SLOT4 then powLimit240 else powLimit236
  fPowAllowMinDifficultyBlocks := false
  fPowNoRetargeting := false
  nPowTargetSpacing := 60
  nPowTargetTimespan := 14 * 24 * 60 * 60
  nPoWAveragingInterval := 10
  nMaxAdjustDown := 5
  nMaxAdjustUp := 5
  nTimeArgon2dStart := 1496448000
  nBlockSequentialAlgoRule2Start := 456000
  nBlockSequentialAlgoMaxCountV1 := 3
  nBlockSequentialAlgoMaxCountV2 := 5

/-- `CTestNetParams`. -/
def testNetParams : Params where
  powLimit a := if a = ALGO_SLOT4 then powLimit240 else powLimit236
  fPowAllowMinDifficultyBlocks := true
  fPowNoRetargeting := false
  nPowTargetSpacing := 60
  nPowTargetTimespan := 14 * 24 * 60 * 60
  nPoWAveragingInterval := 10
  nMaxAdjustDown := 5
  nMaxAdjustUp := 5
  nTimeArgon2dStart := 1491705000
  nBlockSequentialAlgoRule2Start := 70
  nBlockSequentialAlgoMaxCountV1 := 3
  nBlockSequentialAlgoMaxCountV2 := 5

/-- `CRegTestParams`.  It sets none of `nTimeArgon2dStart`, `nBlockSequentialAlgoRule2Start`,
`nBlockSequentialAlgoMaxCountV1` and `nBlockSequentialAlgoMaxCountV2`, so these keep the zero
of the static object's initialization. -/
def regTestParams : Params where
  powLimit _ := powLimit255
  fPowAllowMinDifficultyBlocks := true
  fPowNoRetargeting := true
  nPowTargetSpacing := 60
  nPowTargetTimespan := 14 * 24 * 60 * 60
  nPoWAveragingInterval := 10
  nMaxAdjustDown := 4
  nMaxAdjustUp := 4
  nTimeArgon2dStart := 0
  nBlockSequentialAlgoRule2Start := 0
  nBlockSequentialAlgoMaxCountV1 := 0
  nBlockSequentialAlgoMaxCountV2 := 0

end Unitus
