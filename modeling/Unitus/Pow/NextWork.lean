import Unitus.Chain.Params

/-!
# Pow — `GetNextWorkRequired`

`GetNextWorkRequired(pindexLast, pblock, algo, params)` (`pow.cpp`): the target of the next
block of `algo`.  It finds the last block of `algo` (`pindexPrev`), walks back
`nPoWAveragingInterval - 1` more blocks of `algo` to `pindexFirst`, moves `pindexFirst` back
while its predecessor of `algo` has a later time (the time-warp loop), returns the limit at
the Argon2d changeover, and otherwise scales the target of `pindexPrev` by the clamped
timespan `pindexPrev - pindexFirst` over `nPoWAveragingTargetTimespan()` in 256-bit
arithmetic.  `pblock` is not read.

The walk (`retargetWindow`) and the arithmetic (`retarget`) are separate definitions, and
`getNextWorkRequired` is the one joined to the other as the source has them.
-/

namespace Unitus

/-- `(uint32_t)` of an `int64_t`: the value modulo `2 ^ 32`. -/
def toUInt32Wrap (x : Int) : UInt32 := UInt32.ofNat (x % 2 ^ 32).toNat

/-- `(uint64_t)` of an `int64_t`: the value modulo `2 ^ 64`. -/
def toUInt64Wrap (x : Int) : UInt64 := UInt64.ofNat (x % 2 ^ 64).toNat

namespace Pow

/-- The loop `for (int i = 0; pindexFirst && i < nPoWAveragingInterval - 1; i++)`: each
round moves to `GetLastBlockIndexForAlgo(pindexFirst->pprev, algo)`; `none` is the early
`return nProofOfWorkLimit.GetCompact()` when that is `NULL`. -/
def goBackAveragingInterval (algo : Algo) : Nat → BlockPtr → Option BlockPtr
  | 0, p => some p
  | _ + 1, [] => some []
  | k + 1, _ :: rest =>
      match getLastBlockIndexForAlgo rest algo with
      | [] => none
      | q => goBackAveragingInterval algo k q

/-- The time-warp loop `for ( ;; )`: while the previous block of `algo` has a later time
than `pindexFirst`, step back to it.  `none` is an early return of the limit (no previous
block of `algo`).  The source never enters it with `pindexFirst == NULL`; the model answers
`none` there. -/
def skipTimeWarp (algo : Algo) (pindexFirst : BlockPtr) : Option BlockPtr :=
  match pindexFirst with
  | [] => none
  | first :: rest =>
      match _hprev : getLastBlockIndexForAlgo rest algo with
      | [] => none
      | prev :: prevRest =>
          if first.GetBlockTime < prev.GetBlockTime then skipTimeWarp algo (prev :: prevRest)
          else some (first :: rest)
termination_by pindexFirst.length
decreasing_by
  -- the previous block of `algo` lies strictly below `first`
  have hle := length_getLastBlockIndexForAlgo_le algo rest
  rw [_hprev, List.length_cons] at hle
  simp only [List.length_cons]
  omega

/-- The three blocks the retarget reads, `(pindexLast, pindexPrev, pindexFirst)`, or `none`
when `GetNextWorkRequired` returns `nProofOfWorkLimit.GetCompact()` before it: no
`pindexLast`, no block of `algo`, too few of them, or the Argon2d changeover. -/
def retargetWindow (pindexLast : BlockPtr) (algo : Algo) (params : Params) :
    Option (CBlockIndex × CBlockIndex × CBlockIndex) :=
  match pindexLast with
  | [] => none
  | last :: _ =>
    match getLastBlockIndexForAlgo pindexLast algo with
    | [] => none
    | prev :: prevRest =>
      match goBackAveragingInterval algo (params.nPoWAveragingInterval - 1).toNat
          (prev :: prevRest) with
      | none => none
      | some pindexFirst =>
        match skipTimeWarp algo pindexFirst with
        | none | some [] => none
        | some (first :: _) =>
          -- the Qubit to Argon2d changeover restarts the slot at its limit
          if params.nTimeArgon2dStart.toNat ≤ last.GetBlockTime ∧
              first.GetBlockTime < params.nTimeArgon2dStart.toNat ∧ algo = ALGO_SLOT3 then none
          else some (last, prev, first)

/-- `nMinActualTimespan` and `nMaxActualTimespan`: 20% either way below height 1999 (the
initial mining phase), `nMaxAdjustUp` and `nMaxAdjustDown` percent after. -/
def timespanBounds (params : Params) (last : CBlockIndex) : Int × Int :=
  let t := params.nPoWAveragingTargetTimespan
  if last.nHeight < 1999 then ((t * (100 - 20)).tdiv 100, (t * (100 + 20)).tdiv 100)
  else ((t * (100 - params.nMaxAdjustUp)).tdiv 100, (t * (100 + params.nMaxAdjustDown)).tdiv 100)

/-- `nActualTimespan` after the two clamps. -/
def actualTimespan (params : Params) (last prev first : CBlockIndex) : Int :=
  let bounds := timespanBounds params last
  let t := prev.GetBlockTime - first.GetBlockTime
  let t := if t < bounds.1 then bounds.1 else t
  if bounds.2 < t then bounds.2 else t

/-- The retarget: `bnNew.SetCompact(pindexPrev->nBits)`, `bnNew *= nActualTimespan` (the
`uint32_t` overload, which the `int64_t` argument converts to), `bnNew /=
nPoWAveragingTargetTimespan()`, clamped to the limit, then `GetCompact()`. -/
def retarget (params : Params) (algo : Algo) (last prev first : CBlockIndex) :
    Except String UInt32 :=
  let nProofOfWorkLimit := params.powLimit algo
  let bnNew := (ArithUint256.setCompact prev.nBits).value
  let bnNew := bnNew.mul32 (toUInt32Wrap (actualTimespan params last prev first))
  match bnNew.div (BaseUint.ofUInt64 (toUInt64Wrap params.nPoWAveragingTargetTimespan)) with
  | .error e => .error e
  | .ok bnNew =>
      let bnNew := if 0 < bnNew.compareTo nProofOfWorkLimit then nProofOfWorkLimit else bnNew
      ArithUint256.getCompact bnNew

end Pow

/-- `GetNextWorkRequired(pindexLast, pblock, algo, params)`. -/
def getNextWorkRequired (pindexLast : BlockPtr) (algo : Algo) (params : Params) :
    Except String UInt32 :=
  match Pow.retargetWindow pindexLast algo params with
  | none => ArithUint256.getCompact (params.powLimit algo)
  | some (last, prev, first) => Pow.retarget params algo last prev first

end Unitus
