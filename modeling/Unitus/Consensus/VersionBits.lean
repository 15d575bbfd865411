import Unitus.Chain.BlockIndex
import Unitus.Lib.Memo

/-!
# Consensus — BIP9 version bits

`AbstractThresholdConditionChecker::GetStateFor` and `GetStateSinceHeightFor` of
`versionbits.cpp`, and the `VersionBitsConditionChecker` that instantiates them.  A checker is
what its virtual functions return: the `Condition` on a block, and the deployment's `Period`,
`Threshold`, `BeginTime` and `EndTime`.  The `ThresholdConditionCache` is keyed by the pointer,
which is a `BlockPtr` here.

`GetStateFor` snaps `pindexPrev` to the last block of the previous period, walks back a period at
a time until the cache knows the state (or `NULL`, or a block whose median time is before the
start, both `THRESHOLD_DEFINED`), and walks forward again, filling the cache.  Its two loops end
because each backward step moves to a shorter pointer while the period is positive; the model
gives the backward walk one step more than the pointer has blocks, and answers `none` if that
runs out, which it does only for a period of `0`, where the source does not stop either.
-/

namespace Unitus

open Memo

/-- `ThresholdState`. -/
inductive ThresholdState where
  | THRESHOLD_DEFINED
  | THRESHOLD_STARTED
  | THRESHOLD_LOCKED_IN
  | THRESHOLD_ACTIVE
  | THRESHOLD_FAILED
  deriving DecidableEq, Repr

open ThresholdState

/-- `ThresholdConditionCache`: the state computed for the block after a period's last block, by
that block's pointer. -/
abbrev ThresholdConditionCache := Cache BlockPtr ThresholdState

/-- What an `AbstractThresholdConditionChecker` supplies. -/
structure AbstractThresholdConditionChecker where
  Condition : BlockPtr → Bool
  Period : Int
  Threshold : Int
  BeginTime : Int
  EndTime : Int

namespace AbstractThresholdConditionChecker

variable (c : AbstractThresholdConditionChecker)

/-- The last block of the period before the block after `pindexPrev`:
`pindexPrev->GetAncestor(pindexPrev->nHeight - ((pindexPrev->nHeight + 1) % nPeriod))`. -/
def periodStart (pindexPrev : BlockPtr) : BlockPtr :=
  match pindexPrev with
  | [] => []
  | b :: _ => GetAncestor pindexPrev (b.nHeight - (b.nHeight + 1).tmod c.Period)

/-- The last block of the period before: `GetAncestor(nHeight - nPeriod)`. -/
def periodBefore (pindexPrev : BlockPtr) : BlockPtr :=
  match pindexPrev with
  | [] => []
  | b :: _ => GetAncestor pindexPrev (b.nHeight - c.Period)

/-- The counting loop: how many of the `n` blocks from `pindexCount` down satisfy `Condition`. -/
def countCondition : Nat → BlockPtr → Int
  | 0, _ => 0
  | n + 1, pindexCount =>
    (if c.Condition pindexCount then 1 else 0) + countCondition n pindexCount.tail

/-- One turn of the forward walk: the `switch` from the state of the period ending before
`pindexPrev`'s period to the state after `pindexPrev`. -/
def nextState (state : ThresholdState) (pindexPrev : BlockPtr) : ThresholdState :=
  match state with
  | THRESHOLD_DEFINED =>
    if GetMedianTimePast pindexPrev ≥ c.EndTime then THRESHOLD_FAILED
    else if GetMedianTimePast pindexPrev ≥ c.BeginTime then THRESHOLD_STARTED
    else THRESHOLD_DEFINED
  | THRESHOLD_STARTED =>
    if GetMedianTimePast pindexPrev ≥ c.EndTime then THRESHOLD_FAILED
    else if c.countCondition c.Period.toNat pindexPrev ≥ c.Threshold then THRESHOLD_LOCKED_IN
    else THRESHOLD_STARTED
  | THRESHOLD_LOCKED_IN => THRESHOLD_ACTIVE
  | THRESHOLD_FAILED => THRESHOLD_FAILED
  | THRESHOLD_ACTIVE => THRESHOLD_ACTIVE

/-- The backward walk, for at most `fuel` steps: `vToCompute` (its `back()` first), the block
whose state the cache then knows, and the cache. -/
def walkBack : Nat → BlockPtr → List BlockPtr → ThresholdConditionCache →
    Option (List BlockPtr × BlockPtr × ThresholdConditionCache)
  | 0, _, _, _ => none
  | fuel + 1, pindexPrev, vToCompute, cache =>
    if (cache pindexPrev).isSome then some (vToCompute, pindexPrev, cache)
    else match pindexPrev with
      | [] =>
        -- the genesis block is by definition defined
        some (vToCompute, [], cache.insert [] THRESHOLD_DEFINED)
      | b :: rest =>
        if GetMedianTimePast (b :: rest) < c.BeginTime then
          -- the start-time shortcut: no earlier block is computed
          some (vToCompute, b :: rest, cache.insert (b :: rest) THRESHOLD_DEFINED)
        else walkBack fuel (c.periodBefore (b :: rest)) ((b :: rest) :: vToCompute) cache

/-- The forward walk: each block of `vToCompute` gets the next state, into the cache. -/
def walkForward : ThresholdState → List BlockPtr → ThresholdConditionCache →
    ThresholdState × ThresholdConditionCache
  | state, [], cache => (state, cache)
  | state, pindexPrev :: vToCompute, cache =>
    let stateNext := c.nextState state pindexPrev
    walkForward stateNext vToCompute (cache.insert pindexPrev stateNext)

/-- `GetStateFor(pindexPrev, params, cache)`: the state of the block after `pindexPrev`, and the
cache it leaves. -/
def GetStateFor (pindexPrev : BlockPtr) (cache : ThresholdConditionCache) :
    Option (ThresholdState × ThresholdConditionCache) :=
  let pindexPrev := c.periodStart pindexPrev
  match c.walkBack (pindexPrev.length + 1) pindexPrev [] cache with
  | none => none
  | some (vToCompute, pindexKnown, cache) =>
    -- `assert(cache.count(pindexPrev))`
    match cache pindexKnown with
    | none => none
    | some state => some (c.walkForward state vToCompute cache)

/-- The loop of `GetStateSinceHeightFor` from the period ending at `b :: rest` whose state is
`initialState`, for at most `fuel` periods: step to the period before while its state is still
`initialState`, then answer the first height of the period reached. -/
def sinceLoop (initialState : ThresholdState) :
    Nat → CBlockIndex → BlockPtr → ThresholdConditionCache → Option (Int × ThresholdConditionCache)
  | 0, _, _, _ => none
  | fuel + 1, b, rest, cache =>
    match c.periodBefore (b :: rest) with
    | [] => some (b.nHeight + 1, cache)
    | q :: qs =>
      match c.GetStateFor (q :: qs) cache with
      | none => none
      | some (state, cache) =>
        if state = initialState then sinceLoop initialState fuel q qs cache
        else some (b.nHeight + 1, cache)

/-- `GetStateSinceHeightFor(pindexPrev, params, cache)`: the first height of the run of periods,
up to the block after `pindexPrev`, in the state of that block. -/
def GetStateSinceHeightFor (pindexPrev : BlockPtr) (cache : ThresholdConditionCache) :
    Option (Int × ThresholdConditionCache) :=
  match c.GetStateFor pindexPrev cache with
  | none => none
  | some (initialState, cache) =>
    if initialState = THRESHOLD_DEFINED then some (0, cache)
    else match c.periodStart pindexPrev with
      -- a `NULL` period start is `THRESHOLD_DEFINED`, answered above
      | [] => none
      | b :: rest => c.sinceLoop initialState (rest.length + 1) b rest cache

end AbstractThresholdConditionChecker

/-- `VERSIONBITS_TOP_BITS`. -/
def VERSIONBITS_TOP_BITS : Int32 := 0x20000000

/-- `VERSIONBITS_TOP_MASK`. -/
def VERSIONBITS_TOP_MASK : Int32 := (0xE0000000 : UInt32).toInt32

/-- `Consensus::BIP9Deployment`. -/
structure BIP9Deployment where
  bit : Nat
  nStartTime : Int
  nTimeout : Int

/-- `VersionBitsConditionChecker(pos)` over the deployment `vDeployments[pos]`, with
`nMinerConfirmationWindow` and `nRuleChangeActivationThreshold`. -/
def VersionBitsConditionChecker (d : BIP9Deployment)
    (nMinerConfirmationWindow nRuleChangeActivationThreshold : Int) :
    AbstractThresholdConditionChecker where
  Condition
    | [] => false
    | b :: _ => (b.nVersion &&& VERSIONBITS_TOP_MASK) == VERSIONBITS_TOP_BITS &&
        (b.nVersion.toUInt32 &&& ((1 : UInt32) <<< d.bit.toUInt32)) != 0
  Period := nMinerConfirmationWindow
  Threshold := nRuleChangeActivationThreshold
  BeginTime := d.nStartTime
  EndTime := d.nTimeout

end Unitus
