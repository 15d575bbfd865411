import Unitus.Primitives.Coins

/-!
# Validation — `CheckTxInputs`

`Consensus::CheckTxInputs` (`validation.cpp`) checks a transaction against the coins it spends:
`HaveInputs` first, then, input by input, the maturity of a spent coinbase and the range of the
output and of the running sum `nValueIn`, then that the inputs cover `GetValueOut()` and that
the fee is in range.  `nSpendHeight - coins->nHeight` is `int` arithmetic, here `Int32`.

What a rejection writes to `CValidationState` is its DoS level and reject reason (the debug
message is left out).  A failed `assert`, a `vout[n]` out of range, the exception of
`GetValueOut` and a signed overflow end the function without a result: an `abort`.
-/

namespace Unitus

/-- `COINBASE_MATURITY`. -/
def COINBASE_MATURITY : Int32 := 180

/-- How `Consensus::CheckTxInputs` ends: `true` with the fee it tallied; `false` with the DoS
level and reject reason it gives `state`; or an abort. -/
inductive TxInputsResult
  | valid (nFees : Int)
  | invalid (nDoS : Nat) (strRejectReason : String)
  | abort (what : String)
  deriving DecidableEq

/-- The loop over `tx.vin` from a running `nValueIn`: the final `nValueIn`, or how the function
ends inside the loop.  `nSpendHeight - coins->nHeight` is a signed `int` subtraction, whose
overflow C++ leaves undefined and the model wraps as `Int32`; both are block heights in
`[0, 2 ^ 31)`, whose difference never overflows, so the wrap is never reached on real heights. -/
def checkTxInputsLoop (inputs : CoinsView) (nSpendHeight : Int32) :
    List CTxIn → Int → Except TxInputsResult Int
  | [], nValueIn => .ok nValueIn
  | txin :: vin, nValueIn => do
    let prevout := txin.prevout
    let some coins := inputs prevout.hash | throw (.abort "assert(coins)")
    if coins.IsCoinBase && nSpendHeight - coins.nHeight < COINBASE_MATURITY then
      throw (.invalid 0 "bad-txns-premature-spend-of-coinbase")
    let some out := coins.vout[prevout.n.toNat]? | throw (.abort "vout[prevout.n]")
    let nValueIn ← (addInt64 nValueIn out.nValue).mapError .abort
    if !MoneyRange out.nValue || !MoneyRange nValueIn then
      throw (.invalid 100 "bad-txns-inputvalues-outofrange")
    checkTxInputsLoop inputs nSpendHeight vin nValueIn

/-- `Consensus::CheckTxInputs(tx, state, inputs, nSpendHeight)`.  The source calls
`tx.GetValueOut()` twice, for the comparison and for the fee; both calls return the same. -/
def CheckTxInputs (tx : CTransaction) (inputs : CoinsView) (nSpendHeight : Int32) :
    TxInputsResult :=
  if !HaveInputs inputs tx then .invalid 0 ""
  else
    let body : Except TxInputsResult Int := do
      let nValueIn ← checkTxInputsLoop inputs nSpendHeight tx.vin 0
      let nValueOut ← tx.GetValueOut.mapError .abort
      if nValueIn < nValueOut then throw (.invalid 100 "bad-txns-in-belowout")
      let nTxFee ← (subInt64 nValueIn nValueOut).mapError .abort
      if nTxFee < 0 then throw (.invalid 100 "bad-txns-fee-negative")
      let nFees ← (addInt64 0 nTxFee).mapError .abort
      if !MoneyRange nFees then throw (.invalid 100 "bad-txns-fee-outofrange")
      pure nFees
    match body with
    | .ok nFees => .valid nFees
    | .error r => r

end Unitus
