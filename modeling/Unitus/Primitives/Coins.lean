import Unitus.Primitives.Transaction

/-!
# Primitives — amounts and coins

`CAmount` (`amount.h`) is an `int64_t`, here an `Int`; `MoneyRange` bounds it by `MAX_MONEY`.
`CTransaction::GetValueOut()` (`primitives/transaction.cpp`) adds a transaction's outputs and
throws when an output or the running sum leaves `MoneyRange`.  An `int64_t` sum that leaves
the `int64_t` range is a signed overflow, which the model makes an error as it makes the
exception one.

`CCoins` (`coins.h`) holds the outputs of one transaction that are still unspent, spent ones
set null, with the transaction's coinbase flag, height and version; `Cleanup` drops the spent
outputs at the end.  A `CCoinsViewCache`, as `AccessCoins` reads it, is a `CoinsView`: the coins
of each txid, or none.
-/

namespace Unitus

/-! ### Amounts -/

/-- `COIN`. -/
def COIN : Int := 100000000

/-- `MAX_MONEY`. -/
def MAX_MONEY : Int := 100000000 * COIN

/-- `MoneyRange(nValue)`. -/
def MoneyRange (nValue : Int) : Bool := 0 ≤ nValue && nValue ≤ MAX_MONEY

theorem MoneyRange_iff {nValue : Int} :
    MoneyRange nValue = true ↔ 0 ≤ nValue ∧ nValue ≤ 10 ^ 16 := by
  simp only [MoneyRange, MAX_MONEY, COIN, Bool.and_eq_true, decide_eq_true_eq]
  norm_num

/-- `a + b` on `int64_t`: the sum, or an error where it leaves the range (a signed overflow). -/
def addInt64 (a b : Int) : Except String Int :=
  if -2 ^ 63 ≤ a + b ∧ a + b < 2 ^ 63 then .ok (a + b) else .error "signed overflow"

/-- `a - b` on `int64_t`: the difference, or an error where it leaves the range. -/
def subInt64 (a b : Int) : Except String Int :=
  if -2 ^ 63 ≤ a - b ∧ a - b < 2 ^ 63 then .ok (a - b) else .error "signed overflow"

/-- The loop of `CTransaction::GetValueOut()` from a running `nValueOut`. -/
def getValueOutLoop : List CTxOut → Int → Except String Int
  | [], nValueOut => .ok nValueOut
  | out :: vout, nValueOut => do
    let nValueOut ← addInt64 nValueOut out.nValue
    if !MoneyRange out.nValue || !MoneyRange nValueOut then
      throw "GetValueOut: value out of range"
    getValueOutLoop vout nValueOut

/-- `CTransaction::GetValueOut()`. -/
def CTransaction.GetValueOut (tx : CTransaction) : Except String Int :=
  getValueOutLoop tx.vout 0

/-! ### Coins -/

/-- `CCoins`: the outputs of a transaction, spent ones null, and where it was mined. -/
structure CCoins where
  fCoinBase : Bool
  vout : List CTxOut
  nHeight : Int32
  nVersion : Int32
  deriving DecidableEq

namespace CCoins

/-- `CCoins::IsCoinBase()`. -/
def IsCoinBase (coins : CCoins) : Bool := coins.fCoinBase

/-- `CCoins::IsAvailable(nPos)`: the output exists and is not spent. -/
def IsAvailable (coins : CCoins) (nPos : UInt32) : Bool :=
  decide (nPos.toNat < coins.vout.length) && !(coins.vout.getD nPos.toNat CTxOut.null).IsNull

/-- `CCoins::IsPruned()`: every output is spent. -/
def IsPruned (coins : CCoins) : Bool := coins.vout.all CTxOut.IsNull

/-- `CCoins::Cleanup()`: the spent outputs at the end of `vout` popped off, one by one while
the last is spent. -/
def Cleanup (coins : CCoins) : CCoins := { coins with vout := coins.vout.rdropWhile CTxOut.IsNull }

end CCoins

/-- A `CCoinsViewCache` as `AccessCoins` reads it: the coins of a txid, `none` for `NULL`. -/
abbrev CoinsView := Uint256 → Option CCoins

/-- `CCoinsViewCache::HaveInputs(tx)`: every input's coins are there with the output
unspent; a coinbase has no inputs to look up. -/
def HaveInputs (inputs : CoinsView) (tx : CTransaction) : Bool :=
  if !tx.IsCoinBase then
    tx.vin.all fun txin =>
      match inputs txin.prevout.hash with
      | some coins => coins.IsAvailable txin.prevout.n
      | none => false
  else true

end Unitus
