import Unitus.Primitives.Compressor
import Unitus.Primitives.Coins

/-!
# Primitives — the serialization of `CCoins`

`CCoins::Serialize` (`coins.h`) writes `VARINT(nVersion)`, then a header code `nCode` that folds
together the coinbase flag, whether outputs `0` and `1` are unspent, and the number of non-zero
bytes of a spentness bitmask over the outputs from `2` on (one less where neither of the first
two is unspent), then the bitmask up to its last non-zero byte (`CalcMaskSize`), then each
unspent output through `CTxOutCompressor`, and last `VARINT(nHeight)`.  `Unserialize` reads mask
bytes until it has read as many non-zero ones as the code says, reads the outputs the mask marks
unspent into outputs that `CTxOut()` left spent, and ends with `Cleanup`.

The loops' counters are `unsigned int`.  `CalcMaskSize` runs `b` while `2+b*8 < vout.size()`:
above `2^32 - 6` outputs `2+b*8` wraps before it reaches the size and the loop does not end,
which the model returns as an error of `Serialize`; up to that size no counter and no `nCode`
wraps.
-/

namespace Unitus

open Codec

namespace CCoins

/-- `CCoins::CalcMaskSize(nBytes, nNonzeroBytes)` from `0` and `0`: the byte after the last
byte `b` of the bitmask with an unspent output among outputs `2 + b*8` to `2 + b*8 + 7`, and
how many such bytes there are.  The loop `2+b*8 < vout.size()` runs `b` below
`(vout.size() + 5) / 8`; `none` where `2+b*8` wraps and it does not end. -/
def CalcMaskSize (coins : CCoins) : Option (Nat × Nat) :=
  if 2 ^ 32 - 6 < coins.vout.length then none
  else
    some ((List.range ((coins.vout.length + 5) / 8)).foldl (fun acc b =>
      let fZero := (List.range 8).all fun i =>
        !decide (2 + b * 8 + i < coins.vout.length) ||
          (coins.vout.getD (2 + b * 8 + i) CTxOut.null).IsNull
      if !fZero then (b + 1, acc.2 + 1) else acc) (0, 0))

/-- The byte `chAvail` of the bitmask at `b`: `chAvail |= (1 << i)` for each unspent output
`2 + b*8 + i`. -/
def maskByte (vout : List CTxOut) (b : Nat) : UInt8 :=
  (List.range 8).foldl (fun chAvail i =>
    if decide (2 + b * 8 + i < vout.length) && !(vout.getD (2 + b * 8 + i) CTxOut.null).IsNull
    then chAvail ||| ((1 : UInt8) <<< i.toUInt8) else chAvail) 0

/-- `CCoins::Serialize`, or the failed `assert(fFirst || fSecond || nMaskCode)` of a pruned
`CCoins`. -/
def Serialize (ops : PubKeyOps) (coins : CCoins) : Except String (List UInt8) := do
  let some (nMaskSize, nMaskCode) := coins.CalcMaskSize
    | throw "CalcMaskSize: 2+b*8 wraps and the loop does not end"
  let fFirst := decide (0 < coins.vout.length) && !(coins.vout.getD 0 CTxOut.null).IsNull
  let fSecond := decide (1 < coins.vout.length) && !(coins.vout.getD 1 CTxOut.null).IsNull
  if !(fFirst || fSecond || nMaskCode ≠ 0) then throw "assert(fFirst || fSecond || nMaskCode)"
  let nCode := 8 * (nMaskCode - (if fFirst || fSecond then 0 else 1)) +
    (if coins.fCoinBase then 1 else 0) + (if fFirst then 2 else 0) + (if fSecond then 4 else 0)
  pure (VarInt.WriteVarIntInt coins.nVersion ++ VarInt.WriteVarInt (BitVec.ofNat 32 nCode) ++
    (List.range nMaskSize).map (maskByte coins.vout) ++
    (coins.vout.filter fun out => !out.IsNull).flatMap (CTxOutCompressor.Serialize ops) ++
    VarInt.WriteVarIntInt coins.nHeight)

/-- The bits of a mask byte, `(chAvail & (1 << p)) != 0` for `p` from `0` to `7`. -/
def maskBits (chAvail : UInt8) : List Bool :=
  (List.range 8).map fun p => chAvail &&& ((1 : UInt8) <<< p.toUInt8) ≠ 0

/-- The loop `while (nMaskCode > 0)` of `Unserialize`: mask bytes read and their bits pushed
onto `vAvail` until `nMaskCode` non-zero bytes are read. -/
def readMaskLoop : Nat → List Bool → List UInt8 → Except String (List Bool × List UInt8)
  | 0, vAvail, s => .ok (vAvail, s)
  | _ + 1, _, [] => .error endOfData
  | nMaskCode + 1, vAvail, chAvail :: s =>
    readMaskLoop (if chAvail ≠ 0 then nMaskCode else nMaskCode + 1) (vAvail ++ maskBits chAvail) s

/-- The loop over `vAvail` reading each unspent output into the `CTxOut()` that
`vout.assign` put there. -/
def readOutputs (ops : PubKeyOps) : List Bool → StreamReader (List CTxOut)
  | [] => pure []
  | fAvail :: vAvail => do
    let out ← if fAvail then CTxOutCompressor.Unserialize ops CTxOut.null else pure CTxOut.null
    let vout ← readOutputs ops vAvail
    pure (out :: vout)

/-- `CCoins::Unserialize`. -/
def Unserialize (ops : PubKeyOps) : StreamReader CCoins := do
  let nVersion ← VarInt.ReadVarIntInt
  let nCode ← VarInt.ReadVarInt (w := 32)
  let fCoinBase := nCode &&& 1 ≠ 0
  let nMaskCode := nCode.toNat / 8 + (if nCode &&& 6 ≠ 0 then 0 else 1)
  let vAvail ← fun s => readMaskLoop nMaskCode [nCode &&& 2 ≠ 0, nCode &&& 4 ≠ 0] s
  let vout ← readOutputs ops vAvail
  let nHeight ← VarInt.ReadVarIntInt
  pure (Cleanup ⟨fCoinBase, vout, nHeight, nVersion⟩)

end CCoins

end Unitus
