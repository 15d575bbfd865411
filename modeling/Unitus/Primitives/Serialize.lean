import Unitus.Primitives.Transaction

/-!
# Primitives — the byte streams of `serialize.h`

A stream is the list of bytes written to it.  Integers are written little-endian
(`ser_writedata16/32/64`), a length as a `CompactSize`, a vector as its length and then each
element, and a transaction without witness in the field order of `SerializeTransaction`.  The
hash of a stream (`CHashWriter::GetHash`, the double SHA-256) is a parameter
`hash : List UInt8 → Uint256` wherever a stream is hashed.
-/

namespace Unitus

/-- The `k` low bytes of `n`, least significant first: `ser_writedata8/16/32/64` after
`htole`. -/
def leBytes (n : Nat) : Nat → List UInt8
  | 0 => []
  | k + 1 => UInt8.ofNat (n % 256) :: leBytes (n / 256) k

@[simp] theorem length_leBytes (n k : Nat) : (leBytes n k).length = k := by
  induction k generalizing n with
  | zero => rfl
  | succ k ih => simp [leBytes, ih]

/-- `WriteCompactSize(os, nSize)`. -/
def WriteCompactSize (nSize : Nat) : List UInt8 :=
  if nSize < 253 then leBytes nSize 1
  else if nSize ≤ 0xffff then 253 :: leBytes nSize 2
  else if nSize ≤ 0xffffffff then 254 :: leBytes nSize 4
  else 255 :: leBytes nSize 8

/-- `GetSizeOfCompactSize(nSize)`: the bytes `WriteCompactSize` takes, as `CSizeComputer`
counts them. -/
def GetSizeOfCompactSize (nSize : Nat) : Nat :=
  if nSize < 253 then 1
  else if nSize ≤ 0xffff then 1 + 2
  else if nSize ≤ 0xffffffff then 1 + 4
  else 1 + 8

/-- `Serialize(s, uint32_t)`. -/
def serUInt32 (a : UInt32) : List UInt8 := leBytes a.toNat 4

/-- `Serialize(s, int32_t)`: the two's complement bits. -/
def serInt32 (a : Int32) : List UInt8 := leBytes a.toUInt32.toNat 4

/-- `Serialize(s, int64_t)` of a `CAmount`: the two's complement bits. -/
def serInt64 (a : Int) : List UInt8 := leBytes (a % 2 ^ 64).toNat 8

/-- `uint256::Serialize`: the 32 bytes. -/
def serUint256 (h : Uint256) : List UInt8 := h.data

/-- `Serialize(s, prevector)` of a script: its size, then its bytes. -/
def serScript (script : CScript) : List UInt8 := WriteCompactSize script.length ++ script

/-- `Serialize(s, std::vector<T>)`: the size, then each element. -/
def serVector {α : Type} (f : α → List UInt8) (v : List α) : List UInt8 :=
  WriteCompactSize v.length ++ v.flatMap f

/-- `COutPoint`: `hash`, `n`. -/
def serOutPoint (o : COutPoint) : List UInt8 := serUint256 o.hash ++ serUInt32 o.n

/-- `CTxIn`: `prevout`, `scriptSig`, `nSequence`. -/
def serTxIn (i : CTxIn) : List UInt8 :=
  serOutPoint i.prevout ++ serScript i.scriptSig ++ serUInt32 i.nSequence

/-- `CTxOut`: `nValue`, `scriptPubKey`. -/
def serTxOut (o : CTxOut) : List UInt8 := serInt64 o.nValue ++ serScript o.scriptPubKey

/-- `SerializeTransaction` on a stream with `SERIALIZE_TRANSACTION_NO_WITNESS`: `nVersion`,
`vin`, `vout`, `nLockTime`. -/
def serTransaction (tx : CTransaction) : List UInt8 :=
  serInt32 tx.nVersion ++ serVector serTxIn tx.vin ++ serVector serTxOut tx.vout ++
    serUInt32 tx.nLockTime

/-- `Serialize(s, int)`: an `int` is an `int32_t`. -/
def serInt (a : Int) : List UInt8 := serInt32 (Int32.ofInt a)

/-- `CTransaction::HasWitness()`: some input's witness stack is not empty. -/
def CTransaction.HasWitness (tx : CTransaction) : Bool := tx.vin.any fun i => !i.scriptWitness.isEmpty

/-- `SerializeTransaction(tx, s)`; `fAllowWitness` is `!(s.GetVersion() &
SERIALIZE_TRANSACTION_NO_WITNESS)`.  With a witness to write, an empty `vin` and the `flags`
byte come first, and each input's witness stack follows `vout`. -/
def SerializeTransaction (fAllowWitness : Bool) (tx : CTransaction) : List UInt8 :=
  let flags : UInt8 := if fAllowWitness && tx.HasWitness then 1 else 0
  serInt32 tx.nVersion ++
    (if flags != 0 then serVector serTxIn [] ++ [flags] else []) ++
    serVector serTxIn tx.vin ++ serVector serTxOut tx.vout ++
    (if flags &&& 1 != 0 then tx.vin.flatMap fun i => serVector serScript i.scriptWitness
      else []) ++
    serUInt32 tx.nLockTime

end Unitus
