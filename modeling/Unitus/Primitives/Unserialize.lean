import Unitus.Primitives.Block
import Unitus.Lib.Codec

/-!
# Primitives — reading the byte streams of `serialize.h`

A `CDataStream` being read is the list of bytes left in it, and a read that fails throws
`std::ios_base::failure` with the source's message: `CDataStream::read` when fewer bytes are
left than it asks for, `ReadCompactSize` for a size written in more bytes than it needs or above
`MAX_SIZE`, and `UnserializeTransaction` for a flag it does not know.

A vector is read element by element: the source's reads in batches (of at most five million bytes
for a byte vector) read the same elements, and throw the same message when the stream ends early.
An input read outside `UnserializeTransaction`'s witness loop has an empty witness stack, as the
default-constructed `CScriptWitness` of the source.
-/

namespace Unitus

open Codec

/-- A reader of a `CDataStream`: the bytes left, and the message of a throw. -/
abbrev StreamReader := Reader String UInt8

/-- The message of `CDataStream::read` when fewer bytes are left than asked for. -/
def endOfData : String := "CDataStream::read(): end of data"

/-- `ser_readdata8`. -/
def ser_readdata8 : StreamReader UInt8 := readToken endOfData

/-- The number whose little-endian bytes these are. -/
def leValue : List UInt8 → Nat
  | [] => 0
  | b :: bs => b.toNat + 256 * leValue bs

/-- `ser_readdata16/32/64` after `le16toh`/`le32toh`/`le64toh`: `k` bytes, little-endian. -/
def readLE (k : Nat) : StreamReader Nat := do
  let bytes ← readTokens endOfData k
  pure (leValue bytes.1)

/-- `Unserialize(s, uint32_t)`. -/
def readUInt32 : StreamReader UInt32 := do
  let n ← readLE 4
  pure (UInt32.ofNat n)

/-- `Unserialize(s, int32_t)`. -/
def readInt32 : StreamReader Int32 := do
  let n ← readLE 4
  pure (UInt32.ofNat n).toInt32

/-- `Unserialize(s, int)`: an `int` is an `int32_t`. -/
def readInt : StreamReader Int := do
  let n ← readInt32
  pure n.toInt

/-- `Unserialize(s, int64_t)` of a `CAmount`: 64 bits of two's complement. -/
def readInt64 : StreamReader Int := do
  let n ← readLE 8
  pure (if n < 2 ^ 63 then (n : Int) else n - 2 ^ 64)

/-- `uint256::Unserialize`: 32 bytes. -/
def readUint256 : StreamReader Uint256 := do
  let bytes ← readTokens endOfData 32
  pure ⟨bytes.1, bytes.2⟩

/-- `MAX_SIZE`. -/
def MAX_SIZE : Nat := 0x02000000

/-- The message of `ReadCompactSize` for a size written in more bytes than it needs. -/
def nonCanonical : String := "non-canonical ReadCompactSize()"

/-- `ReadCompactSize(is)`. -/
def ReadCompactSize : StreamReader Nat := do
  let chSize ← ser_readdata8
  let nSizeRet ←
    if chSize.toNat < 253 then pure chSize.toNat
    else if chSize = 253 then do
      let n ← readLE 2
      if n < 253 then throw nonCanonical else pure n
    else if chSize = 254 then do
      let n ← readLE 4
      if n < 0x10000 then throw nonCanonical else pure n
    else do
      let n ← readLE 8
      if n < 0x100000000 then throw nonCanonical else pure n
  if nSizeRet > MAX_SIZE then throw "ReadCompactSize(): size too large" else pure nSizeRet

/-- `Unserialize(s, std::vector<T>)` of elements that `rd` reads: the size, then each element. -/
def readVector {α : Type} (rd : StreamReader α) : StreamReader (List α) := do
  let nSize ← ReadCompactSize
  readN rd nSize

/-- `Unserialize(s, prevector)` of a script, or of a `std::vector<unsigned char>`: the size, then
the bytes. -/
def readScript : StreamReader (List UInt8) := do
  let nSize ← ReadCompactSize
  let bytes ← readTokens endOfData nSize
  pure bytes.1

/-- `COutPoint::SerializationOp`. -/
def readOutPoint : StreamReader COutPoint := do
  let hash ← readUint256
  let n ← readUInt32
  pure ⟨hash, n⟩

/-- `CTxIn::SerializationOp`. -/
def readTxIn : StreamReader CTxIn := do
  let prevout ← readOutPoint
  let scriptSig ← readScript
  let nSequence ← readUInt32
  pure ⟨prevout, scriptSig, nSequence, []⟩

/-- `CTxOut::SerializationOp`. -/
def readTxOut : StreamReader CTxOut := do
  let nValue ← readInt64
  let scriptPubKey ← readScript
  pure ⟨nValue, scriptPubKey⟩

/-- The loop of `UnserializeTransaction` that reads each input's witness stack. -/
def readWitnesses : List CTxIn → StreamReader (List CTxIn)
  | [] => pure []
  | txin :: vin => do
    let stack ← readVector readScript
    let vin ← readWitnesses vin
    pure ({ txin with scriptWitness := stack } :: vin)

/-- The message for a flag `UnserializeTransaction` does not know. -/
def unknownOptionalData : String := "Unknown transaction optional data"

/-- `UnserializeTransaction(tx, s)`; `fAllowWitness` is `!(s.GetVersion() &
SERIALIZE_TRANSACTION_NO_WITNESS)`. -/
def UnserializeTransaction (fAllowWitness : Bool) : StreamReader CTransaction := do
  let nVersion ← readInt32
  let vin ← readVector readTxIn
  -- an empty `vin` is the dummy of the extended format, or an empty `vin`
  let (flags, vin, vout) ←
    if vin.length = 0 ∧ fAllowWitness = true then do
      let flags ← ser_readdata8
      if flags ≠ 0 then do
        let vin ← readVector readTxIn
        let vout ← readVector readTxOut
        pure (flags, vin, vout)
      else pure (flags, vin, [])
    else do
      let vout ← readVector readTxOut
      pure ((0 : UInt8), vin, vout)
  let (flags, vin) ←
    if flags &&& 1 ≠ 0 ∧ fAllowWitness = true then do
      let vin ← readWitnesses vin
      pure (flags ^^^ 1, vin)
    else pure (flags, vin)
  if flags ≠ 0 then throw unknownOptionalData
  let nLockTime ← readUInt32
  pure ⟨nVersion, vin, vout, nLockTime⟩

/-- `CPureBlockHeader::SerializationOp` when reading. -/
def readPureHeader : StreamReader CPureBlockHeader := do
  let nVersion ← readInt32
  let hashPrevBlock ← readUint256
  let hashMerkleRoot ← readUint256
  let nTime ← readUInt32
  let nBits ← readUInt32
  let nNonce ← readUInt32
  pure ⟨nVersion, hashPrevBlock, hashMerkleRoot, nTime, nBits, nNonce⟩

/-- `CAuxPow::SerializationOp` when reading. -/
def readAuxPow (fAllowWitness : Bool) : StreamReader CAuxPow := do
  let tx ← UnserializeTransaction fAllowWitness
  let hashBlock ← readUint256
  let vMerkleBranch ← readVector readUint256
  let nIndex ← readInt
  let vChainMerkleBranch ← readVector readUint256
  let nChainIndex ← readInt
  let parentBlock ← readPureHeader
  pure ⟨tx, hashBlock, vMerkleBranch, nIndex, vChainMerkleBranch, nChainIndex, parentBlock⟩

/-- `CBlockHeader::SerializationOp` when reading: the auxpow is read, and set, exactly when the
version says there is one. -/
def readBlockHeader (fAllowWitness : Bool) : StreamReader CBlockHeader := do
  let header ← readPureHeader
  if header.IsAuxpow then do
    let a ← readAuxPow fAllowWitness
    pure { toCPureBlockHeader := header, auxpow := some a }
  else pure { toCPureBlockHeader := header, auxpow := none }

/-- `CBlock::SerializationOp` when reading. -/
def readBlock (fAllowWitness : Bool) : StreamReader CBlock := do
  let header ← readBlockHeader fAllowWitness
  let vtx ← readVector (UnserializeTransaction fAllowWitness)
  pure { toCBlockHeader := header, vtx := vtx }

end Unitus
