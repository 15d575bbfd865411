import Unitus.AuxPow.Check
import Unitus.Primitives.Serialize

/-!
# Primitives — blocks and their serialization

`CBlockHeader` (`primitives/block.h`) is the pure header with the auxpow of a merge-mined block,
present exactly when the version's `VERSION_AUXPOW` bit says so where `SetAuxpow` keeps the two
together; `CBlock` adds the transactions.  The memory-only `fChecked` is left out.

The writers are the `SerializationOp`s for a stream whose version allows witnesses or not
(`fAllowWitness`).  Writing a header whose version has the auxpow bit but no auxpow fails the
source's `assert(auxpow)`: the writer answers `none` there.
-/

namespace Unitus

/-- `CPureBlockHeader::VERSION_AUXPOW`. -/
def VERSION_AUXPOW : Int32 := (1 : Int32) <<< 8

namespace CPureBlockHeader

/-- `IsAuxpow()`: `nVersion & VERSION_AUXPOW`. -/
def IsAuxpow (h : CPureBlockHeader) : Bool := h.nVersion &&& VERSION_AUXPOW != 0

/-- `SetAuxpowVersion(auxpow)`. -/
def SetAuxpowVersion (auxpow : Bool) (h : CPureBlockHeader) : CPureBlockHeader :=
  { h with nVersion :=
      if auxpow then h.nVersion ||| VERSION_AUXPOW else h.nVersion &&& ~~~VERSION_AUXPOW }

end CPureBlockHeader

/-- `CBlockHeader`: the pure header and the `auxpow` pointer, `none` for null. -/
structure CBlockHeader extends CPureBlockHeader where
  auxpow : Option CAuxPow

/-- `CBlockHeader::SetAuxpow(apow)`: the pointer, and the version bit to match. -/
def CBlockHeader.SetAuxpow (apow : Option CAuxPow) (h : CBlockHeader) : CBlockHeader :=
  { toCPureBlockHeader := h.toCPureBlockHeader.SetAuxpowVersion apow.isSome, auxpow := apow }

/-- `CBlock`: the header and `vtx`. -/
structure CBlock extends CBlockHeader where
  vtx : List CTransaction

/-- `CPureBlockHeader::SerializationOp`. -/
def serPureHeader (h : CPureBlockHeader) : List UInt8 :=
  serInt32 h.nVersion ++ serUint256 h.hashPrevBlock ++ serUint256 h.hashMerkleRoot ++
    serUInt32 h.nTime ++ serUInt32 h.nBits ++ serUInt32 h.nNonce

/-- `CAuxPow::SerializationOp`: the `CMerkleTx` (`tx`, `hashBlock`, `vMerkleBranch`, `nIndex`),
then `vChainMerkleBranch`, `nChainIndex` and `parentBlock`. -/
def serAuxPow (fAllowWitness : Bool) (a : CAuxPow) : List UInt8 :=
  SerializeTransaction fAllowWitness a.tx ++ serUint256 a.hashBlock ++
    serVector serUint256 a.vMerkleBranch ++ serInt a.nIndex ++
    serVector serUint256 a.vChainMerkleBranch ++ serInt a.nChainIndex ++
    serPureHeader a.parentBlock

/-- `CBlockHeader::SerializationOp` when writing: the pure header, then the auxpow if the version
says there is one. -/
def serBlockHeader (fAllowWitness : Bool) (h : CBlockHeader) : Option (List UInt8) :=
  if h.IsAuxpow then
    -- `assert(auxpow)`
    h.auxpow.map fun a => serPureHeader h.toCPureBlockHeader ++ serAuxPow fAllowWitness a
  else some (serPureHeader h.toCPureBlockHeader)

/-- `CBlock::SerializationOp` when writing: the header, then `vtx`. -/
def serBlock (fAllowWitness : Bool) (b : CBlock) : Option (List UInt8) :=
  (serBlockHeader fAllowWitness b.toCBlockHeader).map fun header =>
    header ++ serVector (SerializeTransaction fAllowWitness) b.vtx

end Unitus
