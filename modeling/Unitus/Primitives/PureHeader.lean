import Unitus.Primitives.Transaction

/-!
# Primitives — the pure block header and its algorithm slot

`CPureBlockHeader` (`primitives/pureheader.h`) is the header without its auxpow.  Its
version carries, besides the base version, the chain ID (`nVersion / VERSION_CHAIN_START`) and
the mining algorithm: `getAlgo` is `GetAlgo(int nVersion)` (`primitives/pureheader.cpp`), where
bits 9–11 select one of the five algorithm slots and any other value selects slot 1.
-/

namespace Unitus

/-- `algoCount` (`consensus/params.h`), the `NUM_ALGOS` of `primitives/pureheader.h`. -/
abbrev algoCount : Nat := 5

/-- An algorithm slot, `ALGO_SLOT1 = 0` to `ALGO_SLOT5 = 4`. -/
abbrev Algo := Fin algoCount

def ALGO_SLOT1 : Algo := 0
def ALGO_SLOT2 : Algo := 1
def ALGO_SLOT3 : Algo := 2
def ALGO_SLOT4 : Algo := 3
def ALGO_SLOT5 : Algo := 4

def BLOCK_VERSION_ALGO : Int32 := (7 : Int32) <<< 9
def BLOCK_VERSION_SLOT2 : Int32 := (1 : Int32) <<< 9
def BLOCK_VERSION_SLOT3 : Int32 := (2 : Int32) <<< 9
def BLOCK_VERSION_SLOT4 : Int32 := (3 : Int32) <<< 9
def BLOCK_VERSION_SLOT5 : Int32 := (4 : Int32) <<< 9

/-- `GetAlgo(int nVersion)`. -/
def getAlgo (nVersion : Int32) : Algo :=
  let v := nVersion &&& BLOCK_VERSION_ALGO
  if v = 0 then ALGO_SLOT1
  else if v = BLOCK_VERSION_SLOT2 then ALGO_SLOT2
  else if v = BLOCK_VERSION_SLOT3 then ALGO_SLOT3
  else if v = BLOCK_VERSION_SLOT4 then ALGO_SLOT4
  else if v = BLOCK_VERSION_SLOT5 then ALGO_SLOT5
  else ALGO_SLOT1

/-- `CPureBlockHeader`: the header without its auxpow. -/
structure CPureBlockHeader where
  nVersion : Int32
  hashPrevBlock : Uint256
  hashMerkleRoot : Uint256
  nTime : UInt32
  nBits : UInt32
  nNonce : UInt32
  deriving DecidableEq

/-- `CPureBlockHeader::VERSION_CHAIN_START`. -/
def VERSION_CHAIN_START : Int := 1 <<< 16

/-- `GetChainId()`: `nVersion / VERSION_CHAIN_START`, truncating. -/
def CPureBlockHeader.GetChainId (h : CPureBlockHeader) : Int :=
  h.nVersion.toInt.tdiv VERSION_CHAIN_START

/-- `CPureBlockHeader::GetAlgo()`. -/
def CPureBlockHeader.GetAlgo (h : CPureBlockHeader) : Algo := getAlgo h.nVersion

end Unitus
