import Unitus.Chain.BlockIndex

/-!
# Chain — the active chain, `CChain`

`CChain` (`chain.h`, `chain.cpp`) keeps the active chain as a vector `vChain` of block pointers
indexed by height.  Pointers are `BlockPtr`s (`Chain.BlockIndex`): a block and its ancestors, so
the source's pointer comparisons `vChain[h] != pindex` and `(*this)[h] == pindex` compare a block
together with its ancestry.

`SetTip` resizes the vector to the new tip's height and rewrites entries down `pprev` until it
meets a block already stored at its height; `FindFork` jumps to the chain's height with
`GetAncestor` and walks down until `Contains`; `GetLocator` collects hashes of a block and its
ancestors with a step `nStep`, an `int`, that doubles after the tenth hash.  A doubling past
`INT_MAX` is a signed overflow, an error here as in the rest of the development.  The source's
`GetLocator` loop has no bound; its model runs on fuel, the start's length, which is enough on
every chain (`Chain.CChainCorrect`).

`GetLocator` takes the hash of a pointer as a parameter, `GetBlockHash`: the source's reads
`phashBlock`, and what is shown of `GetLocator` holds for every such function.
-/

namespace Unitus

/-- `CChain`: the pointers of the active chain, the block at height `h` at index `h`. -/
structure CChain where
  vChain : List BlockPtr
  deriving DecidableEq, Repr

namespace CChain

/-- `CChain::operator[](nHeight)`: `NULL` outside `[0, vChain.size())`. -/
def get (c : CChain) (nHeight : Int) : BlockPtr :=
  if nHeight < 0 ∨ nHeight ≥ c.vChain.length then [] else c.vChain.getD nHeight.toNat []

/-- `CChain::Tip()`: the last entry, `NULL` for an empty chain. -/
def Tip (c : CChain) : BlockPtr := c.vChain.getLastD []

/-- `CChain::Height()`: `vChain.size() - 1`. -/
def Height (c : CChain) : Int := c.vChain.length - 1

/-- `CChain::Contains(pindex)`: `(*this)[pindex->nHeight] == pindex`.  The source dereferences
`pindex`; no caller passes `NULL`. -/
def Contains (c : CChain) : BlockPtr → Bool
  | [] => false
  | b :: rest => c.get b.nHeight == b :: rest

/-- `std::vector::resize(n)`: truncate, or pad with `NULL`. -/
def resize (vChain : List BlockPtr) (n : Nat) : List BlockPtr :=
  vChain.take n ++ List.replicate (n - vChain.length) []

/-- The loop `while (pindex && vChain[pindex->nHeight] != pindex)` of `SetTip`: store the block
at its height and go down `pprev`. -/
def setTipLoop : BlockPtr → List BlockPtr → List BlockPtr
  | [], vChain => vChain
  | b :: rest, vChain =>
    if vChain.getD b.nHeight.toNat [] != b :: rest then
      setTipLoop rest (vChain.set b.nHeight.toNat (b :: rest))
    else vChain

/-- `CChain::SetTip(pindex)`. -/
def SetTip (c : CChain) : BlockPtr → CChain
  | [] => ⟨[]⟩
  | b :: rest => ⟨setTipLoop (b :: rest) (resize c.vChain (b.nHeight + 1).toNat)⟩

/-- The loop `while (pindex && !Contains(pindex)) pindex = pindex->pprev` of `FindFork`. -/
def findForkLoop (c : CChain) : BlockPtr → BlockPtr
  | [] => []
  | b :: rest => if c.Contains (b :: rest) then b :: rest else findForkLoop c rest

/-- `CChain::FindFork(pindex)`: first down to the chain's height, then down to the chain. -/
def FindFork (c : CChain) : BlockPtr → BlockPtr
  | [] => []
  | b :: rest =>
    findForkLoop c (if b.nHeight > c.Height then GetAncestor (b :: rest) c.Height else b :: rest)

/-- `INT_MAX`. -/
def INT_MAX : Int := 2 ^ 31 - 1

/-- The loop `while (pindex)` of `GetLocator`, for at most `fuel` hashes, with the step `nStep`
and the hashes `vHave` so far. -/
def getLocatorLoop (c : CChain) (GetBlockHash : BlockPtr → Uint256) :
    Nat → Int → BlockPtr → List Uint256 → Except String (List Uint256)
  | _, _, [], vHave => .ok vHave
  | 0, _, _ :: _, _ => .error "getLocatorLoop: out of fuel"
  | fuel + 1, nStep, b :: rest, vHave =>
    let vHave := vHave ++ [GetBlockHash (b :: rest)]
    -- stop when we have added the genesis block
    if b.nHeight = 0 then .ok vHave
    else
      let nHeight := max (b.nHeight - nStep) 0
      -- the chain's index where the block is on it, the skip list otherwise
      let pindex :=
        if c.Contains (b :: rest) then c.get nHeight else GetAncestor (b :: rest) nHeight
      if vHave.length > 10 then
        if nStep * 2 > INT_MAX then .error "GetLocator: nStep *= 2 overflows int"
        else getLocatorLoop c GetBlockHash fuel (nStep * 2) pindex vHave
      else getLocatorLoop c GetBlockHash fuel nStep pindex vHave

/-- `CChain::GetLocator(pindex)`: the hashes of `CBlockLocator(vHave)`, from the tip when
`pindex` is `NULL`. -/
def GetLocator (c : CChain) (GetBlockHash : BlockPtr → Uint256) (pindex : BlockPtr) :
    Except String (List Uint256) :=
  let pindex := if pindex = [] then c.Tip else pindex
  getLocatorLoop c GetBlockHash pindex.length 1 pindex []

end CChain

end Unitus
