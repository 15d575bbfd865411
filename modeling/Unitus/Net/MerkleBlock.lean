import Unitus.Primitives.Serialize
import Unitus.Primitives.Unserialize

/-!
# Net — `CPartialMerkleTree`

A `CPartialMerkleTree` (`merkleblock.h`, `merkleblock.cpp`) shows that some transactions are in
a block without the others.  It keeps the number of transactions, one bit for each node of a
depth-first walk of the block's merkle tree (set: a matched transaction is below), and the
hashes of the nodes where the walk stops: the leaves it reaches and the subtrees without a
match.  `TraverseAndBuild` writes them from the transactions and a match vector;
`TraverseAndExtract` walks them back, rebuilds the root and collects the matched transactions;
`ExtractMatches` checks the counts and that the walk used every hash and every bit but the
padding of the last byte.

The hash of two nodes, `Hash(left ‖ right)`, is a parameter `hash2`; `uint256()` is `default`.
The positions of the walk are `Nat`s: the source's `unsigned int` positions stay below the width
of the tree.  `CalcTreeWidth` is computed in `unsigned int` as in the source; the shift `1 <<
height` is of an `int`, undefined from `31` on, and the height loop, which reaches it only for
more than `2^30` transactions, stops here after `32` rounds.  The walk's flag `fBad` is a member
of the tree; `vMatch`, `vnIndex` and the counters `nBitsUsed` and `nHashUsed`, passed by
reference, are the walk's state with it.
-/

namespace Unitus

/-- `CPartialMerkleTree`. -/
structure CPartialMerkleTree where
  nTransactions : UInt32
  vBits : List Bool
  vHash : List Uint256
  fBad : Bool

namespace CPartialMerkleTree

/-- `MAX_BLOCK_BASE_SIZE` (`consensus/consensus.h`). -/
def MAX_BLOCK_BASE_SIZE : Nat := 1000000

/-- `CalcTreeWidth(height)`: `(nTransactions + (1 << height) - 1) >> height`. -/
def CalcTreeWidth (nTransactions : UInt32) (height : Nat) : UInt32 :=
  (nTransactions + ((1 : UInt32) <<< height.toUInt32) - 1) >>> height.toUInt32

/-- The loop `while (CalcTreeWidth(nHeight) > 1) nHeight++`, with `fuel` rounds left. -/
def treeHeightLoop (nTransactions : UInt32) : Nat → Nat → Nat
  | 0, nHeight => nHeight
  | fuel + 1, nHeight =>
    if CalcTreeWidth nTransactions nHeight > 1 then treeHeightLoop nTransactions fuel (nHeight + 1)
    else nHeight

/-- The height of the tree, as the constructor and `ExtractMatches` calculate it. -/
def treeHeight (nTransactions : UInt32) : Nat := treeHeightLoop nTransactions 32 0

variable (hash2 : Uint256 → Uint256 → Uint256)

/-- `CalcHash(height, pos, vTxid)`: the hash of a node, at height `0` the txid itself. -/
def CalcHash (nTransactions : UInt32) (vTxid : List Uint256) : Nat → Nat → Uint256
  | 0, pos => vTxid.getD pos default
  | height + 1, pos =>
    let left := CalcHash nTransactions vTxid height (pos * 2)
    -- calculate right hash if not beyond the end of the array - copy left hash otherwise
    let right :=
      if pos * 2 + 1 < (CalcTreeWidth nTransactions height).toNat then
        CalcHash nTransactions vTxid height (pos * 2 + 1)
      else left
    hash2 left right

/-- The loop `for (p = pos << height; p < (pos+1) << height && p < nTransactions; p++)` of
`TraverseAndBuild`: whether a matched txid is below the node. -/
def parentOfMatch (nTransactions : UInt32) (vMatch : List Bool) (height pos : Nat) : Bool :=
  (List.range' (pos * 2 ^ height) (2 ^ height)).any fun p =>
    decide (p < nTransactions.toNat) && vMatch.getD p false

/-- `TraverseAndBuild(height, pos, vTxid, vMatch)`: push the node's bit, then its hash where
the walk stops (at height `0`, or with no match below), or walk on into its children. -/
def TraverseAndBuild (vTxid : List Uint256) (vMatch : List Bool) :
    Nat → Nat → CPartialMerkleTree → CPartialMerkleTree
  | 0, pos, t =>
    let fParentOfMatch := parentOfMatch t.nTransactions vMatch 0 pos
    { t with
      vBits := t.vBits ++ [fParentOfMatch]
      vHash := t.vHash ++ [CalcHash hash2 t.nTransactions vTxid 0 pos] }
  | height + 1, pos, t =>
    let fParentOfMatch := parentOfMatch t.nTransactions vMatch (height + 1) pos
    let t := { t with vBits := t.vBits ++ [fParentOfMatch] }
    if !fParentOfMatch then
      { t with vHash := t.vHash ++ [CalcHash hash2 t.nTransactions vTxid (height + 1) pos] }
    else
      let t := TraverseAndBuild vTxid vMatch height (pos * 2) t
      if pos * 2 + 1 < (CalcTreeWidth t.nTransactions height).toNat then
        TraverseAndBuild vTxid vMatch height (pos * 2 + 1) t
      else t

/-- `CPartialMerkleTree(vTxid, vMatch)`. -/
def construct (vTxid : List Uint256) (vMatch : List Bool) : CPartialMerkleTree :=
  let t : CPartialMerkleTree :=
    { nTransactions := UInt32.ofNat vTxid.length, vBits := [], vHash := [], fBad := false }
  TraverseAndBuild hash2 vTxid vMatch (treeHeight t.nTransactions) 0 t

/-- The state `TraverseAndExtract` updates: the counters, the matches, their positions, and the
tree's `fBad`. -/
structure ExtractState where
  nBitsUsed : Nat
  nHashUsed : Nat
  vMatch : List Uint256
  vnIndex : List Nat
  fBad : Bool

/-- `TraverseAndExtract(height, pos, nBitsUsed, nHashUsed, vMatch, vnIndex)`: the hash of the
node, read back from the bits and hashes, with the matched txids below it collected. -/
def TraverseAndExtract (t : CPartialMerkleTree) :
    Nat → Nat → ExtractState → Uint256 × ExtractState
  | height, pos, s =>
    if t.vBits.length ≤ s.nBitsUsed then
      -- overflowed the bits array - failure
      (default, { s with fBad := true })
    else
      let fParentOfMatch := t.vBits.getD s.nBitsUsed false
      let s := { s with nBitsUsed := s.nBitsUsed + 1 }
      match height, fParentOfMatch with
      | height + 1, true =>
        -- descend into the subtrees to extract matched txids and hashes
        let (left, s) := TraverseAndExtract t height (pos * 2) s
        if pos * 2 + 1 < (CalcTreeWidth t.nTransactions height).toNat then
          let (right, s) := TraverseAndExtract t height (pos * 2 + 1) s
          -- the left and right branches should never be identical
          let s := if right = left then { s with fBad := true } else s
          (hash2 left right, s)
        else (hash2 left left, s)
      | _, _ =>
        -- at height 0, or nothing interesting below: use the stored hash
        if t.vHash.length ≤ s.nHashUsed then
          -- overflowed the hash array - failure
          (default, { s with fBad := true })
        else
          let hash := t.vHash.getD s.nHashUsed default
          let s := { s with nHashUsed := s.nHashUsed + 1 }
          -- at height 0, a matched txid
          if height = 0 ∧ fParentOfMatch = true then
            (hash, { s with vMatch := s.vMatch ++ [hash], vnIndex := s.vnIndex ++ [pos] })
          else (hash, s)

/-- `ExtractMatches(vMatch, vnIndex)`: the merkle root, `uint256()` on failure, with `vMatch`
cleared and then filled with the matched txids, and their positions appended to `vnIndex`. -/
def ExtractMatches (t : CPartialMerkleTree) (vnIndex : List Nat) :
    Uint256 × List Uint256 × List Nat :=
  -- An empty set will not work
  if t.nTransactions = 0 then (default, [], vnIndex)
  -- check for excessively high numbers of transactions
  else if MAX_BLOCK_BASE_SIZE / 60 < t.nTransactions.toNat then (default, [], vnIndex)
  -- there can never be more hashes provided than one for every txid
  else if t.nTransactions.toNat < t.vHash.length then (default, [], vnIndex)
  -- there must be at least one bit per node in the partial tree, and at least one node per hash
  else if t.vBits.length < t.vHash.length then (default, [], vnIndex)
  else
    let nHeight := treeHeight t.nTransactions
    let (hashMerkleRoot, s) :=
      TraverseAndExtract hash2 t nHeight 0
        { nBitsUsed := 0, nHashUsed := 0, vMatch := [], vnIndex, fBad := t.fBad }
    -- verify that no problems occurred during the tree traversal
    if s.fBad then (default, s.vMatch, s.vnIndex)
    -- verify that all bits were consumed (except for the padding of the last byte)
    else if (s.nBitsUsed + 7) / 8 ≠ (t.vBits.length + 7) / 8 then (default, s.vMatch, s.vnIndex)
    -- verify that all hashes were consumed
    else if s.nHashUsed ≠ t.vHash.length then (default, s.vMatch, s.vnIndex)
    else (hashMerkleRoot, s.vMatch, s.vnIndex)

/-! ### Serialization -/

/-- The flag bytes `Serialize` writes, `vBytes[p / 8] |= vBits[p] << (p % 8)`: bit `i` of byte
`j` is `vBits[8 * j + i]`. -/
def packBits (vBits : List Bool) : List UInt8 :=
  (List.range ((vBits.length + 7) / 8)).map fun j =>
    (List.range 8).foldl
      (fun b i => if vBits.getD (j * 8 + i) false then b ||| ((1 : UInt8) <<< i.toUInt8) else b) 0

/-- The bits `Unserialize` reads, `(vBytes[p / 8] & (1 << (p % 8))) != 0` for every bit of every
byte. -/
def unpackBits (vBytes : List UInt8) : List Bool :=
  (List.range (vBytes.length * 8)).map fun p =>
    vBytes.getD (p / 8) 0 &&& ((1 : UInt8) <<< (p % 8).toUInt8) ≠ 0

/-- `Serialize`: `nTransactions`, `vHash`, and the flag bytes as a vector. -/
def Serialize (t : CPartialMerkleTree) : List UInt8 :=
  serUInt32 t.nTransactions ++ serVector serUint256 t.vHash ++ serScript (packBits t.vBits)

/-- `Unserialize`: the fields, the bits of the flag bytes, and `fBad = false`. -/
def Unserialize : StreamReader CPartialMerkleTree := do
  let nTransactions ← readUInt32
  let vHash ← readVector readUint256
  let vBytes ← readScript
  pure { nTransactions, vBits := unpackBits vBytes, vHash, fBad := false }

end CPartialMerkleTree

end Unitus
