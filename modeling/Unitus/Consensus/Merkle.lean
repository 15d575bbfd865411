import Unitus.Lib.MerkleTree

/-!
# Consensus — `MerkleComputation`

`MerkleComputation` (`consensus/merkle.cpp`) computes a merkle root, the `mutated` flag and the
branch of one leaf in constant space.  It reads the leaves once, keeping in `inner[level]` the
root of the last complete block of `2 ^ level` leaves for each set bit `level` of `count`, the
number of leaves read; a final sweep then folds these into the root, pairing the last node of an
odd level with itself.

The node type is a parameter `α`, with `hash2 a b` standing for `Hash(a ‖ b)`, the double
SHA-256 of the two 32-byte nodes; `default` is `uint256()`.  The counters `count` and `branchpos`
are `uint32_t`: `count` is a `Nat` reduced modulo `2 ^ 32` where the source adds to it, and
`branchpos` and `nIndex` are `Nat`s below `2 ^ 32`.  Each loop raises `level`, and the source's
shift `((uint32_t)1) << level` is undefined once `level` reaches 32; a loop that gets there
returns `none`.  Its `fuel` argument is the number of levels left below 32.

`inner` starts as `default` everywhere: the source leaves it uninitialised, and the proofs about
the computation never depend on an entry the loop has not written.
-/

namespace Unitus

namespace Merkle

variable {α : Type} [DecidableEq α] [Inhabited α] (hash2 : α → α → α)

/-- The locals of a climb up the tree: the `level`, the value `h` at that level, whether `h`
depends on the leaf at `branchpos` (`matchh`), and the branch so far (`*pbranch`). -/
structure Cursor (α : Type) where
  level : Nat
  h : α
  matchh : Bool
  branch : List α

/-- One round of the two loops that fold `inner[level]` into `h` from the left: where `h`
depends on the matching leaf the branch takes `inner[level]`, where `inner[level]` does it takes
`h`; then `h = Hash(inner[level] ‖ h)` and `level++`.  Without a branch (`fBranch = false`)
`matchh` and the branch stay as they are. -/
def Cursor.combine (fBranch : Bool) (matchlevel : Int) (inner : Nat → α) (c : Cursor α) :
    Cursor α where
  level := c.level + 1
  h := hash2 (inner c.level) c.h
  matchh := c.matchh || (fBranch && matchlevel == (c.level : Int))
  branch :=
    if fBranch && c.matchh then c.branch ++ [inner c.level]
    else if fBranch && matchlevel == (c.level : Int) then c.branch ++ [c.h]
    else c.branch

@[simp] theorem Cursor.combine_level (fBranch : Bool) (matchlevel : Int) (inner : Nat → α)
    (c : Cursor α) : (c.combine hash2 fBranch matchlevel inner).level = c.level + 1 := rfl

@[simp] theorem Cursor.combine_h (fBranch : Bool) (matchlevel : Int) (inner : Nat → α)
    (c : Cursor α) : (c.combine hash2 fBranch matchlevel inner).h = hash2 (inner c.level) c.h := rfl

@[simp] theorem Cursor.combine_matchh (fBranch : Bool) (matchlevel : Int) (inner : Nat → α)
    (c : Cursor α) :
    (c.combine hash2 fBranch matchlevel inner).matchh =
      (c.matchh || (fBranch && matchlevel == (c.level : Int))) := rfl

@[simp] theorem Cursor.combine_branch (fBranch : Bool) (matchlevel : Int) (inner : Nat → α)
    (c : Cursor α) :
    (c.combine hash2 fBranch matchlevel inner).branch =
      if fBranch && c.matchh then c.branch ++ [inner c.level]
      else if fBranch && matchlevel == (c.level : Int) then c.branch ++ [c.h]
      else c.branch := rfl

/-- The leaf loop's `for (level = 0; !(count & (((uint32_t)1) << level)); level++)`: while bit
`level` of `count` is clear, fold `inner[level]` into `h`, setting `mutated` where the two are
equal. -/
def climb (fBranch : Bool) (count : Nat) (matchlevel : Int) (inner : Nat → α) :
    Nat → Cursor α → Bool → Option (Cursor α × Bool)
  | 0, _, _ => none
  | fuel + 1, c, mutated =>
    if count.testBit c.level then some (c, mutated)
    else climb fBranch count matchlevel inner fuel (c.combine hash2 fBranch matchlevel inner)
      (mutated || inner c.level == c.h)

/-- The locals `MerkleComputation` carries from one leaf to the next. -/
structure LeafState (α : Type) where
  count : Nat
  inner : Nat → α
  matchlevel : Int
  mutated : Bool
  branch : List α

/-- The leaf loop `while (count < leaves.size())`: take the next leaf, increment `count`, climb,
and store the result at `inner[level]`.  The loop walks the list, which is the source's
`leaves[count]` for as long as `count` has not wrapped; it wraps only at the `2 ^ 32`-th leaf,
whose climb is undefined. -/
def leafLoop (fBranch : Bool) (branchpos : Nat) : List α → LeafState α → Option (LeafState α)
  | [], st => some st
  | leaf :: leaves, st =>
    let count := (st.count + 1) % 2 ^ 32
    match climb hash2 fBranch count st.matchlevel st.inner 32
        ⟨0, leaf, st.count == branchpos, st.branch⟩ st.mutated with
    | none => none
    | some (c, mutated) =>
      leafLoop fBranch branchpos leaves
        { count
          inner := Function.update st.inner c.level c.h
          matchlevel := if c.matchh then (c.level : Int) else st.matchlevel
          mutated
          branch := c.branch }

/-- `while (!(count & (((uint32_t)1) << level))) level++;`: the lowest set bit of `count`. -/
def lowestLevel (count : Nat) : Nat → Nat → Option Nat
  | 0, _ => none
  | fuel + 1, level => if count.testBit level then some level else lowestLevel count fuel (level + 1)

/-- The final sweep: the outer `while (count != (((uint32_t)1) << level))` and the inner
`while (!(count & (((uint32_t)1) << level)))`, as one loop over the levels.  Where bit `level`
of `count` is clear the inner loop folds `inner[level]` in; where it is set the outer loop stops
if `count` is `1 << level`, and otherwise hashes `h` with itself (the odd last node of a level),
adds `1 << level` to `count` and goes up. -/
def sweep (fBranch : Bool) (matchlevel : Int) (inner : Nat → α) :
    Nat → Nat → Cursor α → Option (Cursor α)
  | 0, _, _ => none
  | fuel + 1, count, c =>
    if count.testBit c.level then
      if count = 2 ^ c.level then some c
      else sweep fBranch matchlevel inner fuel ((count + 2 ^ c.level) % 2 ^ 32)
        { level := c.level + 1
          h := hash2 c.h c.h
          matchh := c.matchh
          branch := if fBranch && c.matchh then c.branch ++ [c.h] else c.branch }
    else sweep fBranch matchlevel inner fuel count (c.combine hash2 fBranch matchlevel inner)

/-- `MerkleComputation(leaves, &root, &mutated, branchpos, pbranch)`: the root, `mutated` and
the branch, where `fBranch` says whether `pbranch` is non-null; `none` where the source's
behaviour is undefined. -/
def MerkleComputation (leaves : List α) (branchpos : Nat) (fBranch : Bool) :
    Option (α × Bool × List α) :=
  if leaves = [] then some (default, false, [])
  else do
    let st ← leafLoop hash2 fBranch branchpos leaves ⟨0, fun _ => default, -1, false, []⟩
    let level ← lowestLevel st.count 32 0
    let c ← sweep hash2 fBranch st.matchlevel st.inner (32 - level) st.count
      ⟨level, st.inner level, st.matchlevel == (level : Int), st.branch⟩
    return (c.h, st.mutated, c.branch)

/-- `ComputeMerkleRoot(leaves, &mutated)`: `MerkleComputation` with no branch and
`branchpos = (uint32_t)-1`. -/
def ComputeMerkleRoot (leaves : List α) : Option (α × Bool) :=
  (MerkleComputation hash2 leaves (2 ^ 32 - 1) false).map fun r => (r.1, r.2.1)

/-- `ComputeMerkleBranch(leaves, position)`. -/
def ComputeMerkleBranch (leaves : List α) (position : Nat) : Option (List α) :=
  (MerkleComputation hash2 leaves position true).map fun r => r.2.2

/-- `ComputeMerkleRootFromBranch(leaf, vMerkleBranch, nIndex)`. -/
def ComputeMerkleRootFromBranch (leaf : α) (vMerkleBranch : List α) (nIndex : Nat) : α :=
  (vMerkleBranch.foldl (fun (acc : α × Nat) it =>
      (if acc.2 % 2 = 1 then hash2 it acc.1 else hash2 acc.1 it, acc.2 / 2)) (leaf, nIndex)).1

end Merkle

end Unitus
