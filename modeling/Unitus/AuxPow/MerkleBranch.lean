import Unitus.AuxPow.Check
import Unitus.Consensus.MerkleCorrect

/-!
# AuxPow — `CheckMerkleBranch` climbs a consensus merkle branch

`CAuxPow::CheckMerkleBranch` (`auxpow.cpp`) is `ComputeMerkleRootFromBranch`
(`consensus/merkle.cpp`) with a signed `int` index, `-1` standing for "no branch".  For a
non-negative index the two agree, with the node hash `Hash(a ‖ b)` of two `uint256`
(`CheckMerkleBranch_eq`).  So the branch `ComputeMerkleBranch` gives for a transaction of a block
of at most `2 ^ 31` transactions leads `CheckMerkleBranch` from the transaction's hash to the
block's merkle root (`CheckMerkleBranch_branch`): the auxpow check accepts every branch the
parent chain's own code builds.
-/

namespace Unitus

/-- `Hash(BEGIN(a), END(a), BEGIN(b), END(b))`: the hash of two nodes, as both `auxpow.cpp`
and `consensus/merkle.cpp` compute it. -/
def nodeHash (hash : List UInt8 → Uint256) (a b : Uint256) : Uint256 := hash (a.data ++ b.data)

namespace CAuxPow

variable (hash : List UInt8 → Uint256)

/-- **`CheckMerkleBranch` is `ComputeMerkleRootFromBranch`** at every non-negative index. -/
theorem CheckMerkleBranch_eq (h : Uint256) (branch : List Uint256) (nIndex : Nat) :
    CheckMerkleBranch hash h branch nIndex =
      Merkle.ComputeMerkleRootFromBranch (nodeHash hash) h branch nIndex := by
  rw [CheckMerkleBranch, if_neg (by omega), Merkle.ComputeMerkleRootFromBranch]
  -- the two folds keep the same hash, and indices related by the cast
  induction branch generalizing h nIndex with
  | nil => rfl
  | cons s branch ih =>
    have hodd : ((nIndex : Int) % 2 = 1) ↔ nIndex % 2 = 1 := by omega
    have hhalf : (nIndex : Int) / 2 = ((nIndex / 2 : Nat) : Int) := by omega
    simp only [List.foldl_cons, hodd, hhalf]
    exact ih _ _

/-- **A transaction's merkle branch passes `CheckMerkleBranch`.**  In a block of at most
`2 ^ 31` transactions with hashes `l`, the branch `ComputeMerkleBranch` gives for transaction `p`
leads `CheckMerkleBranch` from its hash to the root `ComputeMerkleRoot` gives. -/
theorem CheckMerkleBranch_branch {l : List Uint256} (hn : l.length ≤ 2 ^ 31) {p : Nat}
    (hp : p < l.length) :
    ∃ branch mutated, Merkle.ComputeMerkleBranch (nodeHash hash) l p = some branch ∧
      Merkle.ComputeMerkleRoot (nodeHash hash) l =
        some (CheckMerkleBranch hash l[p] branch p, mutated) := by
  obtain ⟨branch, mutated, hbranch, hroot⟩ :=
    Merkle.ComputeMerkleRootFromBranch_branch (nodeHash hash) hn hp
  exact ⟨branch, mutated, hbranch, by rw [hroot, CheckMerkleBranch_eq]⟩

end CAuxPow

end Unitus
