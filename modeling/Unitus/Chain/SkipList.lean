import Mathlib.Data.Int.Bitwise
import Unitus.Chain.BlockIndex

/-!
# Chain — the skip list of block indexes, `pskip`

Besides `pprev`, a `CBlockIndex` (`chain.h`) has a second pointer back, `pskip`, which
`BuildSkip` (`chain.cpp`) sets once the block's `pprev` is in place: to the ancestor at height
`GetSkipHeight(nHeight)`, found by `pprev->GetAncestor`.  `GetAncestor(height)` walks down from
the block, following `pskip` where it does not pass `height` and `pprev` otherwise.

A pointer is, as in `Chain.BlockIndex`, the block followed by its ancestors (`[]` for `NULL`);
here a block also carries its `pskip`, itself such a pointer (`SkipIndex`).  The walk is
recursion on the distance still to go, `heightWalk - height`, which every step shortens
(`GetSkipHeight_lt`).  Its `assert(pindexWalk->pprev)` is an error.

`CBlockIndex`'s other fields do not enter the skip list: a `SkipIndex` keeps them in `index`.
-/

namespace Unitus

/-- `InvertLowestOne(n)`: `n & (n - 1)`, `n` with its lowest set bit cleared. -/
def InvertLowestOne (n : Int) : Int := Int.land n (n - 1)

/-- `GetSkipHeight(height)`: the height `pskip` jumps back to. -/
def GetSkipHeight (height : Int) : Int :=
  if height < 2 then 0
  -- `height & 1`
  else if height % 2 = 1 then InvertLowestOne (InvertLowestOne (height - 1)) + 1
  else InvertLowestOne height

theorem InvertLowestOne_succ (k : Nat) :
    InvertLowestOne ((k + 1 : Nat) : Int) = (((k + 1) &&& k : Nat) : Int) := by
  rw [InvertLowestOne, show ((k + 1 : Nat) : Int) - 1 = (k : Int) by omega]
  rfl

theorem InvertLowestOne_nonneg {n : Int} (hn : 0 ≤ n) : 0 ≤ InvertLowestOne n := by
  obtain ⟨k, rfl⟩ := Int.eq_ofNat_of_zero_le hn
  cases k with
  | zero => decide +kernel
  | succ k =>
    rw [InvertLowestOne_succ]
    omega

/-- Clearing a bit of a positive number makes it smaller. -/
theorem InvertLowestOne_lt {n : Int} (hn : 1 ≤ n) : InvertLowestOne n < n := by
  obtain ⟨k, rfl⟩ : ∃ k : Nat, n = ((k + 1 : Nat) : Int) := ⟨(n - 1).toNat, by omega⟩
  rw [InvertLowestOne_succ]
  have : (k + 1) &&& k ≤ k := Nat.and_le_right
  omega

theorem GetSkipHeight_nonneg (height : Int) : 0 ≤ GetSkipHeight height := by
  unfold GetSkipHeight
  split
  · exact le_refl 0
  · split
    · have := InvertLowestOne_nonneg (InvertLowestOne_nonneg (by omega : 0 ≤ height - 1))
      omega
    · exact InvertLowestOne_nonneg (by omega)

/-- `pskip` jumps back: `GetSkipHeight(height) < height` above the genesis. -/
theorem GetSkipHeight_lt {height : Int} (hh : 1 ≤ height) : GetSkipHeight height < height := by
  unfold GetSkipHeight
  split
  · omega
  · split
    · -- `InvertLowestOne` twice below `height - 1`, or `0` when the first one already is
      have h1 := InvertLowestOne_lt (by omega : 1 ≤ height - 1)
      have h0 := InvertLowestOne_nonneg (by omega : 0 ≤ height - 1)
      rcases Int.le_iff_eq_or_lt.mp h0 with h | h
      · rw [← h, show InvertLowestOne 0 = 0 by decide +kernel]
        omega
      · have := InvertLowestOne_lt (by omega : 1 ≤ InvertLowestOne (height - 1))
        omega
    · exact InvertLowestOne_lt (by omega)

/-- The test of `GetAncestor`'s walk at `heightWalk`, on the way to `height`, once `pskip` is
set: follow `pskip` when it lands on `height`, or above it and `pprev->pskip` is not better than
`pskip->pprev`. -/
def followsSkip (height heightWalk : Int) : Bool :=
  let heightSkip := GetSkipHeight heightWalk
  let heightSkipPrev := GetSkipHeight (heightWalk - 1)
  heightSkip == height ||
    (heightSkip > height && !(heightSkipPrev < heightSkip - 2 && heightSkipPrev ≥ height))

/-- The walk never follows `pskip` below `height`. -/
theorem le_of_followsSkip {height heightWalk : Int} (h : followsSkip height heightWalk = true) :
    height ≤ GetSkipHeight heightWalk := by
  simp only [followsSkip, Bool.or_eq_true, beq_iff_eq, Bool.and_eq_true, decide_eq_true_eq] at h
  omega

/-- A `CBlockIndex` with its `pskip`: the block it points to followed by that block's
ancestors, `[]` for `NULL`. -/
structure SkipIndex where
  index : CBlockIndex
  pskip : List SkipIndex
  deriving Repr

namespace SkipIndex

/-- The loop `while (heightWalk > height)` of `GetAncestor`, from `pindexWalk` at `heightWalk`.
The walk starts at `this` and only follows pointers that are not `NULL`, so `pindexWalk` is
never `NULL`; the source would dereference it. -/
def getAncestorLoop (height : Int) (hheight : 0 ≤ height) (heightWalk : Int)
    (pindexWalk : List SkipIndex) : Except String (List SkipIndex) :=
  if heightWalk > height then
    match pindexWalk with
    | [] => .error "GetAncestor: pindexWalk is NULL"
    | b :: rest =>
      if hskip : b.pskip ≠ [] ∧ followsSkip height heightWalk = true then
        getAncestorLoop height hheight (GetSkipHeight heightWalk) b.pskip
      else if rest = [] then .error "assert(pindexWalk->pprev)"
      else getAncestorLoop height hheight (heightWalk - 1) rest
  else .ok pindexWalk
termination_by (heightWalk - height).toNat
decreasing_by
  · have := GetSkipHeight_lt (by omega : 1 ≤ heightWalk)
    have := le_of_followsSkip hskip.2
    omega
  · omega

/-- `CBlockIndex::GetAncestor(height)`, on `this` (not `NULL`). -/
def GetAncestor : List SkipIndex → Int → Except String (List SkipIndex)
  | [], _ => .ok []
  | b :: rest, height =>
    if hout : height > b.index.nHeight ∨ height < 0 then .ok []
    else getAncestorLoop height (by omega) b.index.nHeight (b :: rest)

/-- `CBlockIndex::BuildSkip()` of a new block `index`, whose `pprev` is set and whose `pskip`
is still the `NULL` of `SetNull()`: the pointer to the block. -/
def BuildSkip (index : CBlockIndex) : List SkipIndex → Except String (List SkipIndex)
  | [] => .ok [⟨index, []⟩]
  | pprev => do
    let pskip ← GetAncestor pprev (GetSkipHeight index.nHeight)
    pure (⟨index, pskip⟩ :: pprev)

/-- The blocks of a chain (tip first) given their `pskip` from the genesis up, each `BuildSkip`
after its predecessor's, as `AddToBlockIndex` and `LoadBlockIndexDB` call it. -/
def buildSkips : BlockPtr → Except String (List SkipIndex)
  | [] => .ok []
  | b :: rest => do
    let pprev ← buildSkips rest
    BuildSkip b pprev

end SkipIndex

end Unitus
