import Mathlib.Data.List.Sort
import Unitus.Arith.Compact
import Unitus.Primitives.PureHeader

/-!
# Chain — block indexes and their ancestry

A `CBlockIndex` (`chain.h`) never changes its `pprev` once it is in `mapBlockIndex`, so a
pointer to one is modelled by the block followed by all its ancestors, genesis last:
`BlockPtr`, with `[]` for `NULL` and `List.tail` for `->pprev`.  Every walk down the chain in
the source is then a recursion down this list.

`getLastBlockIndexForAlgo` is `GetLastBlockIndexForAlgo` (`chain.cpp`).
-/

namespace Unitus

/-- The fields of a `CBlockIndex` that the modelled code reads, and the hash `phashBlock` points
to, the key `AddToBlockIndex` stores the index under: blocks of equal fields and different
hashes are different indexes. -/
structure CBlockIndex where
  phashBlock : Uint256
  nHeight : Int
  nVersion : Int32
  nBits : UInt32
  nTime : UInt32
  deriving DecidableEq, Repr

namespace CBlockIndex

/-- `CBlockIndex::GetAlgo()`. -/
def GetAlgo (b : CBlockIndex) : Algo := getAlgo b.nVersion

/-- `CBlockIndex::GetBlockTime()`: `(int64_t)nTime`. -/
def GetBlockTime (b : CBlockIndex) : Int := b.nTime.toNat

end CBlockIndex

/-- A `const CBlockIndex*`: the block and its ancestors, `[]` for `NULL`. -/
abbrev BlockPtr := List CBlockIndex

/-- `nMedianTimeSpan`. -/
def nMedianTimeSpan : Nat := 11

/-- `CBlockIndex::GetMedianTimePast()` of a non-null pointer: the block times of the block and
of up to `nMedianTimeSpan - 1` ancestors, sorted (`std::sort`, here an insertion sort: every sort
gives the same list), and `pbegin[(pend - pbegin) / 2]` of them. -/
def GetMedianTimePast (p : BlockPtr) : Int :=
  let pmedian := ((p.take nMedianTimeSpan).map CBlockIndex.GetBlockTime).insertionSort (· ≤ ·)
  pmedian.getD (pmedian.length / 2) 0

/-- `CBlockIndex::GetAncestor(height)` of a non-null pointer: `NULL` outside `[0, nHeight]`,
otherwise the block `nHeight - height` steps down `pprev`, which is where the source's walk,
with its `pskip` shortcuts, arrives. -/
def GetAncestor (p : BlockPtr) (height : Int) : BlockPtr :=
  match p with
  | [] => []
  | b :: _ => if height > b.nHeight ∨ height < 0 then [] else p.drop (b.nHeight - height).toNat

/-- An ancestor is a suffix of the pointer's chain. -/
theorem GetAncestor_suffix (p : BlockPtr) (height : Int) : GetAncestor p height <:+ p := by
  unfold GetAncestor
  split
  · exact List.suffix_refl _
  · split
    · exact List.nil_suffix
    · exact List.drop_suffix _ _

/-- A chain of a block tree: each block's height is the number of its ancestors, as
`AddToBlockIndex` sets `nHeight = pprev->nHeight + 1` above a genesis at `0`. -/
def ChainHeights : BlockPtr → Prop
  | [] => True
  | b :: rest => b.nHeight = rest.length ∧ ChainHeights rest

/-- The part of `p`'s chain below height `h`: the parent of the block at height `h`, and `NULL`
for `h = 0`. -/
def parentAt (p : BlockPtr) (h : Nat) : BlockPtr := p.drop (p.length - h)

instance ChainHeights.decidable : (p : BlockPtr) → Decidable (ChainHeights p)
  | [] => isTrue trivial
  | b :: rest =>
    have := ChainHeights.decidable rest
    inferInstanceAs (Decidable (b.nHeight = rest.length ∧ ChainHeights rest))

theorem ChainHeights.suffix {p q : BlockPtr} (hp : ChainHeights p) (hq : q <:+ p) :
    ChainHeights q := by
  induction p with
  | nil => rwa [List.suffix_nil.mp hq]
  | cons b rest ih =>
    rcases List.suffix_cons_iff.mp hq with rfl | hq
    · exact hp
    · exact ih hp.2 hq

theorem length_parentAt {p : BlockPtr} {h : Nat} (hh : h ≤ p.length) :
    (parentAt p h).length = h := by
  rw [parentAt, List.length_drop]
  omega

@[simp] theorem parentAt_length (p : BlockPtr) : parentAt p p.length = p := by
  simp [parentAt]

@[simp] theorem parentAt_zero (p : BlockPtr) : parentAt p 0 = [] := by
  simp [parentAt]

theorem parentAt_suffix (p : BlockPtr) (h : Nat) : parentAt p h <:+ p := List.drop_suffix _ _

theorem parentAt_parentAt {p : BlockPtr} {m n : Nat} (hmn : m ≤ n) (hn : n ≤ p.length) :
    parentAt (parentAt p n) m = parentAt p m := by
  rw [parentAt, length_parentAt hn, parentAt, parentAt, List.drop_drop]
  congr 1
  omega

/-- On a chain, `GetAncestor(height)` is the part of the chain up to `height`. -/
theorem GetAncestor_of_chainHeights {p : BlockPtr} (hp : ChainHeights p) (height : Int) :
    GetAncestor p height =
      if height < p.length then parentAt p (height + 1).toNat else [] := by
  cases p with
  | nil => simp [GetAncestor, parentAt]
  | cons b rest =>
    have hb : b.nHeight = rest.length := hp.1
    simp only [GetAncestor, List.length_cons]
    by_cases hneg : height < 0
    · -- below genesis: both `NULL`
      rw [if_pos (.inr hneg), if_pos (by omega), parentAt,
        List.drop_eq_nil_of_le (by simp only [List.length_cons]; omega)]
    · by_cases hgt : height > b.nHeight
      · rw [if_pos (.inl hgt), if_neg (by omega)]
      · rw [if_neg (by omega), if_pos (by omega), parentAt]
        congr 1
        simp only [List.length_cons]
        omega

/-- `GetLastBlockIndexForAlgo(pindex, algo)`: the first block of `algo` at or below
`pindex`, or `NULL`. -/
def getLastBlockIndexForAlgo : BlockPtr → Algo → BlockPtr
  | [], _ => []
  | b :: rest, algo => if b.GetAlgo = algo then b :: rest else getLastBlockIndexForAlgo rest algo

theorem getLastBlockIndexForAlgo_suffix (algo : Algo) :
    ∀ p : BlockPtr, getLastBlockIndexForAlgo p algo <:+ p
  | [] => List.suffix_refl _
  | b :: rest => by
      unfold getLastBlockIndexForAlgo
      split
      · exact List.suffix_refl _
      · exact (getLastBlockIndexForAlgo_suffix algo rest).trans (List.suffix_cons b rest)

theorem length_getLastBlockIndexForAlgo_le (algo : Algo) (p : BlockPtr) :
    (getLastBlockIndexForAlgo p algo).length ≤ p.length :=
  (getLastBlockIndexForAlgo_suffix algo p).length_le

/-- The block `getLastBlockIndexForAlgo` returns is of the algorithm asked for. -/
theorem getAlgo_getLastBlockIndexForAlgo {algo : Algo} :
    ∀ {p : BlockPtr} {b : CBlockIndex} {rest : BlockPtr},
      getLastBlockIndexForAlgo p algo = b :: rest → b.GetAlgo = algo
  | [], _, _, h => by simp [getLastBlockIndexForAlgo] at h
  | c :: p, b, rest, h => by
      unfold getLastBlockIndexForAlgo at h
      split at h
      · cases h; assumption
      · exact getAlgo_getLastBlockIndexForAlgo h

end Unitus
