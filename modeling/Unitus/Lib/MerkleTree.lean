import Mathlib.Data.Nat.Log
import Mathlib.Data.Nat.Bitwise
import Mathlib.Order.Basic
import Mathlib.Tactic.Ring
import Mathlib.Data.List.Nodup

/-!
# Lib — Merkle trees that pair an odd last node with itself

The tree of a Bitcoin-style merkle root: the leaves are hashed in pairs level by level, and a
level with an odd number of nodes pairs its last node with itself.  `rootByLevels`,
`branchByLevels` and `rootFromBranch` state the tree as it is usually described, one level at
a time.  `rootAt` and `node` state it by height: the node at height `k` and index `i` is the
root over the `i`-th block of `2 ^ k` leaves, and a node whose right half is empty hashes its
left child with itself.  The two descriptions agree (`rootByLevels_eq`, `branchByLevels_eq`),
and a branch rebuilds the root (`rootFromBranch_branchByLevels`).

A node hash cannot be injective on pairs of nodes of a fixed width, so what the tree's
uniqueness rests on is stated about the nodes of one tree (`nodes`): no two different pairs of
them hash alike (`CollisionFree`), or no pair at all hashes like a pair of them but that pair
(`SecondPreimageFree`).  Without a collision, distinct leaves give distinct nodes at every
height (`node_inj`).
-/

namespace MerkleTree

variable {α : Type*}

/-! ### Blocks of leaves -/

/-- The `i`-th block of `2 ^ k` consecutive leaves; the last one may be short, and the ones
after it are empty. -/
def chunk (k i : Nat) (l : List α) : List α := (l.drop (i * 2 ^ k)).take (2 ^ k)

/-- The number of nodes at height `k` over `n` leaves, `⌈n / 2 ^ k⌉`. -/
def width (n k : Nat) : Nat := (n + 2 ^ k - 1) / 2 ^ k

@[simp] theorem length_chunk (k i : Nat) (l : List α) :
    (chunk k i l).length = min (2 ^ k) (l.length - i * 2 ^ k) := by
  simp [chunk]

theorem take_chunk_succ (k i : Nat) (l : List α) :
    (chunk (k + 1) i l).take (2 ^ k) = chunk k (2 * i) l := by
  simp only [chunk, List.take_take, pow_succ]
  rw [min_eq_left (by omega), show i * (2 ^ k * 2) = 2 * i * 2 ^ k by ring]

theorem drop_chunk_succ (k i : Nat) (l : List α) :
    (chunk (k + 1) i l).drop (2 ^ k) = chunk k (2 * i + 1) l := by
  simp only [chunk, List.drop_take, List.drop_drop, pow_succ]
  rw [show 2 ^ k * 2 - 2 ^ k = 2 ^ k by omega, show i * (2 ^ k * 2) + 2 ^ k = (2 * i + 1) * 2 ^ k by ring]

theorem chunk_succ (k i : Nat) (l : List α) :
    chunk (k + 1) i l = chunk k (2 * i) l ++ chunk k (2 * i + 1) l := by
  rw [← take_chunk_succ, ← drop_chunk_succ, List.take_append_drop]

theorem chunk_zero_of_le {k : Nat} {l : List α} (h : l.length ≤ 2 ^ k) : chunk k 0 l = l := by
  simp [chunk, List.take_of_length_le h]

/-- A node index below the width is a block that holds a leaf. -/
theorem lt_width_iff {n k i : Nat} : i < width n k ↔ i * 2 ^ k < n := by
  have hpos := Nat.one_le_two_pow (n := k)
  rw [width, Nat.lt_iff_add_one_le, Nat.le_div_iff_mul_le (by omega), Nat.add_mul, one_mul]
  omega

@[simp] theorem width_zero (n : Nat) : width n 0 = n := by
  simp [width]

theorem width_succ (n k : Nat) : width n (k + 1) = (width n k + 1) / 2 := by
  refine eq_of_forall_lt_iff fun i => ?_
  have h : i < (width n k + 1) / 2 ↔ 2 * i < width n k := by omega
  rw [h, lt_width_iff, lt_width_iff, show i * 2 ^ (k + 1) = 2 * i * 2 ^ k by ring]

theorem one_lt_width_iff {n k : Nat} : 1 < width n k ↔ 2 ^ k < n := by
  rw [lt_width_iff, one_mul]

/-- The width is the number of blocks: whole ones, and one more for a short last block. -/
theorem width_eq (n k : Nat) : width n k = n / 2 ^ k + if n % 2 ^ k = 0 then 0 else 1 := by
  have hpos : 0 < 2 ^ k := Nat.two_pow_pos k
  have hr := Nat.mod_lt n hpos
  conv_lhs => rw [width, ← Nat.div_add_mod n (2 ^ k), show 2 ^ k * (n / 2 ^ k) + n % 2 ^ k +
    2 ^ k - 1 = 2 ^ k * (n / 2 ^ k) + (n % 2 ^ k + 2 ^ k - 1) by omega, Nat.mul_add_div hpos]
  congr 1
  split_ifs with h
  · exact Nat.div_eq_of_lt (by omega)
  · exact Nat.div_eq_of_lt_le (by omega) (by omega)

/-- The blocks cover the leaves, with less than one block to spare. -/
theorem le_width_mul (n k : Nat) : n ≤ width n k * 2 ^ k ∧ width n k * 2 ^ k < n + 2 ^ k := by
  have hpos : 0 < 2 ^ k := Nat.two_pow_pos k
  have hd := Nat.div_add_mod n (2 ^ k)
  have hr := Nat.mod_lt n hpos
  rw [width_eq, Nat.add_mul, mul_comm (n / 2 ^ k)]
  split_ifs with h <;> omega

variable (hash2 : α → α → α)

/-- One level up: adjacent nodes hashed in pairs, an odd last node with itself. -/
def levelUp : List α → List α
  | [] => []
  | [a] => [hash2 a a]
  | a :: b :: rest => hash2 a b :: levelUp rest

@[simp] theorem length_levelUp : ∀ l : List α, (levelUp hash2 l).length = (l.length + 1) / 2
  | [] => by simp [levelUp]
  | [_] => by simp [levelUp]
  | _ :: _ :: rest => by
    simp only [levelUp, List.length_cons, length_levelUp rest]
    omega

/-! ### The tree by height -/

variable [Inhabited α]

/-- The root of the tree of height `k` over `l` (at most `2 ^ k` leaves): the left child is
over the first `2 ^ k` leaves, and where no leaf is left for the right child the left one is
hashed with itself. -/
def rootAt : Nat → List α → α
  | 0, l => l.headD default
  | k + 1, l =>
    let left := rootAt k (l.take (2 ^ k))
    if l.length ≤ 2 ^ k then hash2 left left else hash2 left (rootAt k (l.drop (2 ^ k)))

/-- The node at height `k` and index `i` of the tree over `l`. -/
def node (l : List α) (k i : Nat) : α := rootAt hash2 k (chunk k i l)

theorem node_zero {l : List α} {i : Nat} (h : i < l.length) : node hash2 l 0 i = l[i] := by
  rw [node, chunk, pow_zero, mul_one, List.drop_eq_getElem_cons h]
  rfl

/-- A node is its left child hashed with its right child, or with itself where the right
block is empty. -/
theorem node_succ (l : List α) (k i : Nat) :
    node hash2 l (k + 1) i = hash2 (node hash2 l k (2 * i))
      (if l.length ≤ (2 * i + 1) * 2 ^ k then node hash2 l k (2 * i)
        else node hash2 l k (2 * i + 1)) := by
  have hlen : (chunk (k + 1) i l).length ≤ 2 ^ k ↔ l.length ≤ (2 * i + 1) * 2 ^ k := by
    have := Nat.one_le_two_pow (n := k)
    rw [length_chunk, pow_succ, show (2 * i + 1) * 2 ^ k = i * (2 ^ k * 2) + 2 ^ k by ring]
    omega
  simp only [node, rootAt, take_chunk_succ, drop_chunk_succ]
  by_cases h : l.length ≤ (2 * i + 1) * 2 ^ k
  · rw [if_pos (hlen.mpr h), if_pos h]
  · rw [if_neg (mt hlen.mp h), if_neg h]

theorem node_succ_of_le {l : List α} {k i : Nat} (h : l.length ≤ (2 * i + 1) * 2 ^ k) :
    node hash2 l (k + 1) i = hash2 (node hash2 l k (2 * i)) (node hash2 l k (2 * i)) := by
  rw [node_succ, if_pos h]

theorem node_succ_of_lt {l : List α} {k i : Nat} (h : (2 * i + 1) * 2 ^ k < l.length) :
    node hash2 l (k + 1) i = hash2 (node hash2 l k (2 * i)) (node hash2 l k (2 * i + 1)) := by
  rw [node_succ, if_neg (by omega)]

/-! ### The tree by levels -/

/-- The root by levels: apply `levelUp` until one node is left; no leaf gives `default`. -/
def rootByLevels (l : List α) : α :=
  match l with
  | [] => default
  | [a] => a
  | a :: b :: rest => rootByLevels (levelUp hash2 (a :: b :: rest))
termination_by l.length
decreasing_by simp only [length_levelUp, List.length_cons]; omega

/-- The nodes of height `k` from index `2 * j` to the last one go one level up to the nodes
of height `k + 1` from index `j`. -/
theorem levelUp_map_node_range' (l : List α) (k : Nat) :
    ∀ c j, 2 * j + c = width l.length k →
      levelUp hash2 ((List.range' (2 * j) c).map (node hash2 l k)) =
        (List.range' j ((c + 1) / 2)).map (node hash2 l (k + 1))
  | 0, _, _ => rfl
  | 1, j, hc => by
    -- the last node of an odd level is paired with itself
    have hle : l.length ≤ (2 * j + 1) * 2 ^ k := by
      have := (lt_width_iff (n := l.length) (k := k) (i := 2 * j + 1)).not.mp (by omega)
      omega
    simp [levelUp, node_succ_of_le hash2 hle]
  | c + 2, j, hc => by
    have hlt : (2 * j + 1) * 2 ^ k < l.length := lt_width_iff.mp (by omega)
    have ih := levelUp_map_node_range' l k c (j + 1) (by omega)
    rw [show 2 * (j + 1) = 2 * j + 2 by ring] at ih
    rw [show (c + 2 + 1) / 2 = (c + 1) / 2 + 1 by omega, List.range'_succ, List.range'_succ,
      List.range'_succ]
    simp [levelUp, ih, node_succ_of_lt hash2 hlt, Nat.add_assoc]

theorem levelUp_nodes (l : List α) (k : Nat) :
    levelUp hash2 ((List.range (width l.length k)).map (node hash2 l k)) =
      (List.range (width l.length (k + 1))).map (node hash2 l (k + 1)) := by
  have h := levelUp_map_node_range' hash2 l k (width l.length k) 0 (by omega)
  rwa [List.range_eq_range', List.range_eq_range', width_succ]

/-- The leaves are the nodes of height 0. -/
theorem map_node_zero (l : List α) : (List.range (width l.length 0)).map (node hash2 l 0) = l := by
  refine List.ext_getElem (by simp) fun i h₁ h₂ => ?_
  simp [node_zero hash2 h₂]

theorem rootByLevels_of_two_le {l : List α} (h : 2 ≤ l.length) :
    rootByLevels hash2 l = rootByLevels hash2 (levelUp hash2 l) := by
  match l, h with
  | _ :: _ :: _, _ => rw [rootByLevels]

/-- From the nodes at any height up to the top, the levels above end in the top node. -/
theorem rootByLevels_nodes {l : List α} (hl : l ≠ []) :
    ∀ d k, Nat.clog 2 l.length = k + d →
      rootByLevels hash2 ((List.range (width l.length k)).map (node hash2 l k)) =
        node hash2 l (Nat.clog 2 l.length) 0
  | 0, k, hD => by
    -- a single node is left
    have hle : l.length ≤ 2 ^ k := (Nat.clog_le_iff_le_pow (by norm_num)).mp (by omega)
    have hpos : 0 < width l.length k := lt_width_iff.mpr (by simpa using List.length_pos_iff.mpr hl)
    have hw : width l.length k = 1 := by
      have := (one_lt_width_iff (n := l.length) (k := k)).not.mpr (by omega)
      omega
    rw [hw, hD]
    simp [rootByLevels]
  | d + 1, k, hD => by
    have hlt : 2 ^ k < l.length := (Nat.lt_clog_iff_pow_lt (by norm_num)).mp (by omega)
    rw [rootByLevels_of_two_le hash2 (by simp; exact one_lt_width_iff.mpr hlt), levelUp_nodes]
    exact rootByLevels_nodes hl d (k + 1) (by omega)

/-- **The root by levels is the top node.** -/
theorem rootByLevels_eq {l : List α} (hl : l ≠ []) :
    rootByLevels hash2 l = node hash2 l (Nat.clog 2 l.length) 0 := by
  have h := rootByLevels_nodes hash2 hl (Nat.clog 2 l.length) 0 (by omega)
  rwa [map_node_zero] at h

/-! ### Branches -/

/-- The branch of leaf `p` by levels: at each level the node beside `p`'s ancestor, or the
ancestor itself where it is the last node of an odd level. -/
def branchByLevels (l : List α) (p : Nat) : List α :=
  if l.length ≤ 1 then []
  else l.getD (min (p ^^^ 1) (l.length - 1)) default :: branchByLevels (levelUp hash2 l) (p / 2)
termination_by l.length
decreasing_by simp only [length_levelUp]; omega

/-- The entry of leaf `p`'s branch at height `k`. -/
def sibling (l : List α) (p k : Nat) : α :=
  node hash2 l k (min ((p / 2 ^ k) ^^^ 1) (width l.length k - 1))

/-- Climb a branch from a leaf at index `p`: the branch's node goes on the left where the
index is odd. -/
def rootFromBranch (leaf : α) : List α → Nat → α
  | [], _ => leaf
  | s :: branch, p =>
    rootFromBranch (if p % 2 = 1 then hash2 s leaf else hash2 leaf s) branch (p / 2)

theorem div_two_pow_succ (p k : Nat) : p / 2 ^ k / 2 = p / 2 ^ (k + 1) := by
  rw [Nat.div_div_eq_div_mul, pow_succ]

theorem branchByLevels_nodes {l : List α} (hl : l ≠ []) (p : Nat) :
    ∀ d k, Nat.clog 2 l.length = k + d →
      branchByLevels hash2 ((List.range (width l.length k)).map (node hash2 l k)) (p / 2 ^ k) =
        (List.range' k d).map (sibling hash2 l p)
  | 0, k, hD => by
    have hle : l.length ≤ 2 ^ k := (Nat.clog_le_iff_le_pow (by norm_num)).mp (by omega)
    rw [branchByLevels, if_pos (by simpa using one_lt_width_iff.not.mpr (by omega))]
    rfl
  | d + 1, k, hD => by
    have hlt : 2 ^ k < l.length := (Nat.lt_clog_iff_pow_lt (by norm_num)).mp (by omega)
    have hw := one_lt_width_iff.mpr hlt
    rw [branchByLevels, if_neg (by simpa using hw), levelUp_nodes, div_two_pow_succ,
      branchByLevels_nodes hl p d (k + 1) (by omega), List.range'_succ, List.map_cons]
    congr 1
    simp [sibling, List.getD_eq_getElem?_getD, show min ((p / 2 ^ k) ^^^ 1) (width l.length k - 1) <
      width l.length k by omega]

/-- **The branch by levels, by height.** -/
theorem branchByLevels_eq {l : List α} (hl : l ≠ []) (p : Nat) :
    branchByLevels hash2 l p = (List.range (Nat.clog 2 l.length)).map (sibling hash2 l p) := by
  have h := branchByLevels_nodes hash2 hl p (Nat.clog 2 l.length) 0 (by omega)
  rwa [map_node_zero, pow_zero, Nat.div_one, ← List.range_eq_range'] at h

/-- One step up a branch: the ancestor of leaf `p` at height `k`, hashed with its branch entry
on the side the index says, is its ancestor at height `k + 1`. -/
theorem hash_sibling {l : List α} {p k : Nat} (hq : p / 2 ^ k < width l.length k) :
    (if p / 2 ^ k % 2 = 1 then hash2 (sibling hash2 l p k) (node hash2 l k (p / 2 ^ k))
      else hash2 (node hash2 l k (p / 2 ^ k)) (sibling hash2 l p k)) =
    node hash2 l (k + 1) (p / 2 ^ (k + 1)) := by
  rw [← div_two_pow_succ, sibling]
  obtain ⟨m, hm | hm⟩ := Nat.even_or_odd' (p / 2 ^ k)
  · -- a left child: its sibling is the next node, or itself at the end of an odd level
    rw [hm, if_neg (by omega), Nat.xor_one_of_even ⟨m, by omega⟩, show 2 * m / 2 = m by omega]
    rw [hm] at hq
    by_cases hnext : 2 * m + 1 < width l.length k
    · rw [min_eq_left (by omega), node_succ_of_lt hash2 (lt_width_iff.mp hnext)]
    · rw [min_eq_right (by omega), show width l.length k - 1 = 2 * m by omega,
        node_succ_of_le hash2 (by have := lt_width_iff.not.mp hnext; omega)]
  · -- a right child: its sibling is the node before it
    rw [hm, if_pos (by omega), Nat.xor_one_of_odd ⟨m, by omega⟩, show (2 * m + 1) / 2 = m by omega,
      min_eq_left (by omega), show 2 * m + 1 - 1 = 2 * m by omega]
    rw [hm] at hq
    rw [node_succ_of_lt hash2 (lt_width_iff.mp hq)]

theorem rootFromBranch_nodes {l : List α} {p : Nat} (hp : p < l.length) :
    ∀ d k, Nat.clog 2 l.length = k + d →
      rootFromBranch hash2 (node hash2 l k (p / 2 ^ k)) ((List.range' k d).map (sibling hash2 l p))
        (p / 2 ^ k) = node hash2 l (Nat.clog 2 l.length) 0
  | 0, k, hD => by
    have hle : l.length ≤ 2 ^ k := (Nat.clog_le_iff_le_pow (by norm_num)).mp (by omega)
    rw [Nat.div_eq_of_lt (by omega), hD]
    rfl
  | d + 1, k, hD => by
    have hq : p / 2 ^ k < width l.length k :=
      lt_width_iff.mpr (lt_of_le_of_lt (Nat.div_mul_le_self p (2 ^ k)) hp)
    rw [List.range'_succ, List.map_cons, rootFromBranch, hash_sibling hash2 hq, div_two_pow_succ]
    exact rootFromBranch_nodes hp d (k + 1) (by omega)

/-- **A branch rebuilds the root.** -/
theorem rootFromBranch_branchByLevels {l : List α} {p : Nat} (hp : p < l.length) :
    rootFromBranch hash2 l[p] (branchByLevels hash2 l p) p = rootByLevels hash2 l := by
  have hl : l ≠ [] := List.ne_nil_of_length_pos (by omega)
  have h := rootFromBranch_nodes hash2 hp (Nat.clog 2 l.length) 0 (by omega)
  rwa [pow_zero, Nat.div_one, node_zero hash2 hp, ← List.range_eq_range', ← branchByLevels_eq hash2 hl,
    ← rootByLevels_eq hash2 hl] at h

/-! ### Equal sibling blocks -/

/-- Two complete sibling blocks among the first `k` leaves whose nodes are equal. -/
def EqualPairBelow (l : List α) (k : Nat) : Prop :=
  ∃ j i, (2 * i + 2) * 2 ^ j ≤ k ∧ node hash2 l j (2 * i) = node hash2 l j (2 * i + 1)

/-- One more leaf completes only the pairs that end at it. -/
theorem equalPairBelow_succ (l : List α) (k : Nat) :
    EqualPairBelow hash2 l (k + 1) ↔ EqualPairBelow hash2 l k ∨
      ∃ j i, (2 * i + 2) * 2 ^ j = k + 1 ∧ node hash2 l j (2 * i) = node hash2 l j (2 * i + 1) := by
  constructor
  · rintro ⟨j, i, hle, heq⟩
    by_cases hk : (2 * i + 2) * 2 ^ j ≤ k
    · exact .inl ⟨j, i, hk, heq⟩
    · exact .inr ⟨j, i, by omega, heq⟩
  · rintro (⟨j, i, hle, heq⟩ | ⟨j, i, hle, heq⟩)
    · exact ⟨j, i, by omega, heq⟩
    · exact ⟨j, i, by omega, heq⟩

/-! ### Collisions -/

/-- The nodes of the tree over `l`, height by height from the leaves to the root. -/
def nodes (l : List α) : List α :=
  (List.range (Nat.clog 2 l.length + 1)).flatMap fun k =>
    (List.range (width l.length k)).map (node hash2 l k)

theorem node_mem_nodes {l : List α} {k i : Nat} (hk : k ≤ Nat.clog 2 l.length)
    (hi : i < width l.length k) : node hash2 l k i ∈ nodes hash2 l := by
  simp only [nodes, List.mem_flatMap, List.mem_range, List.mem_map]
  exact ⟨k, by omega, i, hi, rfl⟩

/-- The right child of a node at height `k + 1`, or the left one where the right block is
empty, is a node of the tree. -/
theorem right_mem_nodes {l : List α} {k i : Nat} (hk : k + 1 ≤ Nat.clog 2 l.length)
    (hi : 2 * i < width l.length k) :
    (if l.length ≤ (2 * i + 1) * 2 ^ k then node hash2 l k (2 * i)
      else node hash2 l k (2 * i + 1)) ∈ nodes hash2 l := by
  split
  · exact node_mem_nodes hash2 (by omega) hi
  · next h => exact node_mem_nodes hash2 (by omega) (lt_width_iff.mpr (by omega))

/-- No two different pairs from `S` hash alike. -/
def CollisionFree (S : List α) : Prop :=
  ∀ a ∈ S, ∀ b ∈ S, ∀ c ∈ S, ∀ d ∈ S, hash2 a b = hash2 c d → a = c ∧ b = d

/-- No pair hashes like a pair `(c, d)` from `S` but `(c, d)` itself: no second preimage. -/
def SecondPreimageFree (S : List α) : Prop :=
  ∀ a b, ∀ c ∈ S, ∀ d ∈ S, hash2 a b = hash2 c d → a = c ∧ b = d

/-- **Distinct leaves, distinct nodes.**  With no collision among the nodes, distinct positions
at one height hold distinct nodes. -/
theorem node_inj {l : List α} (hl : l.Nodup) (hcf : CollisionFree hash2 (nodes hash2 l)) :
    ∀ k, k ≤ Nat.clog 2 l.length → ∀ i j, i < width l.length k → j < width l.length k →
      node hash2 l k i = node hash2 l k j → i = j := by
  intro k
  induction k with
  | zero =>
    intro _ i j hi hj h
    rw [width_zero] at hi hj
    rw [node_zero hash2 hi, node_zero hash2 hj] at h
    exact (List.Nodup.getElem_inj_iff hl).mp h
  | succ k ih =>
    intro hk i j hi hj h
    -- both are a left child hashed with a right one, all of them nodes of height `k`
    rw [width_succ] at hi hj
    have hi2 : 2 * i < width l.length k := by omega
    have hj2 : 2 * j < width l.length k := by omega
    rw [node_succ, node_succ] at h
    obtain ⟨hleft, -⟩ := hcf _ (node_mem_nodes hash2 (by omega) hi2) _
      (right_mem_nodes hash2 hk hi2) _ (node_mem_nodes hash2 (by omega) hj2) _
      (right_mem_nodes hash2 hk hj2) h
    have := ih (by omega) (2 * i) (2 * j) hi2 hj2 hleft
    omega

end MerkleTree
