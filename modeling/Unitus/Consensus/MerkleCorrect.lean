import Unitus.Consensus.Merkle
import Mathlib.Tactic.Positivity
import Mathlib.Tactic.Ring

/-!
# Consensus — `MerkleComputation` computes the merkle tree

For up to `2 ^ 31` leaves, `MerkleComputation` returns the root and the branch of the reference
tree (`MerkleTree.rootByLevels`, `MerkleTree.branchByLevels`), and `mutated` is set exactly when
two complete sibling blocks of leaves have equal nodes (`MerkleComputation_spec`).  The proof
follows the source's loops:

* after `k` leaves, `inner[b]` holds, for each set bit `b` of `k`, the node over the last
  complete block of `2 ^ b` leaves below the bits above `b` (`InnerInv`);
* each climb of the leaf loop adds one leaf to a binary counter (`climb_rule`), which keeps
  `LeafInv` (`leafInv_of_climbInv`, `leafLoop_spec`);
* the final sweep walks up the right edge of the tree, where the node at height `j` has index
  `width n j - 1` (`SweepInv`, `sweep_spec`).

A branch so computed climbs back to the root (`ComputeMerkleRootFromBranch_branch`).  Above
`2 ^ 31` leaves `count` carries out of its 32 bits, in the final sweep (`sweep_overflow`) or in
the leaf loop (`leafLoop_overflow`), and a loop reaches level 32, where the source's shift is
undefined (`ComputeMerkleRoot_wraps`); so a defined root has at most `2 ^ 31` leaves
(`ComputeMerkleRoot_eq_some`).
-/

namespace Unitus

namespace Merkle

open MerkleTree

variable {α : Type} [DecidableEq α] [Inhabited α] {hash2 : α → α → α}

/-! ### Counting in binary -/

theorem testBit_iff_div {m j : Nat} : m.testBit j = true ↔ m / 2 ^ j % 2 = 1 := by
  rw [Nat.testBit_eq_decide_div_mod_eq, decide_eq_true_iff]

theorem testBit_false_iff_div {m j : Nat} : m.testBit j = false ↔ m / 2 ^ j % 2 = 0 := by
  rw [Nat.testBit_eq_decide_div_mod_eq, decide_eq_false_iff_not]
  omega

/-- The lowest set bit of a non-zero count. -/
theorem exists_lowest_bit {m : Nat} (hm : m ≠ 0) :
    ∃ t, m.testBit t = true ∧ ∀ j < t, m.testBit j = false := by
  classical
  have h := Nat.exists_testBit_of_ne_zero hm
  exact ⟨Nat.find h, Nat.find_spec h, fun j hj => by simpa using Nat.find_min h hj⟩

theorem two_pow_dvd_of_testBit_false {m : Nat} :
    ∀ t, (∀ j < t, m.testBit j = false) → 2 ^ t ∣ m
  | 0, _ => by simp
  | t + 1, h => by
    obtain ⟨q, hq⟩ := two_pow_dvd_of_testBit_false t fun j hj => h j (by omega)
    have hbit := testBit_false_iff_div.mp (h t (by omega))
    rw [hq, Nat.mul_div_cancel_left _ (by positivity)] at hbit
    exact ⟨q / 2, by rw [hq, pow_succ, mul_assoc, Nat.mul_div_cancel' (Nat.dvd_of_mod_eq_zero hbit)]⟩

/-- Below a multiple of `2 ^ j`, the count at level `j` is one less. -/
theorem pred_div_of_dvd {m j : Nat} (hd : 2 ^ j ∣ m) (hm : 0 < m) :
    (m - 1) / 2 ^ j = m / 2 ^ j - 1 := by
  obtain ⟨q, rfl⟩ := hd
  have hpos : 0 < 2 ^ j := by positivity
  have hq : 0 < q := Nat.pos_of_mul_pos_left hm
  have hle : 2 ^ j ≤ 2 ^ j * q := Nat.le_mul_of_pos_right _ hq
  rw [Nat.mul_div_cancel_left _ hpos]
  apply Nat.div_eq_of_lt_le
  · rw [Nat.sub_mul, one_mul, mul_comm]
    omega
  · rw [Nat.sub_add_cancel hq, Nat.mul_comm q]
    omega

/-- Above the lowest set bit `t` of `m`, `m - 1` and `m` agree. -/
theorem pred_div_of_lowest {m t b : Nat} (hd : 2 ^ t ∣ m) (hodd : m / 2 ^ t % 2 = 1)
    (hb : t < b) : (m - 1) / 2 ^ b = m / 2 ^ b := by
  have hpos : 0 < m := Nat.pos_of_ne_zero fun h => by simp [h] at hodd
  have hsucc : (m - 1) / 2 ^ (t + 1) = m / 2 ^ (t + 1) := by
    rw [← div_two_pow_succ, ← div_two_pow_succ, pred_div_of_dvd hd hpos]
    generalize m / 2 ^ t = x at hodd ⊢
    omega
  obtain ⟨s, rfl⟩ : ∃ s, b = t + 1 + s := ⟨b - (t + 1), by omega⟩
  rw [pow_add, ← Nat.div_div_eq_div_mul, ← Nat.div_div_eq_div_mul, hsucc]

/-! ### The climb -/

omit [Inhabited α] in
/-- **The climb rule.**  A property of the cursor and `mutated` that each round below the
lowest set bit `t` of `count` keeps holds where the climb stops, at `t`. -/
theorem climb_rule {fBranch : Bool} {count : Nat} {matchlevel : Int} {inner : Nat → α} {t : Nat}
    (P : Cursor α → Bool → Prop)
    (hstep : ∀ c mutated, c.level < t → P c mutated →
      P (c.combine hash2 fBranch matchlevel inner) (mutated || inner c.level == c.h))
    (hclear : ∀ j < t, count.testBit j = false) (hset : count.testBit t = true) (ht : t < 32) :
    ∀ fuel (c : Cursor α) mutated, c.level + fuel = 32 → c.level ≤ t → P c mutated →
      ∃ c' mutated', climb hash2 fBranch count matchlevel inner fuel c mutated = some (c', mutated') ∧
        c'.level = t ∧ P c' mutated'
  | 0, c, _, hf, hle, _ => by omega
  | fuel + 1, c, mutated, hf, hle, hP => by
    rw [climb]
    by_cases hlt : c.level < t
    · rw [if_neg (by rw [hclear _ hlt]; decide)]
      exact climb_rule P hstep hclear hset ht fuel _ _ (by simp; omega) (by simp; omega)
        (hstep c mutated hlt hP)
    · have hlev : c.level = t := by omega
      rw [if_pos (hlev ▸ hset)]
      exact ⟨c, mutated, rfl, hlev, hP⟩

/-! ### The leaf loop -/

/-- `inner[b]` after `k` leaves: for each set bit `b` of `k`, the node over the complete block
of `2 ^ b` leaves just below the bits of `k` above `b`. -/
def InnerInv (hash2 : α → α → α) (l : List α) (k : Nat) (inner : Nat → α) : Prop :=
  ∀ b, k.testBit b = true → inner b = node hash2 l b (k / 2 ^ b - 1)

/-- The branch of leaf `p` below height `b`, inside a complete block: the sibling at each
height. -/
def innerBranch (hash2 : α → α → α) (l : List α) (p b : Nat) : List α :=
  (List.range b).map fun j => node hash2 l j ((p / 2 ^ j) ^^^ 1)

omit [DecidableEq α] in
theorem innerBranch_succ (l : List α) (p b : Nat) :
    innerBranch hash2 l p (b + 1) = innerBranch hash2 l p b ++ [node hash2 l b ((p / 2 ^ b) ^^^ 1)] := by
  simp [innerBranch, List.range_succ]

/-- The branch state after `k` leaves: once leaf `p` is read it lies in the block stored at
`inner[matchlevel]`, and the branch holds its siblings below that height. -/
def BranchInv (hash2 : α → α → α) (l : List α) (p k : Nat) (matchlevel : Int)
    (branch : List α) : Prop :=
  (p < k → ∃ b, k.testBit b = true ∧ p / 2 ^ b + 1 = k / 2 ^ b ∧ matchlevel = b ∧
    branch = innerBranch hash2 l p b) ∧
  (k ≤ p → matchlevel = -1 ∧ branch = [])

/-- What the leaf loop keeps after the first `k` leaves of `l`. -/
structure LeafInv (hash2 : α → α → α) (l : List α) (fBranch : Bool) (p k : Nat)
    (st : LeafState α) : Prop where
  count_eq : st.count = k
  inner : InnerInv hash2 l k st.inner
  mutated_iff : st.mutated = true ↔ EqualPairBelow hash2 l k
  branch : fBranch = true → BranchInv hash2 l p k st.matchlevel st.branch

/-- What holds at each level of the climb that reads leaf `k`. -/
structure ClimbInv (hash2 : α → α → α) (l : List α) (fBranch : Bool) (p k : Nat)
    (st : LeafState α) (c : Cursor α) (mutated : Bool) : Prop where
  dvd : 2 ^ c.level ∣ k + 1
  h_eq : c.h = node hash2 l c.level ((k + 1) / 2 ^ c.level - 1)
  mutated_iff : mutated = true ↔ EqualPairBelow hash2 l k ∨
    ∃ j i, j < c.level ∧ (2 * i + 2) * 2 ^ j = k + 1 ∧
      node hash2 l j (2 * i) = node hash2 l j (2 * i + 1)
  matched : fBranch = true → c.matchh = true →
    p / 2 ^ c.level + 1 = (k + 1) / 2 ^ c.level ∧ c.branch = innerBranch hash2 l p c.level
  unmatched : fBranch = true → c.matchh = false → c.branch = st.branch ∧
    (p < k → ∃ b, c.level ≤ b ∧ k.testBit b = true ∧ p / 2 ^ b + 1 = k / 2 ^ b ∧
      st.matchlevel = b ∧ st.branch = innerBranch hash2 l p b) ∧
    (k ≤ p → k ≠ p ∧ st.matchlevel = -1 ∧ st.branch = [])

section Leaf

variable {l : List α} {fBranch : Bool} {p k : Nat} {st : LeafState α}

omit [DecidableEq α] in
/-- The climb that reads leaf `k` starts at level 0 with the leaf itself. -/
theorem climbInv_start (hst : LeafInv hash2 l fBranch p k st) (hk : k < l.length) :
    ClimbInv hash2 l fBranch p k st ⟨0, l[k], st.count == p, st.branch⟩ st.mutated := by
  refine ⟨by simp, ?_, ?_, ?_, ?_⟩
  · simp [node_zero hash2 hk]
  · simp [hst.mutated_iff]
  · intro hb hm
    have hkp : k = p := by simpa [hst.count_eq] using hm
    subst hkp
    exact ⟨by simp, by simp [innerBranch, ((hst.branch hb).2 le_rfl).2]⟩
  · intro hb hm
    have hkp : k ≠ p := by simpa [hst.count_eq] using hm
    obtain ⟨hlt, hge⟩ := hst.branch hb
    refine ⟨rfl, fun hpk => ?_, fun hkp' => ⟨hkp, hge hkp'⟩⟩
    obtain ⟨b, hbit, hdiv, hml, hbr⟩ := hlt hpk
    exact ⟨b, Nat.zero_le _, hbit, hdiv, hml, hbr⟩

/-- One round of the climb that reads leaf `k`, at a level `j` where bit `j` of `k + 1` is
clear: `inner[j]` is the complete block just left of the one that ends at leaf `k`, and the two
make the block of height `j + 1` that ends there. -/
theorem climbInv_combine (hinner : InnerInv hash2 l k st.inner) (hn : k + 1 ≤ l.length)
    {c : Cursor α} {mutated : Bool} (hinv : ClimbInv hash2 l fBranch p k st c mutated)
    (hclear : (k + 1).testBit c.level = false) :
    ClimbInv hash2 l fBranch p k st (c.combine hash2 fBranch st.matchlevel st.inner)
      (mutated || st.inner c.level == c.h) := by
  obtain ⟨hdvd, hh, hmut, hmatched, hunmatched⟩ := hinv
  -- `x - 1` is the index of the block of height `c.level` that ends at leaf `k`
  set x := (k + 1) / 2 ^ c.level with hx
  have hpos : 0 < 2 ^ c.level := by positivity
  have hxeven : x % 2 = 0 := testBit_false_iff_div.mp hclear
  have hxm : x * 2 ^ c.level = k + 1 := Nat.div_mul_cancel hdvd
  have hx2 : 2 ≤ x := by
    have : 0 < x := Nat.div_pos (Nat.le_of_dvd (by omega) hdvd) hpos
    omega
  have hkx : k / 2 ^ c.level = x - 1 := pred_div_of_dvd hdvd (by omega)
  have hbit : k.testBit c.level = true := testBit_iff_div.mpr (by omega)
  have hleft : st.inner c.level = node hash2 l c.level (x - 2) := by
    rw [hinner c.level hbit, hkx, Nat.sub_sub]
  have hup : (k + 1) / 2 ^ (c.level + 1) = x / 2 := (div_two_pow_succ _ _).symm
  have e₁ : 2 * (x / 2 - 1) = x - 2 := by omega
  have e₂ : 2 * (x / 2 - 1) + 1 = x - 1 := by omega
  have e₃ : (x - 2) / 2 + 1 = x / 2 := by omega
  have e₄ : (x - 1) / 2 + 1 = x / 2 := by omega
  have hxe : Even (x - 2) := Nat.even_iff.mpr (by omega)
  have hxo : Odd (x - 1) := Nat.odd_iff.mpr (by omega)
  have hnode : node hash2 l (c.level + 1) (x / 2 - 1) =
      hash2 (node hash2 l c.level (x - 2)) (node hash2 l c.level (x - 1)) := by
    have hlt : (2 * (x / 2 - 1) + 1) * 2 ^ c.level < l.length := by
      rw [e₂, Nat.sub_mul, one_mul, hxm]
      omega
    rw [node_succ_of_lt hash2 hlt, e₂, e₁]
  refine ⟨?_, ?_, ?_, ?_, ?_⟩
  · -- the block of height `c.level + 1` still ends at leaf `k`
    rw [Cursor.combine_level, pow_succ, ← hxm, mul_comm x]
    exact Nat.mul_dvd_mul_left _ (Nat.dvd_of_mod_eq_zero hxeven)
  · rw [Cursor.combine_h, Cursor.combine_level, hup, hnode, hleft, hh]
  · -- the only pair this round compares is the one that ends at leaf `k`
    rw [Cursor.combine_level, Bool.or_eq_true, beq_iff_eq, hmut, hleft, hh]
    constructor
    · rintro ((hbelow | ⟨j', i, hj', hm, heq⟩) | heq)
      · exact .inl hbelow
      · exact .inr ⟨j', i, by omega, hm, heq⟩
      · refine .inr ⟨c.level, x / 2 - 1, by omega, ?_, by rwa [e₂, e₁]⟩
        rw [← hxm]
        congr 1
        omega
    · rintro (hbelow | ⟨j', i, hj', hm, heq⟩)
      · exact .inl (.inl hbelow)
      · rcases Nat.lt_succ_iff_lt_or_eq.mp hj' with hlt | rfl
        · exact .inl (.inr ⟨j', i, hlt, hm, heq⟩)
        · have hi : 2 * i + 2 = x := Nat.eq_of_mul_eq_mul_right hpos (hm.trans hxm.symm)
          exact .inr (by rwa [show x - 2 = 2 * i by omega, show x - 1 = 2 * i + 1 by omega])
  · intro hb hm
    simp only [Cursor.combine_matchh, Bool.or_eq_true, Bool.and_eq_true, beq_iff_eq] at hm
    simp only [Cursor.combine_level, Cursor.combine_branch, hb, Bool.true_and]
    cases hmatch : c.matchh
    · -- `inner[c.level]` holds leaf `p`: the branch takes `h`
      have hml : st.matchlevel = (c.level : Int) := by simpa [hmatch, hb] using hm
      obtain ⟨hbr, hlt, hge⟩ := hunmatched hb hmatch
      have hpk : p < k := by
        by_contra hpk
        have := (hge (by omega)).2.1
        omega
      obtain ⟨b, -, -, hdiv, hmb, hbr'⟩ := hlt hpk
      have hbj : b = c.level := by omega
      rw [hbj] at hdiv hbr'
      have hp : p / 2 ^ c.level = x - 2 := by omega
      rw [if_neg (by simp), if_pos (by simp [hml]), hbr, hbr', innerBranch_succ, hup,
        ← div_two_pow_succ, hp, Nat.xor_one_of_even hxe, hh, show x - 2 + 1 = x - 1 by omega]
      exact ⟨e₃, rfl⟩
    · -- `h` holds leaf `p`: the branch takes `inner[c.level]`
      obtain ⟨hdiv, hbr⟩ := hmatched hb hmatch
      have hp : p / 2 ^ c.level = x - 1 := by omega
      rw [if_pos rfl, hbr, innerBranch_succ, hup, ← div_two_pow_succ, hp,
        Nat.xor_one_of_odd hxo, hleft, Nat.sub_sub]
      exact ⟨e₄, rfl⟩
  · intro hb hm
    simp only [Cursor.combine_matchh, Bool.or_eq_false_iff, Bool.and_eq_false_imp,
      beq_eq_false_iff_ne, ne_eq] at hm
    obtain ⟨hmatch, hml⟩ := hm
    obtain ⟨hbr, hlt, hge⟩ := hunmatched hb hmatch
    simp only [Cursor.combine_level, Cursor.combine_branch, hb, hmatch, Bool.true_and,
      Bool.false_eq_true, if_false, beq_iff_eq, if_neg (hml hb)]
    refine ⟨hbr, fun hpk => ?_, hge⟩
    obtain ⟨b, hjb, hbit', hdiv, hmb, hbr'⟩ := hlt hpk
    refine ⟨b, ?_, hbit', hdiv, hmb, hbr'⟩
    have : (b : Int) ≠ c.level := fun h => hml hb (hmb.trans h)
    omega

/-- A pair of blocks that ends at leaf `k` lies below the lowest set bit of `k + 1`. -/
theorem pair_level_lt {m t j i : Nat} (hset : m.testBit t = true) (hm : (2 * i + 2) * 2 ^ j = m) :
    j < t := by
  by_contra hjt
  obtain ⟨s, rfl⟩ : ∃ s, j = t + s := ⟨j - t, by omega⟩
  have hdiv : m / 2 ^ t = (2 * i + 2) * 2 ^ s := by
    rw [← hm, pow_add, ← mul_assoc, mul_right_comm, Nat.mul_div_cancel _ (Nat.two_pow_pos t)]
  have := testBit_iff_div.mp hset
  rw [hdiv, show (2 * i + 2) * 2 ^ s = 2 * ((i + 1) * 2 ^ s) by ring] at this
  omega

omit [DecidableEq α] in
/-- Where the climb that reads leaf `k` stops, at the lowest set bit `t` of `k + 1`, storing
`h` at `inner[t]` gives the leaf loop's state after `k + 1` leaves. -/
theorem leafInv_of_climbInv (hst : LeafInv hash2 l fBranch p k st) {c : Cursor α}
    {mutated : Bool} (hinv : ClimbInv hash2 l fBranch p k st c mutated)
    (hset : (k + 1).testBit c.level = true) (hclear : ∀ j < c.level, (k + 1).testBit j = false) :
    LeafInv hash2 l fBranch p (k + 1)
      { count := k + 1
        inner := Function.update st.inner c.level c.h
        matchlevel := if c.matchh then (c.level : Int) else st.matchlevel
        mutated
        branch := c.branch } := by
  obtain ⟨hdvd, hh, hmut, hmatched, hunmatched⟩ := hinv
  have hodd : (k + 1) / 2 ^ c.level % 2 = 1 := testBit_iff_div.mp hset
  -- above `c.level` the bits of `k` and `k + 1` agree; at `c.level`, `k` has a clear bit
  have habove : ∀ b, c.level < b → k / 2 ^ b = (k + 1) / 2 ^ b := fun b hb =>
    pred_div_of_lowest hdvd hodd hb
  have hkt : k.testBit c.level = false := by
    rw [testBit_false_iff_div, show k = k + 1 - 1 by omega, pred_div_of_dvd hdvd (by omega)]
    omega
  refine ⟨rfl, fun b hb => ?_, ?_, fun hbr => ⟨fun hpk => ?_, fun hpk => ?_⟩⟩
  · -- `inner`: the new block at `c.level`, the old ones above it
    dsimp only
    rcases lt_trichotomy b c.level with hlt | rfl | hgt
    · rw [hclear b hlt] at hb
      cases hb
    · rw [Function.update_self, hh]
    · have hkb := habove b hgt
      rw [Function.update_of_ne (by omega),
        hst.inner b (testBit_iff_div.mpr (by rw [hkb]; exact testBit_iff_div.mp hb)), hkb]
  · -- `mutated`: every pair that ends at leaf `k` is below `c.level`
    show mutated = true ↔ _
    rw [hmut, equalPairBelow_succ]
    refine or_congr_right ⟨fun ⟨j, i, _, hm, heq⟩ => ⟨j, i, hm, heq⟩, fun ⟨j, i, hm, heq⟩ =>
      ⟨j, i, pair_level_lt hset hm, hm, heq⟩⟩
  · -- leaf `p` has been read
    show ∃ b, (k + 1).testBit b = true ∧ p / 2 ^ b + 1 = (k + 1) / 2 ^ b ∧
      (if c.matchh then (c.level : Int) else st.matchlevel) = b ∧ c.branch = innerBranch hash2 l p b
    cases hmatch : c.matchh
    · obtain ⟨hbr', hlt, hge⟩ := hunmatched hbr hmatch
      have hpk' : p < k := by
        by_contra hpk'
        exact (hge (by omega)).1 (by omega)
      obtain ⟨b, hjb, hbit, hdiv, hmb, hbrb⟩ := hlt hpk'
      have hgt : c.level < b := by
        rcases Nat.lt_or_eq_of_le hjb with h | rfl
        · exact h
        · rw [hkt] at hbit
          cases hbit
      refine ⟨b, testBit_iff_div.mpr ?_, by rw [← habove b hgt]; exact hdiv, by simpa using hmb,
        hbr'.trans hbrb⟩
      rw [← habove b hgt]
      exact testBit_iff_div.mp hbit
    · obtain ⟨hdiv, hbrb⟩ := hmatched hbr hmatch
      exact ⟨c.level, hset, hdiv, by simp, hbrb⟩
  · -- leaf `p` has not been read
    show (if c.matchh then (c.level : Int) else st.matchlevel) = -1 ∧ c.branch = []
    cases hmatch : c.matchh
    · obtain ⟨hbr', -, hge⟩ := hunmatched hbr hmatch
      obtain ⟨-, hml, hnil⟩ := hge (by omega)
      exact ⟨by simpa using hml, hbr'.trans hnil⟩
    · obtain ⟨hdiv, -⟩ := hmatched hbr hmatch
      have : p < k + 1 := Nat.lt_of_div_lt_div (c := 2 ^ c.level) (by omega)
      omega

/-- **One leaf.**  From the state after `k` leaves, while `k + 1` is below `2 ^ 32`, the climb
for leaf `k` stops at the lowest set bit of `k + 1` and the loop goes on from the state after
`k + 1` leaves. -/
theorem leafLoop_step (hst : LeafInv hash2 l fBranch p k st) (hk : k < l.length)
    (hk32 : k + 1 < 2 ^ 32) :
    ∃ st', leafLoop hash2 fBranch p (l.drop k) st = leafLoop hash2 fBranch p (l.drop (k + 1)) st' ∧
      LeafInv hash2 l fBranch p (k + 1) st' := by
  obtain ⟨t, hset, hclear⟩ := exists_lowest_bit (m := k + 1) (by omega)
  have ht : t < 32 :=
    (Nat.pow_lt_pow_iff_right (by norm_num)).mp ((Nat.ge_two_pow_of_testBit hset).trans_lt hk32)
  obtain ⟨c, mutated, hclimb, hlev, hc⟩ :=
    @climb_rule _ _ hash2 fBranch (k + 1) st.matchlevel st.inner t
      (ClimbInv hash2 l fBranch p k st)
      (fun c _ hlt hP => climbInv_combine hst.inner (by omega) hP (hclear _ hlt)) hclear hset ht
      32 _ _ (by rfl) (by simp) (climbInv_start hst hk)
  have hcount : (st.count + 1) % 2 ^ 32 = k + 1 := by
    rw [hst.count_eq]
    exact Nat.mod_eq_of_lt hk32
  refine ⟨_, ?_, leafInv_of_climbInv hst hc (hlev ▸ hset) (hlev ▸ hclear)⟩
  rw [List.drop_eq_getElem_cons hk, leafLoop]
  simp only [hcount, hclimb]

/-- The leaf loop over the leaves from `k` to `K`, for `K` below `2 ^ 32`. -/
theorem leafLoop_prefix {K : Nat} (hK : K ≤ l.length) (hK32 : K < 2 ^ 32) :
    ∀ d k (st : LeafState α), k + d = K → LeafInv hash2 l fBranch p k st →
      ∃ st', leafLoop hash2 fBranch p (l.drop k) st = leafLoop hash2 fBranch p (l.drop K) st' ∧
        LeafInv hash2 l fBranch p K st'
  | 0, k, st, hd, hst => ⟨st, by rw [← hd, Nat.add_zero], by rwa [← hd, Nat.add_zero]⟩
  | d + 1, k, st, hd, hst => by
    obtain ⟨st', hloop, hst'⟩ := leafLoop_step hst (by omega) (by omega)
    rw [hloop]
    exact leafLoop_prefix hK hK32 d (k + 1) st' (by omega) hst'

/-- **The leaf loop.**  From the state after `k` leaves, reading the rest of `l` gives the
state after all of them. -/
theorem leafLoop_spec (hn : l.length < 2 ^ 32) (d k : Nat) (st : LeafState α)
    (hd : k + d = l.length) (hst : LeafInv hash2 l fBranch p k st) :
    ∃ st', leafLoop hash2 fBranch p (l.drop k) st = some st' ∧
      LeafInv hash2 l fBranch p l.length st' := by
  obtain ⟨st', hloop, hst'⟩ := leafLoop_prefix le_rfl hn d k st hd hst
  exact ⟨st', by rw [hloop, List.drop_length]; rfl, hst'⟩

end Leaf

/-! ### The final sweep -/

theorem lowestLevel_spec {count t : Nat} (hset : count.testBit t = true)
    (hclear : ∀ j < t, count.testBit j = false) (ht : t < 32) :
    ∀ fuel j, j + fuel = 32 → j ≤ t → lowestLevel count fuel j = some t
  | 0, j, hf, hj => by omega
  | fuel + 1, j, hf, hj => by
    rw [lowestLevel]
    rcases Nat.lt_or_eq_of_le hj with hlt | rfl
    · rw [if_neg (by rw [hclear j hlt]; decide)]
      exact lowestLevel_spec hset hclear ht fuel (j + 1) (by omega) hlt
    · rw [if_pos hset]

/-- Rounding up to a multiple of `2 ^ a` stays below rounding up to a multiple of `2 ^ b`. -/
theorem succ_div_mul_le {p a b : Nat} (h : a ≤ b) :
    (p / 2 ^ a + 1) * 2 ^ a ≤ (p / 2 ^ b + 1) * 2 ^ b := by
  obtain ⟨s, rfl⟩ : ∃ s, b = a + s := ⟨b - a, by omega⟩
  rw [pow_add, ← Nat.div_div_eq_div_mul, ← mul_assoc, mul_right_comm]
  refine Nat.mul_le_mul_right _ ?_
  have := Nat.lt_mul_div_succ (p / 2 ^ a) (Nat.two_pow_pos s)
  rw [mul_comm] at this
  omega

theorem xor_one_le (q : Nat) : q ^^^ 1 ≤ 2 * (q / 2) + 1 := by
  obtain ⟨m, hm | hm⟩ := Nat.even_or_odd' q
  · rw [Nat.xor_one_of_even ⟨m, by omega⟩]
    omega
  · rw [Nat.xor_one_of_odd ⟨m, by omega⟩]
    omega

omit [DecidableEq α] in
/-- Inside a complete block, every branch entry is the node beside the path: no entry is the
last node of an odd level. -/
theorem innerBranch_eq_sibling {l : List α} {p b : Nat} (hb : (p / 2 ^ b + 1) * 2 ^ b ≤ l.length) :
    innerBranch hash2 l p b = (List.range b).map (sibling hash2 l p) := by
  refine List.map_congr_left fun j hj => ?_
  rw [List.mem_range] at hj
  have hq := xor_one_le (p / 2 ^ j)
  have hmono := succ_div_mul_le (p := p) (show j + 1 ≤ b by omega)
  rw [← div_two_pow_succ, pow_succ] at hmono
  have hlt : (p / 2 ^ j) ^^^ 1 < width l.length j := by
    rw [lt_width_iff]
    have : (((p / 2 ^ j) ^^^ 1) + 1) * 2 ^ j ≤ (p / 2 ^ j / 2 + 1) * (2 ^ j * 2) := by
      rw [show (p / 2 ^ j / 2 + 1) * (2 ^ j * 2) = (2 * (p / 2 ^ j / 2) + 2) * 2 ^ j by ring]
      exact Nat.mul_le_mul_right _ (by omega)
    rw [Nat.add_mul, one_mul] at this
    have := Nat.two_pow_pos j
    omega
  rw [sibling, min_eq_left (by omega)]

theorem testBit_false_of_dvd {n t : Nat} (h : 2 ^ (t + 1) ∣ n) : n.testBit t = false := by
  obtain ⟨q, rfl⟩ := h
  rw [testBit_false_iff_div, pow_succ, mul_assoc, Nat.mul_div_cancel_left _ (Nat.two_pow_pos t)]
  omega

/-- What holds at each level of the final sweep over the `n` leaves of `l`: `count` is `n`
rounded up to a multiple of `2 ^ level`, `h` is the last node at that height, and leaf `p` is
either below `h` or in a block still stored in `inner`. -/
structure SweepInv (hash2 : α → α → α) (l : List α) (fBranch : Bool) (p t₀ : Nat)
    (st : LeafState α) (count : Nat) (c : Cursor α) : Prop where
  low : t₀ ≤ c.level
  top : c.level ≤ Nat.clog 2 l.length
  count_eq : count = width l.length c.level * 2 ^ c.level
  h_eq : c.h = node hash2 l c.level (width l.length c.level - 1)
  matched : fBranch = true → c.matchh = true →
    p / 2 ^ c.level + 1 = width l.length c.level ∧
      c.branch = (List.range c.level).map (sibling hash2 l p)
  unmatched : fBranch = true → c.matchh = false → ∃ b, c.level ≤ b ∧ t₀ < b ∧
    l.length.testBit b = true ∧ p / 2 ^ b + 1 = l.length / 2 ^ b ∧ st.matchlevel = b ∧
    c.branch = innerBranch hash2 l p b

section Sweep

variable {l : List α} {fBranch : Bool} {p t₀ : Nat} {st : LeafState α}

/-- At and above the lowest set bit `t₀` of `n`: the width at `t₀` is odd and exact, and
above it the last block is short. -/
theorem width_low {n : Nat} (ht₀ : n.testBit t₀ = true) (hlow : ∀ j < t₀, n.testBit j = false) :
    width n t₀ = n / 2 ^ t₀ ∧ n / 2 ^ t₀ % 2 = 1 := by
  have hdvd := two_pow_dvd_of_testBit_false t₀ hlow
  rw [width_eq, if_pos (Nat.mod_eq_zero_of_dvd hdvd)]
  exact ⟨rfl, testBit_iff_div.mp ht₀⟩

theorem width_above {n : Nat} (ht₀ : n.testBit t₀ = true) {j : Nat} (hj : t₀ < j) :
    width n j = n / 2 ^ j + 1 := by
  rw [width_eq, if_neg]
  intro hmod
  have hdvd : 2 ^ (t₀ + 1) ∣ n :=
    (Nat.pow_dvd_pow 2 hj).trans (Nat.dvd_of_mod_eq_zero hmod)
  rw [testBit_false_of_dvd hdvd] at ht₀
  cases ht₀

omit [DecidableEq α] in
/-- An odd level of the sweep: `h`, the last node, is paired with itself, and `count` goes up
by `1 << level` to a multiple of the next power of two. -/
theorem sweepInv_dup (hn : l.length ≤ 2 ^ 31) (ht₀ : l.length.testBit t₀ = true)
    {count : Nat} {c : Cursor α}
    (hinv : SweepInv hash2 l fBranch p t₀ st count c) (hD : c.level < Nat.clog 2 l.length)
    (hodd : width l.length c.level % 2 = 1) :
    SweepInv hash2 l fBranch p t₀ st ((count + 2 ^ c.level) % 2 ^ 32)
      { level := c.level + 1
        h := hash2 c.h c.h
        matchh := c.matchh
        branch := if fBranch && c.matchh then c.branch ++ [c.h] else c.branch } := by
  obtain ⟨hlo, htop, hcount, hh, hmatched, hunmatched⟩ := hinv
  obtain ⟨hcover, hspare⟩ := le_width_mul l.length c.level
  set w := width l.length c.level with hw
  have hsucc : width l.length (c.level + 1) = (w + 1) / 2 := width_succ _ _
  have hj : c.level ≤ 30 := by
    have := Nat.clog_le_of_le_pow (b := 2) hn
    omega
  have hpow : 2 ^ c.level ≤ 2 ^ 30 := Nat.pow_le_pow_right (by norm_num) hj
  refine ⟨by simp only; omega, by simp only; omega, ?_, ?_, ?_, ?_⟩
  · -- `count` stays below `2 ^ 32`
    simp only
    rw [hcount, Nat.mod_eq_of_lt (by omega), hsucc, pow_succ', ← mul_assoc,
      Nat.div_mul_cancel (Nat.dvd_of_mod_eq_zero (by omega)), Nat.add_mul, one_mul]
  · have hle : l.length ≤ (2 * ((w + 1) / 2 - 1) + 1) * 2 ^ c.level := by
      rw [show 2 * ((w + 1) / 2 - 1) + 1 = w by omega]
      exact hcover
    simp only
    rw [hsucc, node_succ_of_le hash2 hle, show 2 * ((w + 1) / 2 - 1) = w - 1 by omega, hh]
  · intro hb hm
    simp only at hm ⊢
    obtain ⟨hdiv, hbr⟩ := hmatched hb hm
    have hp : p / 2 ^ c.level = w - 1 := by omega
    rw [hb, hm, Bool.and_self, if_pos rfl, hbr, hsucc, ← div_two_pow_succ, hp, List.range_succ,
      List.map_append, List.map_singleton, sibling, hp,
      Nat.xor_one_of_even (Nat.even_iff.mpr (by omega)), min_eq_right (by omega), hh]
    exact ⟨by omega, rfl⟩
  · intro hb hm
    simp only at hm ⊢
    obtain ⟨b, hjb, htb, hbit, hdiv, hmb, hbr⟩ := hunmatched hb hm
    refine ⟨b, ?_, htb, hbit, hdiv, hmb, by rw [hm]; simpa using hbr⟩
    -- leaf `p`'s block is not at this level: there the width would be even
    rcases Nat.lt_or_eq_of_le hjb with h | h
    · exact h
    · subst h
      have := width_above ht₀ htb
      have := testBit_iff_div.mp hbit
      omega

/-- An even level of the sweep: `h` is a right child, and its left sibling is the complete
block stored at `inner[level]`. -/
theorem sweepInv_combine (hinner : InnerInv hash2 l l.length st.inner)
    (ht₀ : l.length.testBit t₀ = true) (hlow : ∀ j < t₀, l.length.testBit j = false)
    {count : Nat} {c : Cursor α} (hinv : SweepInv hash2 l fBranch p t₀ st count c)
    (hD : c.level < Nat.clog 2 l.length) (heven : width l.length c.level % 2 = 0) :
    SweepInv hash2 l fBranch p t₀ st count (c.combine hash2 fBranch st.matchlevel st.inner) := by
  obtain ⟨hlo, htop, hcount, hh, hmatched, hunmatched⟩ := hinv
  set w := width l.length c.level with hw
  have hsucc : width l.length (c.level + 1) = w / 2 := by rw [width_succ]; omega
  have hw2 : 2 ≤ w := one_lt_width_iff.mpr (Nat.pow_lt_of_lt_clog hD)
  -- above the lowest set bit, an even width means bit `level` of `n` is set
  have hgt : t₀ < c.level := by
    rcases Nat.lt_or_eq_of_le hlo with h | h
    · exact h
    · obtain ⟨h₁, h₂⟩ := width_low ht₀ hlow
      have hweq : w = l.length / 2 ^ t₀ := by rw [hw, ← h, h₁]
      rw [hweq] at heven
      rw [heven] at h₂
      cases h₂
  have hnw : l.length / 2 ^ c.level = w - 1 := by
    have := width_above ht₀ hgt
    omega
  have hbitn : l.length.testBit c.level = true := testBit_iff_div.mpr (by omega)
  have hleft : st.inner c.level = node hash2 l c.level (w - 2) := by
    rw [hinner c.level hbitn, hnw, Nat.sub_sub]
  have hnode : node hash2 l (c.level + 1) (w / 2 - 1) =
      hash2 (node hash2 l c.level (w - 2)) (node hash2 l c.level (w - 1)) := by
    have hlt : (2 * (w / 2 - 1) + 1) * 2 ^ c.level < l.length := by
      rw [show 2 * (w / 2 - 1) + 1 = w - 1 by omega]
      exact lt_width_iff.mp (by omega)
    rw [node_succ_of_lt hash2 hlt, show 2 * (w / 2 - 1) + 1 = w - 1 by omega,
      show 2 * (w / 2 - 1) = w - 2 by omega]
  refine ⟨by simp; omega, by simp; omega, ?_, ?_, ?_, ?_⟩
  · rw [Cursor.combine_level, hcount, hsucc, pow_succ', ← mul_assoc,
      Nat.div_mul_cancel (Nat.dvd_of_mod_eq_zero heven)]
  · rw [Cursor.combine_h, Cursor.combine_level, hsucc, hnode, hleft, hh]
  · intro hb hm
    simp only [Cursor.combine_matchh, Bool.or_eq_true, Bool.and_eq_true, beq_iff_eq] at hm
    simp only [Cursor.combine_level, Cursor.combine_branch, hb, Bool.true_and]
    rw [hsucc, ← div_two_pow_succ, List.range_succ, List.map_append, List.map_singleton]
    cases hmatch : c.matchh
    · -- `inner[level]` holds leaf `p`: its sibling is `h`
      have hml : st.matchlevel = (c.level : Int) := by simpa [hmatch, hb] using hm
      obtain ⟨b, -, -, -, hdiv, hmb, hbr⟩ := hunmatched hb hmatch
      have hbj : b = c.level := by omega
      rw [hbj] at hdiv hbr
      have hp : p / 2 ^ c.level = w - 2 := by omega
      have hfull : (p / 2 ^ c.level + 1) * 2 ^ c.level ≤ l.length := by
        rw [hdiv]
        exact Nat.div_mul_le_self _ _
      rw [if_neg (by simp), if_pos (by simp [hml]), hbr, innerBranch_eq_sibling hfull, sibling, hp,
        Nat.xor_one_of_even (Nat.even_iff.mpr (by omega)), min_eq_left (by omega), hh,
        show w - 2 + 1 = w - 1 by omega]
      exact ⟨by omega, rfl⟩
    · -- `h` holds leaf `p`: its sibling is `inner[level]`
      obtain ⟨hdiv, hbr⟩ := hmatched hb hmatch
      have hp : p / 2 ^ c.level = w - 1 := by omega
      rw [if_pos rfl, hbr, sibling, hp, Nat.xor_one_of_odd (Nat.odd_iff.mpr (by omega)),
        min_eq_left (by omega), hleft, Nat.sub_sub]
      exact ⟨by omega, rfl⟩
  · intro hb hm
    simp only [Cursor.combine_matchh, Bool.or_eq_false_iff, Bool.and_eq_false_imp,
      beq_eq_false_iff_ne, ne_eq] at hm
    obtain ⟨hmatch, hml⟩ := hm
    obtain ⟨b, hjb, htb, hbit, hdiv, hmb, hbr⟩ := hunmatched hb hmatch
    simp only [Cursor.combine_level, Cursor.combine_branch, hb, hmatch, Bool.true_and,
      Bool.false_eq_true, if_false, beq_iff_eq, if_neg (hml hb)]
    refine ⟨b, ?_, htb, hbit, hdiv, hmb, hbr⟩
    have : (b : Int) ≠ c.level := fun h => hml hb (hmb.trans h)
    omega

/-- **The final sweep.**  From any level of the sweep, it ends at the top of the tree with its
root and, for a branch, the reference branch. -/
theorem sweep_spec (hn : l.length ≤ 2 ^ 31) (hinner : InnerInv hash2 l l.length st.inner)
    (ht₀ : l.length.testBit t₀ = true) (hlow : ∀ j < t₀, l.length.testBit j = false) :
    ∀ fuel count (c : Cursor α), c.level + fuel = 32 →
      SweepInv hash2 l fBranch p t₀ st count c →
      ∃ c', sweep hash2 fBranch st.matchlevel st.inner fuel count c = some c' ∧
        c'.h = node hash2 l (Nat.clog 2 l.length) 0 ∧
        (fBranch = true → c'.branch = (List.range (Nat.clog 2 l.length)).map (sibling hash2 l p))
  | 0, count, c, hf, hinv => by
    have := Nat.clog_le_of_le_pow (b := 2) hn
    have := hinv.top
    omega
  | fuel + 1, count, c, hf, hinv => by
    have hcount := hinv.count_eq
    have hdiv : count / 2 ^ c.level = width l.length c.level := by
      rw [hcount, Nat.mul_div_cancel _ (Nat.two_pow_pos _)]
    rw [sweep]
    rcases Nat.lt_or_eq_of_le hinv.top with hD | hD
    · have hw2 : 2 ≤ width l.length c.level := one_lt_width_iff.mpr (Nat.pow_lt_of_lt_clog hD)
      by_cases hodd : width l.length c.level % 2 = 1
      · -- an odd level: `h` is paired with itself
        have hne : count ≠ 2 ^ c.level := by
          intro h
          rw [h, Nat.div_self (Nat.two_pow_pos _)] at hdiv
          omega
        rw [if_pos (testBit_iff_div.mpr (by rw [hdiv]; exact hodd)), if_neg hne]
        exact sweep_spec hn hinner ht₀ hlow fuel _ _ (by simp only; omega)
          (sweepInv_dup hn ht₀ hinv hD hodd)
      · -- an even level: `inner[level]` is folded in from the left
        rw [if_neg (by rw [testBit_iff_div, hdiv]; exact hodd)]
        exact sweep_spec hn hinner ht₀ hlow fuel _ _ (by simp; omega)
          (sweepInv_combine hinner ht₀ hlow hinv hD (by omega))
    · -- the top: a single node of height `clog n`, and `count` is `1 << level`
      have hle : l.length ≤ 2 ^ c.level := by rw [hD]; exact Nat.le_pow_clog (by norm_num) _
      have hw1 : width l.length c.level = 1 := by
        have h₁ := (one_lt_width_iff (n := l.length) (k := c.level)).not.mpr (by omega)
        have h₂ : 0 < width l.length c.level := by
          have := Nat.ge_two_pow_of_testBit ht₀
          exact lt_width_iff.mpr (by have := Nat.two_pow_pos t₀; omega)
        omega
      rw [if_pos (testBit_iff_div.mpr (by rw [hdiv, hw1])), if_pos (by rw [hcount, hw1, one_mul])]
      refine ⟨c, rfl, by rw [hinv.h_eq, hw1, hD], fun hb => ?_⟩
      cases hm : c.matchh
      · -- leaf `p` cannot still be in a stored block: that block would be all of `l`
        exfalso
        obtain ⟨b, hjb, htb, hbit, -, -, -⟩ := hinv.unmatched hb hm
        have hge := Nat.ge_two_pow_of_testBit hbit
        have hpow : 2 ^ c.level ≤ 2 ^ b := Nat.pow_le_pow_right (by norm_num) hjb
        have hn2 : l.length = 2 ^ b := by omega
        rw [hn2, Nat.testBit_two_pow] at ht₀
        have : b = t₀ := by simpa using ht₀
        omega
      · rw [(hinv.matched hb hm).2, hD]

end Sweep

/-! ### `MerkleComputation` -/

section Computation

variable (hash2)

omit [DecidableEq α] in
theorem leafInv_init (l : List α) (fBranch : Bool) (p : Nat) :
    LeafInv hash2 l fBranch p 0 ⟨0, fun _ => default, -1, false, []⟩ := by
  refine ⟨rfl, fun b hb => by simp at hb, ?_, fun _ => ⟨fun h => absurd h (Nat.not_lt_zero _),
    fun _ => ⟨rfl, rfl⟩⟩⟩
  -- no pair of blocks fits in zero leaves
  simp only [Bool.false_eq_true, false_iff]
  rintro ⟨j, i, hle, -⟩
  have := Nat.two_pow_pos j
  rw [Nat.add_mul] at hle
  omega

/-- **`MerkleComputation` computes the merkle tree.**  For 1 to `2 ^ 31` leaves it returns the
root by levels, sets `mutated` exactly when two complete sibling blocks have equal nodes, and
when asked for the branch of a leaf returns the branch by levels. -/
theorem MerkleComputation_spec {l : List α} (hl : l ≠ []) (hn : l.length ≤ 2 ^ 31) (p : Nat)
    (fBranch : Bool) (hp : fBranch = true → p < l.length) :
    ∃ root mutated branch, MerkleComputation hash2 l p fBranch = some (root, mutated, branch) ∧
      root = rootByLevels hash2 l ∧ (mutated = true ↔ EqualPairBelow hash2 l l.length) ∧
      (fBranch = true → branch = branchByLevels hash2 l p) := by
  have hpos : 0 < l.length := List.length_pos_iff.mpr hl
  -- the leaf loop
  obtain ⟨st, hloop, hst⟩ :=
    leafLoop_spec (by omega) l.length 0 _ (by omega) (leafInv_init hash2 l fBranch p)
  rw [List.drop_zero] at hloop
  -- the lowest set bit of `n`, where the sweep starts
  obtain ⟨t₀, ht₀, hlow⟩ := exists_lowest_bit (m := l.length) (by omega)
  have hpow := Nat.ge_two_pow_of_testBit ht₀
  have ht₀D : t₀ ≤ Nat.clog 2 l.length :=
    (Nat.pow_le_pow_iff_right (by norm_num)).mp
      (hpow.trans (Nat.le_pow_clog (by norm_num) _))
  have ht₀32 : t₀ < 32 := by
    have := Nat.clog_le_of_le_pow (b := 2) hn
    omega
  have hlowest : lowestLevel st.count 32 0 = some t₀ := by
    rw [hst.count_eq]
    exact lowestLevel_spec ht₀ hlow ht₀32 32 0 rfl (Nat.zero_le _)
  obtain ⟨hw₀, hodd₀⟩ := width_low ht₀ hlow
  have hdvd := two_pow_dvd_of_testBit_false t₀ hlow
  have hstart : SweepInv hash2 l fBranch p t₀ st st.count
      ⟨t₀, st.inner t₀, st.matchlevel == (t₀ : Int), st.branch⟩ := by
    refine ⟨le_rfl, ht₀D, ?_, ?_, fun hb hm => ?_, fun hb hm => ?_⟩
    · rw [hst.count_eq, hw₀, Nat.div_mul_cancel hdvd]
    · rw [hst.inner t₀ ht₀, hw₀]
    · -- leaf `p` is in the block stored at `inner[t₀]`
      obtain ⟨b, -, hdiv, hmb, hbr⟩ := (hst.branch hb).1 (hp hb)
      have hbt : b = t₀ := by simpa [hmb] using hm
      rw [hbt] at hdiv hbr
      have hfull : (p / 2 ^ t₀ + 1) * 2 ^ t₀ ≤ l.length := by
        rw [hdiv]
        exact Nat.div_mul_le_self _ _
      exact ⟨by rw [hw₀]; exact hdiv, hbr.trans (innerBranch_eq_sibling hfull)⟩
    · -- leaf `p` is in a block stored above `t₀`
      obtain ⟨b, hbit, hdiv, hmb, hbr⟩ := (hst.branch hb).1 (hp hb)
      have hbt : b ≠ t₀ := fun h => by simp [hmb, h] at hm
      have htb : t₀ ≤ b := by
        by_contra h
        rw [hlow b (by omega)] at hbit
        cases hbit
      exact ⟨b, htb, by omega, hbit, hdiv, hmb, hbr⟩
  obtain ⟨c, hsweep, hroot, hbranch⟩ :=
    sweep_spec hn hst.inner ht₀ hlow (32 - t₀) _ _ (by simp only; omega) hstart
  refine ⟨c.h, st.mutated, c.branch, ?_, by rw [hroot, rootByLevels_eq hash2 hl],
    hst.mutated_iff, fun hb => by rw [hbranch hb, branchByLevels_eq hash2 hl]⟩
  simp [MerkleComputation, hl, hloop, hlowest, hsweep]

/-- `ComputeMerkleRoot` returns the root by levels, for up to `2 ^ 31` leaves. -/
theorem ComputeMerkleRoot_spec {l : List α} (hn : l.length ≤ 2 ^ 31) :
    ∃ mutated, ComputeMerkleRoot hash2 l = some (rootByLevels hash2 l, mutated) ∧
      (mutated = true ↔ EqualPairBelow hash2 l l.length) := by
  rcases eq_or_ne l [] with rfl | hl
  · -- no leaves: `uint256()` and no mutation
    refine ⟨false, by simp [ComputeMerkleRoot, MerkleComputation, rootByLevels], ?_⟩
    simp only [Bool.false_eq_true, false_iff]
    rintro ⟨j, i, hle, -⟩
    have := Nat.two_pow_pos j
    simp only [List.length_nil, Nat.le_zero, mul_eq_zero] at hle
    omega
  · obtain ⟨root, mutated, branch, h, rfl, hmut, -⟩ :=
      MerkleComputation_spec hash2 hl hn (2 ^ 32 - 1) false (by simp)
    exact ⟨mutated, by rw [ComputeMerkleRoot, h]; rfl, hmut⟩

/-- `ComputeMerkleBranch` returns the branch by levels, for up to `2 ^ 31` leaves. -/
theorem ComputeMerkleBranch_spec {l : List α} (hn : l.length ≤ 2 ^ 31) {p : Nat}
    (hp : p < l.length) : ComputeMerkleBranch hash2 l p = some (branchByLevels hash2 l p) := by
  have hl : l ≠ [] := List.ne_nil_of_length_pos (by omega)
  obtain ⟨root, mutated, branch, h, -, -, hbr⟩ :=
    MerkleComputation_spec hash2 hl hn p true (fun _ => hp)
  simp [ComputeMerkleBranch, h, hbr rfl]

omit [DecidableEq α] [Inhabited α] in
/-- `ComputeMerkleRootFromBranch` climbs a branch. -/
theorem ComputeMerkleRootFromBranch_eq (leaf : α) (branch : List α) (nIndex : Nat) :
    ComputeMerkleRootFromBranch hash2 leaf branch nIndex = rootFromBranch hash2 leaf branch nIndex := by
  induction branch generalizing leaf nIndex with
  | nil => rfl
  | cons s branch ih =>
    rw [rootFromBranch, ← ih]
    rfl

/-- **A computed branch proves its leaf.**  Climbing the branch `ComputeMerkleBranch` returns
for leaf `p` gives the root `ComputeMerkleRoot` returns. -/
theorem ComputeMerkleRootFromBranch_branch {l : List α} (hn : l.length ≤ 2 ^ 31) {p : Nat}
    (hp : p < l.length) :
    ∃ branch mutated, ComputeMerkleBranch hash2 l p = some branch ∧
      ComputeMerkleRoot hash2 l = some (ComputeMerkleRootFromBranch hash2 l[p] branch p, mutated) := by
  obtain ⟨mutated, hroot, -⟩ := ComputeMerkleRoot_spec hash2 hn
  refine ⟨_, mutated, ComputeMerkleBranch_spec hash2 hn hp, ?_⟩
  rw [hroot, ComputeMerkleRootFromBranch_eq, rootFromBranch_branchByLevels hash2 hp]

/-! ### Beyond `2 ^ 31` leaves -/

omit [Inhabited α] in
/-- Where `count` is zero no bit is set: a climb runs past level 31. -/
theorem climb_zero (fBranch : Bool) (matchlevel : Int) (inner : Nat → α) :
    ∀ fuel (c : Cursor α) mutated, climb hash2 fBranch 0 matchlevel inner fuel c mutated = none
  | 0, _, _ => rfl
  | fuel + 1, c, mutated => by
    rw [climb, Nat.zero_testBit, if_neg Bool.false_ne_true]
    exact climb_zero fBranch matchlevel inner fuel _ _

omit [DecidableEq α] [Inhabited α] in
/-- Where `count` is zero no bit is set: a sweep runs past level 31. -/
theorem sweep_zero (fBranch : Bool) (matchlevel : Int) (inner : Nat → α) :
    ∀ fuel (c : Cursor α), sweep hash2 fBranch matchlevel inner fuel 0 c = none
  | 0, _ => rfl
  | fuel + 1, c => by
    rw [sweep, Nat.zero_testBit, if_neg Bool.false_ne_true]
    exact sweep_zero fBranch matchlevel inner fuel _

/-- A multiple of `2 ^ j` that has bit `j` clear is a multiple of `2 ^ (j + 1)`; with bit `j`
set, adding `2 ^ j` makes it one. -/
theorem two_pow_succ_dvd {m j : Nat} (hdvd : 2 ^ j ∣ m) :
    2 ^ (j + 1) ∣ if m.testBit j then m + 2 ^ j else m := by
  obtain ⟨q, rfl⟩ := hdvd
  have hbit : (2 ^ j * q).testBit j = decide (q % 2 = 1) := by
    rw [Nat.testBit_eq_decide_div_mod_eq, Nat.mul_div_cancel_left _ (Nat.two_pow_pos j)]
  rw [hbit, pow_succ]
  by_cases hq : q % 2 = 1
  · rw [if_pos (decide_eq_true hq), ← Nat.mul_add_one]
    exact Nat.mul_dvd_mul_left _ (Nat.dvd_of_mod_eq_zero (by omega))
  · rw [if_neg (by simpa using hq)]
    exact Nat.mul_dvd_mul_left _ (Nat.dvd_of_mod_eq_zero (by omega))

/-- A multiple of `2 ^ j` below `2 ^ e` grows by `2 ^ j` to at most `2 ^ e`. -/
theorem add_two_pow_le {m j e : Nat} (hdvd : 2 ^ j ∣ m) (hm : m < 2 ^ e) (hj : j ≤ e) :
    m + 2 ^ j ≤ 2 ^ e := by
  obtain ⟨q, rfl⟩ := hdvd
  have htop : 2 ^ e = 2 ^ j * 2 ^ (e - j) := by rw [← pow_add, Nat.add_sub_cancel' hj]
  rw [htop] at hm ⊢
  have hq : q < 2 ^ (e - j) := Nat.lt_of_mul_lt_mul_left hm
  calc 2 ^ j * q + 2 ^ j = 2 ^ j * (q + 1) := by ring
    _ ≤ 2 ^ j * 2 ^ (e - j) := Nat.mul_le_mul_left _ hq

omit [DecidableEq α] [Inhabited α] in
/-- **A sweep from above `2 ^ 31` overflows.**  While `count` is above `2 ^ 31` it is never
`1 << level`; adding `1 << level` at a set bit carries upwards until `count` leaves the 32 bits
and wraps to zero, and the sweep then runs past level 31. -/
theorem sweep_overflow (fBranch : Bool) (matchlevel : Int) (inner : Nat → α) :
    ∀ fuel count (c : Cursor α), 2 ^ 31 < count → count < 2 ^ 32 → 2 ^ c.level ∣ count →
      sweep hash2 fBranch matchlevel inner fuel count c = none
  | 0, _, _, _, _, _ => rfl
  | fuel + 1, count, c, hlo, hhi, hdvd => by
    have hj : c.level < 32 :=
      (Nat.pow_lt_pow_iff_right (by norm_num)).mp
        ((Nat.le_of_dvd (by omega) hdvd).trans_lt hhi)
    have hnext := two_pow_succ_dvd hdvd
    rw [sweep]
    by_cases hbit : count.testBit c.level = true
    · -- an odd node: `count` is not `1 << level`, and goes up by it
      rw [if_pos hbit] at hnext
      have hne : count ≠ 2 ^ c.level := by
        have : 2 ^ c.level ≤ 2 ^ 31 := Nat.pow_le_pow_right (by norm_num) (by omega)
        omega
      rw [if_pos hbit, if_neg hne]
      rcases (add_two_pow_le hdvd hhi hj.le).lt_or_eq with hlt | hwrap
      · rw [Nat.mod_eq_of_lt hlt]
        exact sweep_overflow fBranch matchlevel inner fuel _ _ (by omega) hlt hnext
      · -- the carry leaves the 32 bits
        rw [hwrap, Nat.mod_self]
        exact sweep_zero hash2 fBranch matchlevel inner fuel _
    · -- a clear bit: `inner[level]` is folded in
      rw [Bool.not_eq_true] at hbit
      rw [if_neg (by simp [hbit])] at hnext
      rw [if_neg (by simp [hbit])]
      exact sweep_overflow fBranch matchlevel inner fuel count _ hlo hhi hnext

/-- With `2 ^ 32` leaves or more, `count` wraps to zero at leaf `2 ^ 32`, and the climb for that
leaf runs past level 31. -/
theorem leafLoop_overflow {l : List α} (hn : 2 ^ 32 ≤ l.length) (branchpos : Nat)
    (fBranch : Bool) :
    leafLoop hash2 fBranch branchpos l ⟨0, fun _ => default, -1, false, []⟩ = none := by
  obtain ⟨st, hloop, hst⟩ := leafLoop_prefix (K := 2 ^ 32 - 1) (by omega) (by omega)
    (2 ^ 32 - 1) 0 _ (by omega) (leafInv_init hash2 l fBranch branchpos)
  rw [List.drop_zero] at hloop
  rw [hloop, List.drop_eq_getElem_cons (by omega), leafLoop, hst.count_eq]
  simp [climb_zero]

/-- Above `2 ^ 31` leaves the computation is undefined: with fewer than `2 ^ 32` the final
sweep overflows, and with more the leaf loop does. -/
theorem MerkleComputation_overflow {l : List α} (hn : 2 ^ 31 < l.length) (branchpos : Nat)
    (fBranch : Bool) : MerkleComputation hash2 l branchpos fBranch = none := by
  have hl : l ≠ [] := List.ne_nil_of_length_pos (by omega)
  rcases lt_or_ge l.length (2 ^ 32) with h32 | h32
  · obtain ⟨st, hloop, hst⟩ :=
      leafLoop_spec h32 l.length 0 _ (by omega) (leafInv_init hash2 l fBranch branchpos)
    rw [List.drop_zero] at hloop
    obtain ⟨t₀, ht₀, hlow⟩ := exists_lowest_bit (m := l.length) (by omega)
    have ht₀32 : t₀ < 32 :=
      (Nat.pow_lt_pow_iff_right (by norm_num)).mp ((Nat.ge_two_pow_of_testBit ht₀).trans_lt h32)
    have hlowest : lowestLevel st.count 32 0 = some t₀ := by
      rw [hst.count_eq]
      exact lowestLevel_spec ht₀ hlow ht₀32 32 0 rfl (Nat.zero_le _)
    have hsweep := sweep_overflow hash2 fBranch st.matchlevel st.inner (32 - t₀) st.count
      ⟨t₀, st.inner t₀, st.matchlevel == (t₀ : Int), st.branch⟩ (hst.count_eq ▸ hn)
      (hst.count_eq ▸ h32) (hst.count_eq ▸ two_pow_dvd_of_testBit_false t₀ hlow)
    simp [MerkleComputation, hl, hloop, hlowest, hsweep]
  · simp [MerkleComputation, hl, leafLoop_overflow hash2 h32]

/-- **Above `2 ^ 31` leaves `ComputeMerkleRoot` and `ComputeMerkleBranch` are undefined.** -/
theorem ComputeMerkleRoot_wraps {l : List α} (hn : 2 ^ 31 < l.length) :
    ComputeMerkleRoot hash2 l = none ∧ ∀ position, ComputeMerkleBranch hash2 l position = none :=
  ⟨by simp [ComputeMerkleRoot, MerkleComputation_overflow hash2 hn],
    fun position => by simp [ComputeMerkleBranch, MerkleComputation_overflow hash2 hn]⟩

theorem ComputeMerkleRoot_wraps_replicate :
    2 ^ 31 < (List.replicate (2 ^ 31 + 1) (0 : Nat)).length ∧
      (ComputeMerkleRoot (fun a b : Nat => a + b) (List.replicate (2 ^ 31 + 1) 0) = none ∧
        ∀ position, ComputeMerkleBranch (fun a b : Nat => a + b)
          (List.replicate (2 ^ 31 + 1) 0) position = none) := by
  have hlen : 2 ^ 31 < (List.replicate (2 ^ 31 + 1) (0 : Nat)).length := by
    rw [List.length_replicate]
    exact Nat.lt_succ_self _
  exact ⟨hlen, ComputeMerkleRoot_wraps (fun a b : Nat => a + b) hlen⟩

/-- What a defined root says: at most `2 ^ 31` leaves, the root by levels, and `mutated`
exactly when two complete sibling blocks have equal nodes. -/
theorem ComputeMerkleRoot_eq_some {l : List α} {root : α} {mutated : Bool}
    (h : ComputeMerkleRoot hash2 l = some (root, mutated)) :
    l.length ≤ 2 ^ 31 ∧ root = rootByLevels hash2 l ∧
      (mutated = true ↔ EqualPairBelow hash2 l l.length) := by
  have hn : l.length ≤ 2 ^ 31 := by
    by_contra hn
    rw [(ComputeMerkleRoot_wraps hash2 (not_le.mp hn)).1] at h
    cases h
  obtain ⟨mutated', hspec, hmut⟩ := ComputeMerkleRoot_spec hash2 hn
  rw [hspec, Option.some.injEq, Prod.mk.injEq] at h
  obtain ⟨rfl, rfl⟩ := h
  exact ⟨hn, rfl, hmut⟩

end Computation

end Merkle

end Unitus
