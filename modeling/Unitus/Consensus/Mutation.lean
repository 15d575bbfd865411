import Unitus.Consensus.MerkleCorrect
import Unitus.Lib.MerkleMutation
import Mathlib.Data.Nat.Pairing
import Mathlib.NumberTheory.Padics.PadicVal.Basic

/-!
# Consensus — `mutated` and CVE-2012-2459

The comment at the top of `consensus/merkle.cpp` describes CVE-2012-2459: pairing an odd last
node with itself lets a block's transaction list be extended, by repeating its last
`2 ^ ctz(n)` transactions, without changing the merkle root.  `MerkleComputation` defends by
setting `mutated` when two sibling nodes it combines in the leaf loop are equal.

With an injective node hash the defence is complete.  Of two different non-empty transaction
lists of one depth with one root, at least one computation reports `mutated`; and the attack
keeps the root and is reported (`ComputeMerkleRoot_mutated`).  The proof is the library's
(`MerkleTree.equalPairBelow_of_rootByLevels_eq`, `MerkleTree.rootByLevels_append_dup`) through
what a defined root says (`ComputeMerkleRoot_eq_some`).
-/

namespace Unitus

namespace Merkle

open MerkleTree

variable {α : Type} [DecidableEq α] [Inhabited α] (hash2 : α → α → α)

/-- `ctz(n)`, as the exponent of 2 in `n`: `n` is `2 ^ ctz(n)` times an odd number. -/
theorem padicValNat_two_spec {n : Nat} (hn : n ≠ 0) :
    n = n / 2 ^ padicValNat 2 n * 2 ^ padicValNat 2 n ∧ n / 2 ^ padicValNat 2 n % 2 = 1 := by
  have hdvd : 2 ^ padicValNat 2 n ∣ n := pow_padicValNat_dvd
  refine ⟨(Nat.div_mul_cancel hdvd).symm, ?_⟩
  -- an even quotient would put one more factor 2 into `n`
  by_contra hodd
  apply pow_succ_padicValNat_not_dvd (p := 2) hn
  refine ⟨n / 2 ^ padicValNat 2 n / 2, ?_⟩
  calc n = 2 ^ padicValNat 2 n * (n / 2 ^ padicValNat 2 n) := (Nat.mul_div_cancel' hdvd).symm
    _ = 2 ^ (padicValNat 2 n + 1) * (n / 2 ^ padicValNat 2 n / 2) := by
      rw [pow_succ, mul_assoc, Nat.mul_div_cancel' (Nat.dvd_of_mod_eq_zero
        (Nat.mod_two_ne_one.mp hodd))]

/-- Repeating the last `2 ^ t` of at most `2 ^ 31` leaves, `n = w * 2 ^ t` with `w` odd and
above one, stays within `2 ^ 31` leaves: `n` is then not `2 ^ 31`, and the next multiple of
`2 ^ (t + 1)` is at most `2 ^ 31`. -/
theorem length_append_dup_le {n w t : Nat} (hn : n = w * 2 ^ t) (hodd : w % 2 = 1) (hw : 1 < w)
    (h31 : n ≤ 2 ^ 31) : n + 2 ^ t ≤ 2 ^ 31 := by
  have hpos := Nat.two_pow_pos t
  have hlt : 2 ^ t < n := by
    rw [hn]
    calc 2 ^ t = 1 * 2 ^ t := (one_mul _).symm
      _ < w * 2 ^ t := Nat.mul_lt_mul_of_pos_right hw hpos
  have ht : t < 31 := (Nat.pow_lt_pow_iff_right (by norm_num)).mp (hlt.trans_le h31)
  -- `2 ^ 31` is `2 ^ (31 - t)` blocks, an even number, and `w` is odd
  have hne : n ≠ 2 ^ 31 := by
    intro h
    have htop : 2 ^ 31 = 2 ^ (30 - t) * 2 * 2 ^ t := by
      rw [← pow_succ, ← pow_add, show 30 - t + 1 + t = 31 by omega]
    rw [hn, htop] at h
    have := Nat.eq_of_mul_eq_mul_right hpos h
    omega
  exact add_two_pow_le (hn ▸ Dvd.intro_left _ rfl) (by omega) (by omega : t ≤ 31)

/-- **CVE-2012-2459: one root over different transactions reports `mutated`.**  If the node
hash is injective, then of two different non-empty leaf lists of one depth whose computations
return one root, at least one reports `mutated`.  And repeating the last `2 ^ ctz(n)` leaves of
a list with a defined root, where that is fewer than `n`, keeps the root and reports
`mutated`. -/
theorem ComputeMerkleRoot_mutated (hinj : Function.Injective2 hash2) :
    (∀ L₁ L₂ : List α, L₁ ≠ L₂ → L₁ ≠ [] → L₂ ≠ [] →
      Nat.clog 2 L₁.length = Nat.clog 2 L₂.length → ∀ root m₁ m₂,
        ComputeMerkleRoot hash2 L₁ = some (root, m₁) →
          ComputeMerkleRoot hash2 L₂ = some (root, m₂) → m₁ = true ∨ m₂ = true) ∧
    (∀ (L : List α) root m, ComputeMerkleRoot hash2 L = some (root, m) →
      2 ^ padicValNat 2 L.length < L.length →
        ComputeMerkleRoot hash2 (L ++ L.drop (L.length - 2 ^ padicValNat 2 L.length)) =
          some (root, true)) := by
  refine ⟨fun L₁ L₂ hne h₁ h₂ hdepth root m₁ m₂ hr₁ hr₂ => ?_, fun L root m hr hlt => ?_⟩
  · -- both roots are roots by levels, so the library's pair is a reported mutation
    obtain ⟨-, rfl, hm₁⟩ := ComputeMerkleRoot_eq_some hash2 hr₁
    obtain ⟨-, hroot, hm₂⟩ := ComputeMerkleRoot_eq_some hash2 hr₂
    exact (equalPairBelow_of_rootByLevels_eq hash2 hinj hne h₁ h₂ hdepth hroot).imp
      hm₁.mpr hm₂.mpr
  · -- the repeated list has the same root by levels and an equal pair
    obtain ⟨hn31, rfl, -⟩ := ComputeMerkleRoot_eq_some hash2 hr
    obtain ⟨hn, hodd⟩ := padicValNat_two_spec (Nat.ne_zero_of_lt hlt)
    have hw : 1 < L.length / 2 ^ padicValNat 2 L.length := by
      have := Nat.two_pow_pos (padicValNat 2 L.length)
      by_contra hw
      have : L.length / 2 ^ padicValNat 2 L.length * 2 ^ padicValNat 2 L.length ≤
          1 * 2 ^ padicValNat 2 L.length := Nat.mul_le_mul_right _ (by omega)
      omega
    have hlen : (L ++ L.drop (L.length - 2 ^ padicValNat 2 L.length)).length ≤ 2 ^ 31 := by
      have := length_append_dup_le hn hodd hw hn31
      rw [List.length_append, List.length_drop]
      omega
    obtain ⟨mutated, hspec, hmut⟩ := ComputeMerkleRoot_spec hash2 hlen
    rw [hspec, rootByLevels_append_dup hash2 hn hodd hw,
      hmut.mpr (equalPairBelow_append_dup hash2 hn hodd)]

example : (ComputeMerkleRoot Nat.pair [1, 2, 3]).map Prod.snd = some false ∧
    (ComputeMerkleRoot Nat.pair [1, 2, 3, 3]).map Prod.snd = some true ∧
    (ComputeMerkleRoot Nat.pair [1, 2, 3]).map Prod.fst =
      (ComputeMerkleRoot Nat.pair [1, 2, 3, 3]).map Prod.fst := by
  decide

theorem ComputeMerkleRoot_mutated_pair :
    Function.Injective2 Nat.pair ∧
      ((∀ L₁ L₂ : List Nat, L₁ ≠ L₂ → L₁ ≠ [] → L₂ ≠ [] →
        Nat.clog 2 L₁.length = Nat.clog 2 L₂.length → ∀ root m₁ m₂,
          ComputeMerkleRoot Nat.pair L₁ = some (root, m₁) →
            ComputeMerkleRoot Nat.pair L₂ = some (root, m₂) → m₁ = true ∨ m₂ = true) ∧
      (∀ (L : List Nat) root m, ComputeMerkleRoot Nat.pair L = some (root, m) →
        2 ^ padicValNat 2 L.length < L.length →
          ComputeMerkleRoot Nat.pair (L ++ L.drop (L.length - 2 ^ padicValNat 2 L.length)) =
            some (root, true))) := by
  have hinj : Function.Injective2 Nat.pair := fun _ _ _ _ h => Nat.pair_eq_pair.mp h
  exact ⟨hinj, ComputeMerkleRoot_mutated Nat.pair hinj⟩

end Merkle

end Unitus
