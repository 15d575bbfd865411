import Unitus.AuxPow.MerkleBranch
import Unitus.Primitives.Serialize

/-!
# AuxPow — the check accepts what a merge-miner builds

A merge-miner puts the block it mines for this chain at the slot `getExpectedIndex(nonce,
chainId, m)` of a chain merkle tree of `2 ^ m` leaves, and writes into its parent coinbase
the merged-mining header, the tree's root with its bytes reversed, the size `2 ^ m` and the
nonce, little-endian (`mergedMiningScript`).  Where the header occurs once and the root does
not occur before it, `checkScript` finds both where they were written and reads back the
size and the nonce (`checkScript_mergedMining`); with the tree's branch and a parent block
committing to the coinbase, `check` passes (`check_complete`).

`getExpectedIndex` always lands in the tree: its value is in `[0, 2 ^ m)`
(`getExpectedIndex_lt`).

The header is what makes the commitment unique: two passing checks of one chain on coinbases
with one `scriptSig` that holds the header commit to one chain merkle root, through branches of
one length and one slot (`check_header_unique`), as a coinbase in two parent blocks shows.
-/

namespace Unitus

/-! ### Little-endian reads -/

/-- Or-ing a value below `2 ^ i` with a multiple of `2 ^ i` adds them. -/
theorem or_shiftLeft_eq_add {a b i : Nat} (ha : a < 2 ^ i) : a ||| b <<< i = a + b * 2 ^ i := by
  rw [Nat.or_comm, ← Nat.shiftLeft_add_eq_or_of_lt ha, Nat.shiftLeft_eq, Nat.add_comm]

/-- `memcpy` and `le32toh` read back what `ser_writedata32` wrote. -/
theorem readLE32_serUInt32 (x : UInt32) (rest : List UInt8) :
    readLE32 (serUInt32 x ++ rest) = x := by
  apply UInt32.toNat_inj.mp
  simp only [readLE32, serUInt32, leBytes, List.cons_append, List.nil_append, List.getD_cons_zero,
    List.getD_cons_succ, UInt32.toNat_or, UInt32.toNat_shiftLeft, UInt8.toNat_toUInt32,
    UInt32.reduceToNat, Nat.reduceMod]
  have hx := x.toNat_lt
  generalize x.toNat = n at hx ⊢
  -- the four bytes, each below 256, or-ed at disjoint bit ranges
  have byte : ∀ m, (UInt8.ofNat (m % 256)).toNat = m % 256 := fun m =>
    UInt8.toNat_ofNat_of_lt' (Nat.mod_lt _ (by norm_num))
  rw [byte, byte, byte, byte]
  have b1 : (n / 256 % 256) <<< 8 < 2 ^ 32 := by rw [Nat.shiftLeft_eq]; omega
  have b2 : (n / 256 / 256 % 256) <<< 16 < 2 ^ 32 := by rw [Nat.shiftLeft_eq]; omega
  have b3 : (n / 256 / 256 / 256 % 256) <<< 24 < 2 ^ 32 := by rw [Nat.shiftLeft_eq]; omega
  rw [Nat.mod_eq_of_lt b1, Nat.mod_eq_of_lt b2, Nat.mod_eq_of_lt b3,
    @or_shiftLeft_eq_add (n % 256) _ 8 (by omega),
    @or_shiftLeft_eq_add (n % 256 + n / 256 % 256 * 2 ^ 8) _ 16 (by omega),
    @or_shiftLeft_eq_add (n % 256 + n / 256 % 256 * 2 ^ 8 + n / 256 / 256 % 256 * 2 ^ 16) _ 24
      (by omega)]
  omega

/-! ### `std::search` at a first occurrence -/

/-- `search` stops at the first occurrence. -/
theorem search_eq_of_first (pat : List UInt8) :
    ∀ (k : Nat) (l : List UInt8), (∀ i < k, pat.isPrefixOf (l.drop i) = false) →
      pat.isPrefixOf (l.drop k) = true → search l pat = k
  | 0, l, _, hk => by
    unfold search
    rw [if_pos (by simpa using hk)]
  | k + 1, l, hnot, hk => by
    have h₀ : pat.isPrefixOf l = false := hnot 0 (by omega)
    cases l with
    | nil => simp at hk; simp [hk] at h₀
    | cons x t =>
      unfold search
      rw [if_neg (by rw [h₀]; exact Bool.false_ne_true)]
      have ih := search_eq_of_first pat k t (fun i hi => by simpa using hnot (i + 1) (by omega))
        (by simpa using hk)
      simp only [ih]

/-- Without an occurrence `search` returns the end. -/
theorem search_eq_length_of_forall (pat : List UInt8) :
    ∀ l : List UInt8, (∀ i, pat.isPrefixOf (l.drop i) = false) → search l pat = l.length
  | [], hnot => by
    unfold search
    split <;> rfl
  | x :: t, hnot => by
    have h₀ : pat.isPrefixOf (x :: t) = false := hnot 0
    unfold search
    rw [if_neg (by rw [h₀]; exact Bool.false_ne_true)]
    simp only [search_eq_length_of_forall pat t (fun i => by simpa using hnot (i + 1)),
      List.length_cons]

/-! ### The slot -/

namespace CAuxPow

/-- **`getExpectedIndex` lands in the tree.**  The slot is in `[0, 2 ^ h)`: for `h < 32`
`1 << h` is `2 ^ h`, and the remainder is below it; past that the 32-bit value itself is
below `2 ^ h`. -/
theorem getExpectedIndex_lt (nNonce : UInt32) (nChainId : Int) (h : Nat) :
    0 ≤ getExpectedIndex nNonce nChainId h ∧ getExpectedIndex nNonce nChainId h < 2 ^ h := by
  unfold getExpectedIndex
  dsimp only
  refine ⟨Int.natCast_nonneg _, ?_⟩
  generalize nNonce * 1103515245 + 12345 + UInt32.ofInt nChainId = r
  have hr := (r * 1103515245 + 12345).toNat_lt
  have hpow : (UInt32.ofNat (2 ^ h)).toNat = 2 ^ h % 2 ^ 32 := UInt32.toNat_ofNat
  have key : ((r * 1103515245 + 12345) % UInt32.ofNat (2 ^ h)).toNat < 2 ^ h := by
    rw [UInt32.toNat_mod, hpow]
    rcases Nat.eq_zero_or_pos (2 ^ h % 2 ^ 32) with h0 | hpos
    · -- `2 ^ h` is a multiple of `2 ^ 32`, so at least `2 ^ 32`
      rw [h0, Nat.mod_zero]
      have : 2 ^ 32 ≤ 2 ^ h := Nat.le_of_dvd (Nat.two_pow_pos h) (Nat.dvd_of_mod_eq_zero h0)
      omega
    · exact lt_of_lt_of_le (Nat.mod_lt _ hpos) (Nat.mod_le _ _)
  exact_mod_cast key

/-! ### The coinbase script of a merge-miner -/

/-- The parent coinbase script a merge-miner writes: anything, the merged-mining header, the
chain merkle root's bytes reversed, the tree size `2 ^ m` and the nonce, little-endian, and
anything. -/
def mergedMiningScript (pre : List UInt8) (root : Uint256) (m : Nat) (nonce : UInt32)
    (post : List UInt8) : CScript :=
  pre ++ pchMergedMiningHeader ++ root.data.reverse ++ serUInt32 (UInt32.ofNat (2 ^ m)) ++
    serUInt32 nonce ++ post

section Script

variable {pre post : List UInt8} {root : Uint256} {m : Nat} {nonce : UInt32}

theorem length_mergedMiningScript :
    (mergedMiningScript pre root m nonce post).length = pre.length + 44 + post.length := by
  simp [mergedMiningScript, serUInt32, root.length_data, pchMergedMiningHeader]
  omega

/-- What follows the prefix, field by field. -/
theorem drop_mergedMiningScript :
    (mergedMiningScript pre root m nonce post).drop pre.length =
      pchMergedMiningHeader ++ root.data.reverse ++ serUInt32 (UInt32.ofNat (2 ^ m)) ++
        serUInt32 nonce ++ post := by
  simp [mergedMiningScript, List.append_assoc]

theorem drop_root_mergedMiningScript :
    (mergedMiningScript pre root m nonce post).drop (pre.length + 4) =
      root.data.reverse ++ serUInt32 (UInt32.ofNat (2 ^ m)) ++ serUInt32 nonce ++ post := by
  rw [← List.drop_drop, drop_mergedMiningScript]
  simp [pchMergedMiningHeader, List.append_assoc]

theorem drop_size_mergedMiningScript :
    (mergedMiningScript pre root m nonce post).drop (pre.length + 4 + 32) =
      serUInt32 (UInt32.ofNat (2 ^ m)) ++ (serUInt32 nonce ++ post) := by
  rw [← List.drop_drop, drop_root_mergedMiningScript]
  simp [root.length_data, List.append_assoc]

theorem drop_nonce_mergedMiningScript :
    (mergedMiningScript pre root m nonce post).drop (pre.length + 4 + 32 + 4) =
      serUInt32 nonce ++ post := by
  rw [← List.drop_drop, drop_size_mergedMiningScript]
  simp [serUInt32]

/-- **The script check accepts a merge-miner's script.**  Where the merged-mining header occurs
once and the reversed root does not occur before the header's end, `checkScript` finds the
header, the root right after it, and reads back the size `2 ^ m` and the nonce, whose slot is
the chain index. -/
theorem checkScript_mergedMining (c : Int)
    (hOnce : ∀ i < (mergedMiningScript pre root m nonce post).length,
      pchMergedMiningHeader <+: (mergedMiningScript pre root m nonce post).drop i → i = pre.length)
    (hFirst : ∀ i < pre.length + 4,
      ¬ root.data.reverse <+: (mergedMiningScript pre root m nonce post).drop i) :
    checkScript (mergedMiningScript pre root m nonce post) root m (getExpectedIndex nonce c m)
      c = .ok () := by
  set S := mergedMiningScript pre root m nonce post with hS
  have hlen : S.length = pre.length + 44 + post.length := length_mergedMiningScript
  -- the header is found at the end of the prefix, and nowhere after it
  have hHead : search S pchMergedMiningHeader = pre.length := by
    refine search_eq_of_first _ _ _ (fun i hi => ?_) ?_
    · rw [Bool.eq_false_iff]
      intro hp
      have := hOnce i (by omega) (List.isPrefixOf_iff_prefix.mp hp)
      omega
    · rw [drop_mergedMiningScript, List.isPrefixOf_iff_prefix, List.append_assoc,
        List.append_assoc, List.append_assoc]
      exact List.prefix_append _ _
  have hNoMore : search (S.drop (pre.length + 1)) pchMergedMiningHeader =
      (S.drop (pre.length + 1)).length := by
    refine search_eq_length_of_forall _ _ fun i => ?_
    rw [Bool.eq_false_iff, List.drop_drop]
    intro hp
    by_cases hi : pre.length + 1 + i < S.length
    · have := hOnce _ hi (List.isPrefixOf_iff_prefix.mp hp)
      omega
    · rw [List.drop_eq_nil_of_le (by omega)] at hp
      simp [pchMergedMiningHeader] at hp
  -- the root is found right after the header
  have hRoot : search S root.data.reverse = pre.length + 4 := by
    refine search_eq_of_first _ _ _ (fun i hi => ?_) ?_
    · rw [Bool.eq_false_iff]
      exact fun hp => hFirst i hi (List.isPrefixOf_iff_prefix.mp hp)
    · rw [drop_root_mergedMiningScript, List.isPrefixOf_iff_prefix, List.append_assoc,
        List.append_assoc]
      exact List.prefix_append _ _
  have hSize : readLE32 (S.drop (pre.length + 4 + 32)) = UInt32.ofNat (2 ^ m) := by
    rw [drop_size_mergedMiningScript, readLE32_serUInt32]
  have hNonce : readLE32 (S.drop (pre.length + 4 + 32 + 4)) = nonce := by
    rw [drop_nonce_mergedMiningScript, readLE32_serUInt32]
  have hrev : root.data.reverse.length = 32 := by simp [root.length_data]
  have hHeadLen : pchMergedMiningHeader.length = 4 := rfl
  unfold checkScript
  simp only [bind, Except.bind, pure, Except.pure, hHead, hRoot, hNoMore, hrev, hSize, hNonce,
    hHeadLen]
  -- every guard of the header path is false
  have hfound : pre.length + 4 ≠ S.length := by omega
  have hhead : pre.length ≠ S.length := by omega
  have hroom : ¬ S.length - (pre.length + 4 + 32) < 8 := by omega
  simp [hfound, hhead, hroom]

end Script

/-! ### `check` -/

/-- **The check accepts a merge-miner's auxpow.**  For an aux block hash `h`, chain ID `c`,
nonce and merkle height `m ≤ 30`: let the chain merkle tree be any `2 ^ m` leaves with `h` at
the slot `getExpectedIndex(nonce, c, m)`, the auxpow's chain branch the one
`ComputeMerkleBranch` gives for that slot and the chain index the slot; let the parent
coinbase's first input carry a `mergedMiningScript` of the tree's root in which the
merged-mining header occurs once and the reversed root does not occur before its end; let the
coinbase be at index 0 of the parent block, whose merkle root its branch proves.  Then `check`
passes, unless the chain IDs are strict and the parent has ours.  And every slot lies in
`[0, 2 ^ h)`. -/
theorem check_complete (hash : List UInt8 → Uint256) (txHash : CTransaction → Uint256)
    (params : AuxpowParams) (h : Uint256) (c : Int) (nonce : UInt32) (m : Nat) (hm : m ≤ 30)
    (leaves : List Uint256) (hleaves : leaves.length = 2 ^ m)
    (hslot : leaves[(getExpectedIndex nonce c m).toNat]? = some h)
    (root : Uint256) (mutated : Bool)
    (hroot : Merkle.ComputeMerkleRoot (nodeHash hash) leaves = some (root, mutated))
    (pre post : List UInt8)
    (hOnce : ∀ i < (mergedMiningScript pre root m nonce post).length,
      pchMergedMiningHeader <+: (mergedMiningScript pre root m nonce post).drop i → i = pre.length)
    (hFirst : ∀ i < pre.length + 4,
      ¬ root.data.reverse <+: (mergedMiningScript pre root m nonce post).drop i)
    (a : CAuxPow) (txin : CTxIn) (rest : List CTxIn) (hvin : a.tx.vin = txin :: rest)
    (hscript : txin.scriptSig = mergedMiningScript pre root m nonce post)
    (hbranch : Merkle.ComputeMerkleBranch (nodeHash hash) leaves
      (getExpectedIndex nonce c m).toNat = some a.vChainMerkleBranch)
    (hidx : a.nChainIndex = getExpectedIndex nonce c m) (hgen : a.nIndex = 0)
    (hparent : a.parentBlock.hashMerkleRoot = CheckMerkleBranch hash (txHash a.tx) a.vMerkleBranch 0)
    (hstrict : params.fStrictChainId = false ∨ a.parentBlock.GetChainId ≠ c) :
    (∀ nNonce nChainId k, 0 ≤ getExpectedIndex nNonce nChainId k ∧
      getExpectedIndex nNonce nChainId k < 2 ^ k) ∧
    check hash txHash a h c params = .ok () := by
  refine ⟨getExpectedIndex_lt, ?_⟩
  obtain ⟨hpos, hlt⟩ := getExpectedIndex_lt nonce c m
  set p := (getExpectedIndex nonce c m).toNat with hp
  have hpInt : ((p : Nat) : Int) = getExpectedIndex nonce c m := Int.toNat_of_nonneg hpos
  have hpl : p < leaves.length := by
    have : ((p : Nat) : Int) < ((2 ^ m : Nat) : Int) := by rw [hpInt]; exact_mod_cast hlt
    rw [hleaves]
    exact_mod_cast this
  have hn : leaves.length ≤ 2 ^ 31 := by
    rw [hleaves]; exact Nat.pow_le_pow_right (by norm_num) (by omega)
  have hleaf : leaves[p] = h := by
    rw [List.getElem?_eq_getElem hpl] at hslot
    exact Option.some.inj hslot
  -- the branch climbs from `h` to the tree's root, and has one node per level
  obtain ⟨branch, mutated', hbr, hrt⟩ := CheckMerkleBranch_branch hash hn hpl
  rw [hbranch, Option.some.injEq] at hbr
  subst hbr
  rw [hroot, Option.some.injEq, Prod.mk.injEq, hleaf, hpInt] at hrt
  have hlen : a.vChainMerkleBranch.length = m := by
    rw [Merkle.ComputeMerkleBranch_spec (nodeHash hash) hn hpl, Option.some.injEq] at hbranch
    rw [← hbranch, MerkleTree.branchByLevels_eq _ (List.ne_nil_of_length_pos (by omega)),
      List.length_map, List.length_range, hleaves, Nat.clog_pow _ _ (by norm_num)]
  -- the guards of `check` before the script
  have hstrict' : ¬(params.fStrictChainId = true ∧ a.parentBlock.GetChainId = c) := by
    rintro ⟨hs, hc⟩
    rcases hstrict with h₁ | h₁
    · rw [h₁] at hs
      exact Bool.false_ne_true hs
    · exact h₁ hc
  have hshort : ¬30 < m := by omega
  unfold check
  simp only [bind, Except.bind, hgen, ne_eq, not_true_eq_false, if_false, hstrict', hshort,
    hparent, hvin, hscript, hidx, hlen, ← hrt.1]
  exact checkScript_mergedMining c hOnce hFirst

/-- A stand-in for double SHA-256 that mixes the two halves of a 64-byte input byte by byte:
`a_i + 2 b_i + 1`.  It keeps apart the pairs the witness below hashes. -/
def mixHash (bs : List UInt8) : Uint256 :=
  ⟨(List.range 32).map fun i => bs.getD i 0 + 2 * bs.getD (i + 32) 0 + 1, by simp⟩

/-- The two leaves of a chain merkle tree of height one. -/
def leafPair : List Uint256 :=
  [⟨List.replicate 32 5, List.length_replicate⟩, ⟨List.replicate 32 7, List.length_replicate⟩]

/-- The parent coinbase of a merge-miner for the tree `leafPair`, nonce `0`. -/
def pairCoinbase : CTransaction :=
  ⟨1, [⟨⟨Uint256.zero, 0xffffffff⟩,
    mergedMiningScript [] (nodeHash mixHash (leafPair.getD 0 default) (leafPair.getD 1 default))
      1 0 [],
    0xffffffff, []⟩], [], 0⟩

/-- The transaction hash of the witness: `mixHash` of the inputs' scripts. -/
def pairTxHash (tx : CTransaction) : Uint256 := mixHash (tx.vin.flatMap CTxIn.scriptSig)

/-- A merge-miner's auxpow for the second leaf of `leafPair`: its coinbase is the first of two
transactions of the parent block, with the other's hash `3 … 3` as its branch, and the chain
branch is the first leaf. -/
def pairAuxPow : CAuxPow where
  tx := pairCoinbase
  hashBlock := Uint256.zero
  vMerkleBranch := [⟨List.replicate 32 3, List.length_replicate⟩]
  nIndex := 0
  vChainMerkleBranch := [leafPair.getD 0 default]
  nChainIndex := 1
  parentBlock := ⟨1, Uint256.zero, CheckMerkleBranch mixHash (pairTxHash pairCoinbase)
    [⟨List.replicate 32 3, List.length_replicate⟩] 0, 0, 0, 0⟩

/-- A chain tree of height one for chain `0x9B` and nonce `0`, whose slot the LCG puts at `1`:
both merkle branches have one node and `mixHash` tells the pairs apart. -/
theorem check_complete_two_leaves :
    (∀ nNonce nChainId k, 0 ≤ getExpectedIndex nNonce nChainId k ∧
      getExpectedIndex nNonce nChainId k < 2 ^ k) ∧
    check mixHash pairTxHash pairAuxPow (leafPair.getD 1 default) 0x9B ⟨false⟩ = .ok () :=
  check_complete mixHash pairTxHash ⟨false⟩ (leafPair.getD 1 default) 0x9B 0 1 (by decide)
    leafPair rfl (by decide)
    (nodeHash mixHash (leafPair.getD 0 default) (leafPair.getD 1 default)) false (by decide)
    [] [] (by decide) (by decide) pairAuxPow _ [] rfl rfl (by decide) (by decide) rfl rfl
    (Or.inl rfl)

/-! ### One chain root per coinbase, with a header -/

/-- **One aux block per coinbase, with a header.**  Two passing checks for one chain whose
parent coinbases share a `scriptSig` with a merged-mining header commit to the same chain
merkle root, through branches of one length and one slot. -/
theorem check_header_unique {hash : List UInt8 → Uint256} {txHash : CTransaction → Uint256}
    {a₁ a₂ : CAuxPow} {h₁ h₂ : Uint256} {c : Int} {params : AuxpowParams}
    {txin₁ txin₂ : CTxIn} {rest₁ rest₂ : List CTxIn}
    (hv₁ : a₁.tx.vin = txin₁ :: rest₁) (hv₂ : a₂.tx.vin = txin₂ :: rest₂)
    (hS : txin₁.scriptSig = txin₂.scriptSig)
    (hHead : search txin₁.scriptSig pchMergedMiningHeader < txin₁.scriptSig.length)
    (H₁ : check hash txHash a₁ h₁ c params = .ok ()) (H₂ : check hash txHash a₂ h₂ c params = .ok ()) :
    CheckMerkleBranch hash h₁ a₁.vChainMerkleBranch a₁.nChainIndex =
      CheckMerkleBranch hash h₂ a₂.vChainMerkleBranch a₂.nChainIndex ∧
    a₁.vChainMerkleBranch.length = a₂.vChainMerkleBranch.length ∧
    a₁.nChainIndex = a₂.nChainIndex := by
  obtain ⟨l₁, t₁, r₁, e₁, S₁⟩ := check_ok H₁
  obtain ⟨l₂, t₂, r₂, e₂, S₂⟩ := check_ok H₂
  rw [hv₁, List.cons.injEq] at e₁
  rw [hv₂, List.cons.injEq] at e₂
  obtain ⟨rfl, -⟩ := e₁
  obtain ⟨rfl, -⟩ := e₂
  rw [← hS] at S₂
  exact checkScript_header_unique S₁ S₂ l₁ l₂ hHead

/-- `pairAuxPow` in another parent block: the coinbase's sibling there is `4 … 4`. -/
def pairAuxPowSibling : CAuxPow :=
  { pairAuxPow with
    vMerkleBranch := [⟨List.replicate 32 4, List.length_replicate⟩]
    parentBlock := ⟨1, Uint256.zero, CheckMerkleBranch mixHash (pairTxHash pairCoinbase)
      [⟨List.replicate 32 4, List.length_replicate⟩] 0, 0, 0, 0⟩ }

theorem check_pairAuxPow :
    check mixHash pairTxHash pairAuxPow (leafPair.getD 1 default) 0x9B ⟨false⟩ = .ok () := by
  decide +kernel

theorem check_pairAuxPowSibling :
    check mixHash pairTxHash pairAuxPowSibling (leafPair.getD 1 default) 0x9B ⟨false⟩ = .ok () := by
  decide +kernel

/-- The one coinbase in two parent blocks: both checks pass and commit to one chain root. -/
theorem check_header_unique_siblings :
    search pairCoinbase.vin[0].scriptSig pchMergedMiningHeader <
      pairCoinbase.vin[0].scriptSig.length ∧
    check mixHash pairTxHash pairAuxPow (leafPair.getD 1 default) 0x9B ⟨false⟩ = .ok () ∧
    check mixHash pairTxHash pairAuxPowSibling (leafPair.getD 1 default) 0x9B ⟨false⟩ = .ok () ∧
    (CheckMerkleBranch mixHash (leafPair.getD 1 default) pairAuxPow.vChainMerkleBranch
        pairAuxPow.nChainIndex =
      CheckMerkleBranch mixHash (leafPair.getD 1 default) pairAuxPowSibling.vChainMerkleBranch
        pairAuxPowSibling.nChainIndex ∧
    pairAuxPow.vChainMerkleBranch.length = pairAuxPowSibling.vChainMerkleBranch.length ∧
    pairAuxPow.nChainIndex = pairAuxPowSibling.nChainIndex) := by
  have hHead : search pairCoinbase.vin[0].scriptSig pchMergedMiningHeader <
      pairCoinbase.vin[0].scriptSig.length := by
    decide +kernel
  exact ⟨hHead, check_pairAuxPow, check_pairAuxPowSibling,
    check_header_unique rfl rfl rfl hHead check_pairAuxPow check_pairAuxPowSibling⟩

end CAuxPow

end Unitus
