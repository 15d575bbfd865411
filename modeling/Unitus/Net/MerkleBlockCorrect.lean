import Unitus.Net.MerkleBlock
import Unitus.Consensus.MerkleCorrect
import Unitus.Primitives.SerializeCorrect
import Unitus.Lib.Bytes
import Unitus.Lib.Lists

/-!
# Net — the partial merkle tree round trip

The builder and the extractor of `CPartialMerkleTree` are two walks over one tree.  `walk` says
what `TraverseAndBuild` appends for a node (`TraverseAndBuild_eq`); `TraverseAndExtract`, read
over a tree whose bits and hashes hold that walk at its counters, returns the node of the merkle
tree over the txids, advances its counters past the walk and collects the matched positions
below the node (`TraverseAndExtract_walk`).  The widths `CalcTreeWidth` computes in 32 bits are
the tree's (`toNat_CalcTreeWidth`), the height loop stops at `⌈log₂ n⌉` (`treeHeight_eq`),
`CalcHash` is the tree's node (`CalcHash_eq_node`), and the flag bytes give the bits back with
the padding of the last byte (`unpackBits_packBits`).

`CPartialMerkleTree_round_trip`: for distinct txids, at most `MAX_BLOCK_BASE_SIZE / 60` of them,
the tree built from them and any match vector reads back from its serialization, and
`ExtractMatches` returns `ComputeMerkleRoot`'s root, the matched txids in order and their
positions, appended to `vnIndex`.  The node hash is a parameter with no collision among the
tree's nodes, which is what collision resistance of double SHA-256 gives: the extractor rejects a
node whose two branches are equal, so distinct subtrees must hash apart.
-/



namespace Unitus

namespace CPartialMerkleTree

open MerkleTree

/-! ### Widths, the height and the node hashes -/

/-- `CalcTreeWidth` is the tree's `width` while `nTransactions + 2 ^ height` has room in 32
bits. -/
theorem toNat_CalcTreeWidth {N : UInt32} {height : Nat} (hh : height < 32)
    (hroom : N.toNat + 2 ^ height < 2 ^ 32) :
    (CalcTreeWidth N height).toNat = width N.toNat height := by
  have hh' : height.toUInt32.toNat = height := by
    rw [Nat.toUInt32, UInt32.toNat_ofNat']; exact Nat.mod_eq_of_lt (by omega)
  have hpow : 2 ^ height < 2 ^ 32 := Nat.pow_lt_pow_right (by omega) hh
  have hshift : ((1 : UInt32) <<< height.toUInt32).toNat = 2 ^ height := by
    rw [UInt32.toNat_shiftLeft, hh', Nat.mod_eq_of_lt hh, UInt32.toNat_one, Nat.one_shiftLeft,
      Nat.mod_eq_of_lt hpow]
  have hadd : (N + ((1 : UInt32) <<< height.toUInt32)).toNat = N.toNat + 2 ^ height := by
    rw [UInt32.toNat_add, hshift, Nat.mod_eq_of_lt hroom]
  have hsub : (N + ((1 : UInt32) <<< height.toUInt32) - 1).toNat = N.toNat + 2 ^ height - 1 := by
    rw [UInt32.toNat_sub_of_le, hadd, UInt32.toNat_one]
    rw [UInt32.le_iff_toNat_le, hadd, UInt32.toNat_one]
    have := Nat.one_le_two_pow (n := height)
    omega
  rw [CalcTreeWidth, UInt32.toNat_shiftRight, hsub, hh', Nat.mod_eq_of_lt hh,
    Nat.shiftRight_eq_div_pow, width]

section Small

/-! Up to `2 ^ 15` transactions, which `ExtractMatches` allows, the tree has at most `15` levels
above the txids and none of its widths wraps. -/

variable {N : UInt32} (hN : N.toNat ≤ 2 ^ 15)
include hN

theorem clog_le_fifteen : Nat.clog 2 N.toNat ≤ 15 :=
  (Nat.clog_le_iff_le_pow one_lt_two).mpr hN

theorem toNat_CalcTreeWidth_of_le_clog {height : Nat} (hh : height ≤ Nat.clog 2 N.toNat) :
    (CalcTreeWidth N height).toNat = width N.toNat height := by
  have h15 := clog_le_fifteen hN
  have hpow : 2 ^ height ≤ 2 ^ 15 := Nat.pow_le_pow_right (by omega) (by omega)
  exact toNat_CalcTreeWidth (by omega) (by omega)

/-- The height loop stops at the first height whose width is at most one: `⌈log₂ n⌉`. -/
theorem treeHeightLoop_eq :
    ∀ fuel height, height ≤ Nat.clog 2 N.toNat → Nat.clog 2 N.toNat < height + fuel →
      treeHeightLoop N fuel height = Nat.clog 2 N.toNat := by
  intro fuel
  induction fuel with
  | zero => intro height h1 h2; omega
  | succ fuel ih =>
    intro height h1 h2
    have hw := toNat_CalcTreeWidth_of_le_clog hN h1
    rw [treeHeightLoop]
    rcases Nat.lt_or_eq_of_le h1 with hlt | heq
    · -- below the root the level has more than one node
      have hmore : 2 ^ height < N.toNat := (Nat.lt_clog_iff_pow_lt one_lt_two).mp hlt
      rw [if_pos (by rw [gt_iff_lt, UInt32.lt_iff_toNat_lt, hw]; exact one_lt_width_iff.mpr hmore)]
      exact ih (height + 1) hlt (by omega)
    · have hle : N.toNat ≤ 2 ^ height := heq ▸ Nat.le_pow_clog one_lt_two _
      rw [if_neg (by
        rw [gt_iff_lt, UInt32.lt_iff_toNat_lt, hw, UInt32.toNat_one, one_lt_width_iff]; omega), heq]

theorem treeHeight_eq : treeHeight N = Nat.clog 2 N.toNat :=
  treeHeightLoop_eq hN 32 0 (Nat.zero_le _) (by have := clog_le_fifteen hN; omega)

end Small

variable (hash2 : Uint256 → Uint256 → Uint256)

/-- At height `0` the node is the txid, `uint256()` past the end. -/
theorem node_zero_eq_CalcHash (N : UInt32) (vTxid : List Uint256) (pos : Nat) :
    node hash2 vTxid 0 pos = CalcHash hash2 N vTxid 0 pos := by
  simp only [node, rootAt, chunk, pow_zero, mul_one, CalcHash, List.getD_eq_getElem?_getD]
  rw [List.headD_eq_head?_getD, List.head?_take, List.head?_drop]
  simp

/-- `CalcHash` is the node of the merkle tree over the txids, at every height of the tree. -/
theorem CalcHash_eq_node {N : UInt32} {vTxid : List Uint256} (hN : N.toNat ≤ 2 ^ 15)
    (hlen : N.toNat = vTxid.length) :
    ∀ height pos, height ≤ Nat.clog 2 N.toNat →
      CalcHash hash2 N vTxid height pos = node hash2 vTxid height pos := by
  intro height
  induction height with
  | zero => intro pos _; exact (node_zero_eq_CalcHash hash2 N vTxid pos).symm
  | succ height ih =>
    intro pos hh
    have hw := toNat_CalcTreeWidth_of_le_clog hN (by omega : height ≤ Nat.clog 2 N.toNat)
    simp only [CalcHash, hw, lt_width_iff, node_succ, ← hlen, ih _ (by omega : height ≤ _),
      Nat.mul_comm pos 2]
    -- the right child is there exactly where its block starts before the last txid
    by_cases hr : (2 * pos + 1) * 2 ^ height < N.toNat
    · rw [if_pos hr, if_neg (by omega)]
    · rw [if_neg hr, if_pos (by omega)]

/-! ### The matched positions below a node -/

variable (vMatch : List Bool)

/-- The matched positions below the node at `height` and `pos`, in increasing order. -/
def matchedBelow (n height pos : Nat) : List Nat :=
  (List.range' (pos * 2 ^ height) (2 ^ height)).filter fun p =>
    decide (p < n) && vMatch.getD p false

/-- The loop of `TraverseAndBuild` finds no match exactly where no matched position is below. -/
theorem parentOfMatch_eq_false_iff {N : UInt32} {height pos : Nat} :
    parentOfMatch N vMatch height pos = false ↔ matchedBelow vMatch N.toNat height pos = [] := by
  rw [parentOfMatch, matchedBelow, List.any_eq_false, List.filter_eq_nil_iff]

/-- At height `0` the loop looks at the one position, if it holds a txid. -/
theorem parentOfMatch_zero (N : UInt32) (pos : Nat) :
    parentOfMatch N vMatch 0 pos = (decide (pos < N.toNat) && vMatch.getD pos false) := by
  simp [parentOfMatch]

theorem matchedBelow_zero (n pos : Nat) :
    matchedBelow vMatch n 0 pos =
      if decide (pos < n) && vMatch.getD pos false then [pos] else [] := by
  simp [matchedBelow, List.filter_cons]

/-- The positions below a node are those below its left child, then those below its right one. -/
theorem matchedBelow_succ (n height pos : Nat) :
    matchedBelow vMatch n (height + 1) pos =
      matchedBelow vMatch n height (pos * 2) ++ matchedBelow vMatch n height (pos * 2 + 1) := by
  rw [matchedBelow, matchedBelow, matchedBelow, ← List.filter_append]
  -- the block of `2 ^ (height + 1)` positions is the left block followed by the right one
  have hright : (pos * 2 + 1) * 2 ^ height = pos * 2 * 2 ^ height + 1 * 2 ^ height := by ring
  rw [hright, List.range'_append]
  congr 1
  ring

/-- A block that starts past the last txid has no matched position. -/
theorem matchedBelow_of_le {n height pos : Nat} (h : n ≤ pos * 2 ^ height) :
    matchedBelow vMatch n height pos = [] := by
  rw [matchedBelow, List.filter_eq_nil_iff]
  intro p hp
  rw [List.mem_range'_1] at hp
  simp only [Bool.and_eq_true, decide_eq_true_eq, not_and]
  omega

/-- Below the root, the matched positions are all the matched txids. -/
theorem matchedBelow_root {n height : Nat} (hn : n ≤ 2 ^ height) :
    matchedBelow vMatch n height 0 = (List.range n).filter (vMatch.getD · false) := by
  have hsplit : List.range' 0 (2 ^ height) = List.range n ++ List.range' n (2 ^ height - n) := by
    have h := @List.range'_append_1 0 n (2 ^ height - n)
    rw [Nat.zero_add, Nat.add_sub_cancel' hn] at h
    rw [← h, List.range_eq_range']
  -- the positions past the last txid match nothing
  have hpast : (List.range' n (2 ^ height - n)).filter
      (fun p => decide (p < n) && vMatch.getD p false) = [] := by
    refine List.filter_eq_nil_iff.mpr fun p hp => ?_
    rw [List.mem_range'_1] at hp
    simp only [Bool.and_eq_true, decide_eq_true_eq, not_and]
    omega
  rw [matchedBelow, Nat.zero_mul, hsplit, List.filter_append, hpast, List.append_nil]
  apply List.filter_congr
  intro p hp
  simp [List.mem_range.mp hp]

/-! ### What the builder writes -/

/-- The flag bits and the hashes that `TraverseAndBuild` appends for the node at `height` and
`pos`. -/
def walk (vTxid : List Uint256) (N : UInt32) : Nat → Nat → List Bool × List Uint256
  | 0, pos => ([parentOfMatch N vMatch 0 pos], [CalcHash hash2 N vTxid 0 pos])
  | height + 1, pos =>
    if parentOfMatch N vMatch (height + 1) pos then
      let left := walk vTxid N height (pos * 2)
      let right :=
        if pos * 2 + 1 < (CalcTreeWidth N height).toNat then walk vTxid N height (pos * 2 + 1)
        else ([], [])
      (true :: (left.1 ++ right.1), left.2 ++ right.2)
    else ([false], [CalcHash hash2 N vTxid (height + 1) pos])

/-- `TraverseAndBuild` appends the node's walk to the bits and the hashes. -/
theorem TraverseAndBuild_eq (vTxid : List Uint256) :
    ∀ height pos (t : CPartialMerkleTree),
      TraverseAndBuild hash2 vTxid vMatch height pos t =
        { t with vBits := t.vBits ++ (walk hash2 vMatch vTxid t.nTransactions height pos).1
                 vHash := t.vHash ++ (walk hash2 vMatch vTxid t.nTransactions height pos).2 } := by
  intro height
  induction height with
  | zero => intro pos t; rfl
  | succ height ih =>
    intro pos t
    simp only [TraverseAndBuild, walk]
    cases parentOfMatch t.nTransactions vMatch (height + 1) pos
    · simp
    · simp only [Bool.not_true, Bool.false_eq_true, if_false, if_true, ih]
      split <;> simp

/-- Each hash of a walk comes with a bit. -/
theorem length_walk_hashes_le_bits (vTxid : List Uint256) (N : UInt32) :
    ∀ height pos, (walk hash2 vMatch vTxid N height pos).2.length ≤
      (walk hash2 vMatch vTxid N height pos).1.length := by
  intro height
  induction height with
  | zero => intro pos; simp [walk]
  | succ height ih =>
    intro pos
    simp only [walk]
    split
    · have h1 := ih (pos * 2)
      split
      · have h2 := ih (pos * 2 + 1)
        simp only [List.length_cons, List.length_append]
        omega
      · simp only [List.length_cons, List.length_append, List.length_nil]
        omega
    · simp

/-- A walk has at most one bit for each node of its subtree. -/
theorem length_walk_bits_lt (vTxid : List Uint256) (N : UInt32) :
    ∀ height pos, (walk hash2 vMatch vTxid N height pos).1.length < 2 ^ (height + 1) := by
  intro height
  induction height with
  | zero => intro pos; simp [walk]
  | succ height ih =>
    intro pos
    have hpow : 2 ^ (height + 1 + 1) = 2 ^ (height + 1) + 2 ^ (height + 1) := by ring
    simp only [walk]
    split
    · have h1 := ih (pos * 2)
      split
      · have h2 := ih (pos * 2 + 1)
        simp only [List.length_cons, List.length_append]
        omega
      · simp only [List.length_cons, List.length_append, List.length_nil]
        omega
    · simp only [List.length_singleton]
      have := Nat.one_le_two_pow (n := height + 1)
      omega

/-- A walk has at most one hash for each txid below its node. -/
theorem length_walk_hashes_le_chunk {N : UInt32} {vTxid : List Uint256} (hN : N.toNat ≤ 2 ^ 15)
    (hlen : N.toNat = vTxid.length) :
    ∀ height pos, height ≤ Nat.clog 2 vTxid.length → pos < width vTxid.length height →
      (walk hash2 vMatch vTxid N height pos).2.length ≤ (chunk height pos vTxid).length := by
  intro height
  induction height with
  | zero =>
    intro pos _ hpos
    rw [width_zero] at hpos
    simp only [walk, List.length_singleton, length_chunk, pow_zero, mul_one]
    omega
  | succ height ih =>
    intro pos hh hpos
    have hblock := lt_width_iff.mp hpos
    have hw : (CalcTreeWidth N height).toNat = width vTxid.length height := by
      rw [toNat_CalcTreeWidth_of_le_clog hN (by rw [hlen]; omega), hlen]
    have hpos2 : pos * 2 < width vTxid.length height := by rw [width_succ] at hpos; omega
    simp only [walk, hw]
    split
    · have h1 := ih (pos * 2) (by omega) hpos2
      rw [chunk_succ, Nat.mul_comm 2 pos]
      split
      · next hright =>
        have h2 := ih (pos * 2 + 1) (by omega) hright
        simp only [List.length_append]
        omega
      · simp only [List.length_append, List.length_nil]
        omega
    · simp only [List.length_singleton, length_chunk]
      have := Nat.one_le_two_pow (n := height + 1)
      omega

/-! ### The flag bytes -/

/-- Unpacking the flag bytes gives the bits back, padded with `false` to whole bytes. -/
theorem unpackBits_packBits (vBits : List Bool) :
    unpackBits (packBits vBits) =
      vBits ++ List.replicate ((vBits.length + 7) / 8 * 8 - vBits.length) false := by
  apply List.ext_getElem
  · simp only [unpackBits, packBits, List.length_map, List.length_range, List.length_append,
      List.length_replicate]
    omega
  · intro p h1 h2
    have hbyte : p / 8 < (packBits vBits).length := by
      simp only [unpackBits, List.length_map, List.length_range] at h1
      omega
    simp only [unpackBits, List.getElem_map, List.getElem_range]
    have hp8 : p % 8 < 8 := Nat.mod_lt _ (by omega)
    have hsplit : p / 8 * 8 + p % 8 = p := by omega
    -- the bit read back is the bit written
    have hread : decide ((packBits vBits)[p / 8] &&& 1 <<< (p % 8).toUInt8 ≠ 0) =
        vBits.getD p false := by
      rw [Bool.eq_iff_iff, decide_eq_true_iff, UInt8.and_shiftLeft_ne_zero_iff _ hp8]
      simp only [packBits, List.getElem_map, List.getElem_range]
      rw [UInt8.testBit_foldl_or_range _ hp8, hsplit]
    rw [List.getD_eq_getElem _ _ hbyte, hread]
    -- the padding reads as `false`
    by_cases hp : p < vBits.length
    · rw [List.getElem_append_left hp, List.getD_eq_getElem _ _ hp]
    · rw [List.getElem_append_right (by omega), List.getElem_replicate,
        List.getD_eq_default _ _ (by omega)]

/-- What `Unserialize` reads from what `Serialize` writes: the same count and hashes, the bits
padded to whole bytes, and `fBad` clear. -/
theorem Unserialize_Serialize (t : CPartialMerkleTree) (rest : List UInt8)
    (hhash : t.vHash.length ≤ MAX_SIZE) (hbits : (packBits t.vBits).length ≤ MAX_SIZE) :
    Unserialize.run (Serialize t ++ rest) =
      .ok ({ nTransactions := t.nTransactions, vBits := unpackBits (packBits t.vBits),
             vHash := t.vHash, fBad := false }, rest) := by
  rw [Serialize, Unserialize, List.append_assoc, List.append_assoc,
    roundTrip_readUInt32.run_bind trivial,
    (roundTrip_readVector roundTrip_readUint256).run_bind ⟨hhash, fun _ _ => trivial⟩,
    roundTrip_readScript.run_bind hbits]
  rfl

/-! ### What the extractor reads back -/

/-- The extraction state once the walk `w` has been read and the matches `found` pushed. -/
def ExtractState.advance (vTxid : List Uint256) (s : ExtractState) (w : List Bool × List Uint256)
    (found : List Nat) : ExtractState :=
  { s with
    nBitsUsed := s.nBitsUsed + w.1.length
    nHashUsed := s.nHashUsed + w.2.length
    vMatch := s.vMatch ++ found.map (vTxid.getD · default)
    vnIndex := s.vnIndex ++ found }

/-- Reading a node's bit and then its left child's walk is reading the node's walk. -/
theorem ExtractState.advance_left (vTxid : List Uint256) (s : ExtractState)
    (w : List Bool × List Uint256) (f : List Nat) :
    { s with nBitsUsed := s.nBitsUsed + 1 }.advance vTxid w f =
      s.advance vTxid (true :: w.1, w.2) f := by
  simp only [ExtractState.advance, List.length_cons, ExtractState.mk.injEq, and_true]
  omega

/-- Reading a node's bit and then its two children's walks is reading the node's walk. -/
theorem ExtractState.advance_descend (vTxid : List Uint256) (s : ExtractState)
    (w₁ w₂ : List Bool × List Uint256) (f₁ f₂ : List Nat) :
    ({ s with nBitsUsed := s.nBitsUsed + 1 }.advance vTxid w₁ f₁).advance vTxid w₂ f₂ =
      s.advance vTxid (true :: (w₁.1 ++ w₂.1), w₁.2 ++ w₂.2) (f₁ ++ f₂) := by
  simp only [ExtractState.advance, List.length_cons, List.length_append, List.map_append,
    List.append_assoc, ExtractState.mk.injEq, and_true]
  omega

section Extract

variable {hash2 vMatch} {vTxid : List Uint256} {T : CPartialMerkleTree}
  (hN : T.nTransactions.toNat = vTxid.length) (hsmall : vTxid.length ≤ 2 ^ 15)
  (hl : vTxid.Nodup) (hcf : CollisionFree hash2 (nodes hash2 vTxid))

include hN hsmall hl hcf in
/-- **The extractor reads back the builder's walk.**  Where the bits and the hashes hold a
node's walk at the counters, `TraverseAndExtract` returns the node, reads past the walk and
pushes the matched txids below the node; with distinct txids and no collision the
equal-branches check never fires. -/
theorem TraverseAndExtract_walk :
    ∀ height pos s, height ≤ Nat.clog 2 vTxid.length → pos < width vTxid.length height →
      (walk hash2 vMatch vTxid T.nTransactions height pos).1 <+: T.vBits.drop s.nBitsUsed →
      (walk hash2 vMatch vTxid T.nTransactions height pos).2 <+: T.vHash.drop s.nHashUsed →
      TraverseAndExtract hash2 T height pos s =
        (node hash2 vTxid height pos,
          s.advance vTxid (walk hash2 vMatch vTxid T.nTransactions height pos)
            (matchedBelow vMatch vTxid.length height pos)) := by
  intro height
  induction height with
  | zero =>
    intro pos s hh hpos hbits hhash
    simp only [walk] at hbits hhash ⊢
    obtain ⟨hb, hbit⟩ := List.getD_of_cons_prefix_drop false hbits
    obtain ⟨hc, hhv⟩ := List.getD_of_cons_prefix_drop default hhash
    rw [TraverseAndExtract, if_neg (by omega)]
    simp only [hbit, hhv, if_neg (show ¬ T.vHash.length ≤ s.nHashUsed by omega)]
    -- a leaf: its hash is the txid, and it is pushed when it is matched
    have hleaf : CalcHash hash2 T.nTransactions vTxid 0 pos = vTxid.getD pos default := rfl
    rw [node_zero_eq_CalcHash hash2 T.nTransactions, hleaf, matchedBelow_zero, parentOfMatch_zero, hN]
    cases decide (pos < vTxid.length) && vMatch.getD pos false <;> simp [ExtractState.advance]
  | succ height ih =>
    intro pos s hh hpos hbits hhash
    have hw : (CalcTreeWidth T.nTransactions height).toNat = width vTxid.length height := by
      rw [toNat_CalcTreeWidth_of_le_clog (by rw [hN]; exact hsmall) (by rw [hN]; omega), hN]
    have hpos2 : pos * 2 < width vTxid.length height := by rw [width_succ] at hpos; omega
    have hcalc := CalcHash_eq_node hash2 (N := T.nTransactions) (by rw [hN]; exact hsmall) hN
    cases hf : parentOfMatch T.nTransactions vMatch (height + 1) pos
    · -- nothing matched below: the node's stored hash
      simp only [walk, hf, Bool.false_eq_true, if_false] at hbits hhash ⊢
      obtain ⟨hb, hbit⟩ := List.getD_of_cons_prefix_drop false hbits
      obtain ⟨hc, hhv⟩ := List.getD_of_cons_prefix_drop default hhash
      rw [TraverseAndExtract, if_neg (by omega)]
      simp only [hbit, hhv, if_neg (show ¬ T.vHash.length ≤ s.nHashUsed by omega)]
      have hnone : matchedBelow vMatch vTxid.length (height + 1) pos = [] :=
        hN ▸ (parentOfMatch_eq_false_iff vMatch).mp hf
      rw [hcalc (height + 1) pos (by rw [hN]; exact hh), hnone]
      simp [ExtractState.advance]
    · -- a match below: the extractor descends as the builder did
      by_cases hright : pos * 2 + 1 < width vTxid.length height
      · simp only [walk, hf, hw, hright, if_true] at hbits hhash ⊢
        obtain ⟨hb, hbit⟩ := List.getD_of_cons_prefix_drop false hbits
        -- the children's walks follow the node's bit, the left one first
        rw [← List.singleton_append] at hbits
        obtain ⟨-, hbits'⟩ := List.prefix_drop_append.mp hbits
        obtain ⟨hb1, hb2⟩ := List.prefix_drop_append.mp hbits'
        obtain ⟨hh1, hh2⟩ := List.prefix_drop_append.mp hhash
        rw [TraverseAndExtract, if_neg (by omega)]
        simp only [hbit, hw, hright, if_true]
        rw [ih (pos * 2) { s with nBitsUsed := s.nBitsUsed + 1 } (by omega) hpos2 hb1 hh1]
        dsimp only
        rw [ih (pos * 2 + 1) _ (by omega) hright hb2 hh2]
        -- distinct positions hold distinct nodes: the equal-branches check does not fire
        have hne : node hash2 vTxid height (pos * 2 + 1) ≠ node hash2 vTxid height (pos * 2) :=
          fun heq => by
            have := node_inj hash2 hl hcf height (by omega) _ _ hright hpos2 heq
            omega
        have hlt : (2 * pos + 1) * 2 ^ height < vTxid.length := by
          rw [← lt_width_iff]; omega
        rw [if_neg hne, node_succ_of_lt hash2 hlt, matchedBelow_succ, ExtractState.advance_descend,
          Nat.mul_comm 2 pos]
      · simp only [walk, hf, hw, hright, if_true, if_false, List.append_nil] at hbits hhash ⊢
        obtain ⟨hb, hbit⟩ := List.getD_of_cons_prefix_drop false hbits
        rw [← List.singleton_append] at hbits
        obtain ⟨-, hb1⟩ := List.prefix_drop_append.mp hbits
        rw [TraverseAndExtract, if_neg (by omega)]
        simp only [hbit, hw, hright, if_false]
        rw [ih (pos * 2) { s with nBitsUsed := s.nBitsUsed + 1 } (by omega) hpos2 hb1 hhash]
        -- no right child: the left one is hashed with itself and nothing is matched on the right
        have hle : vTxid.length ≤ (pos * 2 + 1) * 2 ^ height := by
          rw [← not_lt, ← lt_width_iff]; exact hright
        rw [node_succ_of_le hash2 (by rwa [Nat.mul_comm 2 pos]), matchedBelow_succ,
          matchedBelow_of_le vMatch hle, List.append_nil, ExtractState.advance_left,
          Nat.mul_comm 2 pos]

end Extract

section RoundTrip

variable {hash2 vMatch} {vTxid : List Uint256} (hmax : vTxid.length ≤ MAX_BLOCK_BASE_SIZE / 60)
include hmax

theorem length_le_two_pow_fifteen : vTxid.length ≤ 2 ^ 15 := by
  simp only [MAX_BLOCK_BASE_SIZE] at hmax
  omega

theorem toNat_ofNat_length : (UInt32.ofNat vTxid.length).toNat = vTxid.length := by
  have := length_le_two_pow_fifteen hmax
  rw [UInt32.toNat_ofNat']
  exact Nat.mod_eq_of_lt (by omega)

/-- The tree the constructor builds holds the root's walk. -/
theorem construct_eq :
    construct hash2 vTxid vMatch =
      ⟨UInt32.ofNat vTxid.length,
        (walk hash2 vMatch vTxid (UInt32.ofNat vTxid.length) (Nat.clog 2 vTxid.length) 0).1,
        (walk hash2 vMatch vTxid (UInt32.ofNat vTxid.length) (Nat.clog 2 vTxid.length) 0).2,
        false⟩ := by
  have hN := toNat_ofNat_length hmax
  rw [construct, TraverseAndBuild_eq]
  simp only [treeHeight_eq (by rw [hN]; exact length_le_two_pow_fifteen hmax), hN,
    List.nil_append]

/-- `ExtractMatches` on the tree built from distinct txids, read back from its bytes: every check
passes and it returns the root, the matched txids and their positions. -/
theorem ExtractMatches_walk (hne : vTxid ≠ []) (hl : vTxid.Nodup)
    (hcf : CollisionFree hash2 (nodes hash2 vTxid)) (vnIndex : List Nat) :
    ExtractMatches hash2
      ⟨UInt32.ofNat vTxid.length,
        unpackBits (packBits
          (walk hash2 vMatch vTxid (UInt32.ofNat vTxid.length) (Nat.clog 2 vTxid.length) 0).1),
        (walk hash2 vMatch vTxid (UInt32.ofNat vTxid.length) (Nat.clog 2 vTxid.length) 0).2,
        false⟩ vnIndex =
      (node hash2 vTxid (Nat.clog 2 vTxid.length) 0,
        (matchedBelow vMatch vTxid.length (Nat.clog 2 vTxid.length) 0).map (vTxid.getD · default),
        vnIndex ++ matchedBelow vMatch vTxid.length (Nat.clog 2 vTxid.length) 0) := by
  have hsmall := length_le_two_pow_fifteen hmax
  have hN := toNat_ofNat_length hmax
  have hpos : 0 < vTxid.length := List.length_pos_iff.mpr hne
  have hroot : 0 < width vTxid.length (Nat.clog 2 vTxid.length) :=
    lt_width_iff.mpr (by rw [Nat.zero_mul]; exact hpos)
  set w := walk hash2 vMatch vTxid (UInt32.ofNat vTxid.length) (Nat.clog 2 vTxid.length) 0 with hw
  -- the counts the extractor checks first
  have hhashes : w.2.length ≤ vTxid.length := by
    have h := length_walk_hashes_le_chunk hash2 vMatch (by rw [hN]; exact hsmall) hN _ 0 le_rfl
      hroot
    rwa [chunk_zero_of_le (Nat.le_pow_clog one_lt_two _)] at h
  have hbits : w.2.length ≤ w.1.length := length_walk_hashes_le_bits hash2 vMatch vTxid _ _ 0
  have hunpack := unpackBits_packBits w.1
  have hext := TraverseAndExtract_walk
    (T := ⟨UInt32.ofNat vTxid.length, unpackBits (packBits w.1), w.2, false⟩) hN hsmall hl hcf
    (Nat.clog 2 vTxid.length) 0 ⟨0, 0, [], vnIndex, false⟩ le_rfl hroot
    (by rw [hunpack]; exact List.prefix_append _ _) (List.prefix_refl _)
  rw [ExtractMatches]
  dsimp only
  rw [if_neg (by rw [← UInt32.toNat_inj, hN]; simp; omega), if_neg (by rw [hN]; omega),
    if_neg (by rw [hN]; omega), if_neg (by rw [hunpack, List.length_append]; omega)]
  simp only [treeHeight_eq (by rw [hN]; exact hsmall), hN, hext]
  -- the walk used every hash and every bit but the padding
  have hpad : (w.1.length + ((w.1.length + 7) / 8 * 8 - w.1.length) + 7) / 8 =
      (w.1.length + 7) / 8 := by omega
  simp only [ExtractState.advance, ← hw, Bool.false_eq_true, if_false, Nat.zero_add, hunpack,
    List.length_append, List.length_replicate, hpad, ne_eq, not_true_eq_false, List.nil_append]

end RoundTrip

/-- **The partial merkle tree round trip.**  For a non-empty list of distinct txids, at most
`MAX_BLOCK_BASE_SIZE / 60` of them, any match vector, and a hash with no collision among the
nodes of the txids' merkle tree: the tree built from them reads back from its serialization, and
`ExtractMatches` returns `ComputeMerkleRoot`'s root with the matched txids in increasing order
and their positions appended to `vnIndex`. -/
theorem CPartialMerkleTree_round_trip (hash2 : Uint256 → Uint256 → Uint256)
    (vTxid : List Uint256) (vMatch : List Bool) (vnIndex : List Nat) (rest : List UInt8)
    (hne : vTxid ≠ []) (hl : vTxid.Nodup) (hmax : vTxid.length ≤ MAX_BLOCK_BASE_SIZE / 60)
    (hcf : CollisionFree hash2 (nodes hash2 vTxid)) :
    ∃ t, Unserialize.run (Serialize (construct hash2 vTxid vMatch) ++ rest) = .ok (t, rest) ∧
      ∃ mutated, Merkle.ComputeMerkleRoot hash2 vTxid =
          some ((ExtractMatches hash2 t vnIndex).1, mutated) ∧
        (ExtractMatches hash2 t vnIndex).2.1 =
          ((List.range vTxid.length).filter (vMatch.getD · false)).map (vTxid.getD · default) ∧
        (ExtractMatches hash2 t vnIndex).2.2 =
          vnIndex ++ (List.range vTxid.length).filter (vMatch.getD · false) := by
  have hsmall := length_le_two_pow_fifteen hmax
  have hN := toNat_ofNat_length hmax
  have hclog := clog_le_fifteen (N := UInt32.ofNat vTxid.length) (by rw [hN]; exact hsmall)
  rw [hN] at hclog
  set w := walk hash2 vMatch vTxid (UInt32.ofNat vTxid.length) (Nat.clog 2 vTxid.length) 0 with hw
  -- the serialized tree is within the reader's size limits
  have hhashes : w.2.length ≤ MAX_SIZE := by
    have h := length_walk_hashes_le_chunk hash2 vMatch (by rw [hN]; exact hsmall) hN _ 0 le_rfl
      (lt_width_iff.mpr (by rw [Nat.zero_mul]; exact List.length_pos_iff.mpr hne))
    rw [chunk_zero_of_le (Nat.le_pow_clog one_lt_two _), ← hw] at h
    simp only [MAX_SIZE]
    omega
  have hbytes : (packBits w.1).length ≤ MAX_SIZE := by
    have h := length_walk_bits_lt hash2 vMatch vTxid (UInt32.ofNat vTxid.length)
      (Nat.clog 2 vTxid.length) 0
    have hpow : 2 ^ (Nat.clog 2 vTxid.length + 1) ≤ 2 ^ 16 := Nat.pow_le_pow_right (by omega) (by omega)
    simp only [packBits, List.length_map, List.length_range, MAX_SIZE]
    rw [← hw] at h
    omega
  -- the tree `construct` builds, given whole so that unifying it never unfolds `walk`
  have hread := Unserialize_Serialize ⟨UInt32.ofNat vTxid.length, w.1, w.2, false⟩ rest hhashes hbytes
  refine ⟨_, by rw [construct_eq hmax, hread], ?_⟩
  rw [ExtractMatches_walk hmax hne hl hcf vnIndex,
    matchedBelow_root vMatch (Nat.le_pow_clog one_lt_two _)]
  obtain ⟨mutated, hroot, -⟩ := Merkle.ComputeMerkleRoot_spec hash2 (l := vTxid) (by omega)
  exact ⟨mutated, by rw [hroot, rootByLevels_eq hash2 hne], rfl, rfl⟩

/-! ### A tree over three txids -/

/-- Three distinct txids. -/
def threeTxids : List Uint256 := [Uint256.replicate 1, Uint256.replicate 2, Uint256.replicate 3]

/-- The six nodes of the merkle tree over `threeTxids` under `tripleHash`. -/
def tripleNodes : List Uint256 := [1, 2, 3, 9, 16, 67].map Uint256.replicate

/-- A stand-in for double SHA-256 on the tree over `threeTxids`: `2 a + 3 b + 1` byte by byte on
pairs of `tripleNodes`, where that is injective, and `uint256()` on every other pair, so the
pairs of the tree's nodes have no other preimage. -/
def tripleHash (a b : Uint256) : Uint256 :=
  if a ∈ tripleNodes ∧ b ∈ tripleNodes then
    ⟨List.zipWith (fun x y => 2 * x + 3 * y + 1) a.data b.data,
      by simp [a.length_data, b.length_data]⟩
  else default

/-- The tree over `threeTxids`: the leaves, `9 … 9` over the first two, `16 … 16` over the
third paired with itself, and the root `67 … 67`. -/
theorem nodes_tripleHash : nodes tripleHash threeTxids = tripleNodes := by
  -- `Nat.clog` is well-founded recursion, slow to unfold in the kernel: its value first
  have hlog : Nat.clog 2 threeTxids.length = 2 := by decide +kernel
  rw [nodes, hlog]
  decide +kernel

theorem mem_tripleNodes {a : Uint256} :
    a ∈ tripleNodes ↔ ∃ x ∈ ([1, 2, 3, 9, 16, 67] : List UInt8), a = Uint256.replicate x := by
  simp only [tripleNodes, List.mem_map]
  exact exists_congr fun x => and_congr_right fun _ => eq_comm

theorem toNat_mem_tripleBytes {x : UInt8} (hx : x ∈ ([1, 2, 3, 9, 16, 67] : List UInt8)) :
    x.toNat ∈ [1, 2, 3, 9, 16, 67] := by
  simp only [List.mem_cons, List.not_mem_nil, or_false] at hx
  rcases hx with rfl | rfl | rfl | rfl | rfl | rfl <;> decide

/-- On two nodes of the tree, `tripleHash` mixes the bytes they repeat. -/
theorem tripleHash_replicate {x y : UInt8} (hx : Uint256.replicate x ∈ tripleNodes)
    (hy : Uint256.replicate y ∈ tripleNodes) :
    tripleHash (Uint256.replicate x) (Uint256.replicate y) =
      Uint256.replicate (2 * x + 3 * y + 1) := by
  rw [tripleHash, if_pos ⟨hx, hy⟩]
  simp only [Uint256.replicate, List.zipWith_replicate, min_self]

theorem toNat_mix (x y : UInt8) :
    (2 * x + 3 * y + 1).toNat = (2 * x.toNat + 3 * y.toNat + 1) % 256 := by
  simp only [UInt8.toNat_add, UInt8.toNat_mul, UInt8.reduceToNat]
  omega

/-- `tripleHash` is injective on the pairs of the tree's nodes, and sends none to `uint256()`. -/
theorem tripleHash_facts :
    CollisionFree tripleHash tripleNodes ∧
      ∀ c ∈ tripleNodes, ∀ d ∈ tripleNodes, tripleHash c d ≠ default := by
  -- on the bytes the nodes repeat, `2 x + 3 y + 1` keeps the pairs apart and never wraps to `0`;
  -- checked on their values in `Nat`, which the kernel computes fast
  have hinj : ∀ x ∈ [1, 2, 3, 9, 16, 67], ∀ y ∈ [1, 2, 3, 9, 16, 67], ∀ z ∈ [1, 2, 3, 9, 16, 67],
      ∀ w ∈ [1, 2, 3, 9, 16, 67],
        (2 * x + 3 * y + 1) % 256 = (2 * z + 3 * w + 1) % 256 → x = z ∧ y = w := by
    decide +kernel
  have hne :
      ∀ x ∈ [1, 2, 3, 9, 16, 67], ∀ y ∈ [1, 2, 3, 9, 16, 67], (2 * x + 3 * y + 1) % 256 ≠ 0 := by
    decide +kernel
  refine ⟨?_, ?_⟩
  · intro a ha b hb c hc d hd h
    obtain ⟨x, hx, rfl⟩ := mem_tripleNodes.mp ha
    obtain ⟨y, hy, rfl⟩ := mem_tripleNodes.mp hb
    obtain ⟨z, hz, rfl⟩ := mem_tripleNodes.mp hc
    obtain ⟨w, hw, rfl⟩ := mem_tripleNodes.mp hd
    rw [tripleHash_replicate ha hb, tripleHash_replicate hc hd, Uint256.replicate_inj] at h
    have h' := congrArg UInt8.toNat h
    rw [toNat_mix, toNat_mix] at h'
    obtain ⟨hxz, hyw⟩ := hinj _ (toNat_mem_tripleBytes hx) _ (toNat_mem_tripleBytes hy) _
      (toNat_mem_tripleBytes hz) _ (toNat_mem_tripleBytes hw) h'
    rw [UInt8.toNat_inj] at hxz hyw
    subst hxz hyw
    exact ⟨rfl, rfl⟩
  · intro c hc d hd h
    obtain ⟨x, hx, rfl⟩ := mem_tripleNodes.mp hc
    obtain ⟨y, hy, rfl⟩ := mem_tripleNodes.mp hd
    rw [tripleHash_replicate hc hd, show (default : Uint256) = Uint256.replicate 0 from rfl,
      Uint256.replicate_inj] at h
    have h' := congrArg UInt8.toNat h
    rw [toNat_mix] at h'
    exact hne _ (toNat_mem_tripleBytes hx) _ (toNat_mem_tripleBytes hy) h'

theorem collisionFree_tripleHash : CollisionFree tripleHash (nodes tripleHash threeTxids) := by
  rw [nodes_tripleHash]
  exact tripleHash_facts.1

/-- Three txids, the first and the third matched: the odd level duplicates the third. -/
theorem CPartialMerkleTree_round_trip_three :
    threeTxids ≠ [] ∧ threeTxids.Nodup ∧ threeTxids.length ≤ MAX_BLOCK_BASE_SIZE / 60 ∧
      CollisionFree tripleHash (nodes tripleHash threeTxids) ∧
      ∃ t, Unserialize.run (Serialize (construct tripleHash threeTxids [true, false, true]) ++ []) =
          .ok (t, []) ∧
        ∃ mutated, Merkle.ComputeMerkleRoot tripleHash threeTxids =
            some ((ExtractMatches tripleHash t []).1, mutated) ∧
          (ExtractMatches tripleHash t []).2.1 =
            ((List.range threeTxids.length).filter ([true, false, true].getD · false)).map
              (threeTxids.getD · default) ∧
          (ExtractMatches tripleHash t []).2.2 =
            [] ++ (List.range threeTxids.length).filter ([true, false, true].getD · false) :=
  ⟨by simp [threeTxids], by decide, by decide, collisionFree_tripleHash,
    CPartialMerkleTree_round_trip _ _ _ _ _ (by simp [threeTxids]) (by decide) (by decide)
      collisionFree_tripleHash⟩

end CPartialMerkleTree

end Unitus