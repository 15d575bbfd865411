import Unitus.Net.MerkleBlockCorrect

/-!
# Net — what a partial merkle tree proves

The round trip of `MerkleBlockCorrect` starts from a tree that `construct` built.  A peer's
`merkleblock` is any `CPartialMerkleTree`, and the question a client asks of it is the converse:
when `ExtractMatches` returns the block header's merkle root, are the txids it returns in the
block, at the positions it reports?  The extractor is read here one branch at a time (out of
bits, a stored hash, a descent) and over any tree: its counters stay within the vectors
(`inBounds_TraverseAndExtract`), and a walk that ends at the node of the merkle tree over the
block's txids without `fBad` only matched leaves of that tree (`TraverseAndExtract_sound`).

* `ExtractMatches_sound`: for a hash with no second preimage of a pair of the tree's nodes, if
  `ExtractMatches` returns a root other than `uint256()` that is `ComputeMerkleRoot` of the
  block's txids, then each returned position is a txid's index and each returned hash the txid
  there, in the same order.
-/

namespace Unitus

namespace CPartialMerkleTree

open MerkleTree

variable (hash2 : Uint256 → Uint256 → Uint256) (t : CPartialMerkleTree)

/-! ### The three branches of `TraverseAndExtract` -/

section Branches

variable {height pos : Nat} {s : ExtractState}

/-- Out of bits: `fBad`. -/
theorem TraverseAndExtract_of_length_le (h : t.vBits.length ≤ s.nBitsUsed) :
    TraverseAndExtract hash2 t height pos s = (default, { s with fBad := true }) := by
  rw [TraverseAndExtract, if_pos h]

/-- At height `0`, or with the bit clear: the stored hash, or `fBad` out of hashes; a leaf with
its bit set is a match. -/
theorem TraverseAndExtract_stored (hlt : s.nBitsUsed < t.vBits.length)
    (hstop : height = 0 ∨ t.vBits.getD s.nBitsUsed false = false) :
    TraverseAndExtract hash2 t height pos s =
      if t.vHash.length ≤ s.nHashUsed then
        (default, { s with nBitsUsed := s.nBitsUsed + 1, fBad := true })
      else if height = 0 ∧ t.vBits.getD s.nBitsUsed false = true then
        (t.vHash.getD s.nHashUsed default,
          { s with nBitsUsed := s.nBitsUsed + 1, nHashUsed := s.nHashUsed + 1
                   vMatch := s.vMatch ++ [t.vHash.getD s.nHashUsed default]
                   vnIndex := s.vnIndex ++ [pos] })
      else
        (t.vHash.getD s.nHashUsed default,
          { s with nBitsUsed := s.nBitsUsed + 1, nHashUsed := s.nHashUsed + 1 }) := by
  rw [TraverseAndExtract, if_neg (by omega)]
  rcases hstop with rfl | hbit
  · rfl
  · cases height <;> simp only [hbit]

/-- Above height `0` with the bit set: the two children's hashes, read one after the other, and
`fBad` where they are equal. -/
theorem TraverseAndExtract_descend (hlt : s.nBitsUsed < t.vBits.length)
    (hbit : t.vBits.getD s.nBitsUsed false = true) :
    TraverseAndExtract hash2 t (height + 1) pos s =
      let l := TraverseAndExtract hash2 t height (pos * 2) { s with nBitsUsed := s.nBitsUsed + 1 }
      if pos * 2 + 1 < (CalcTreeWidth t.nTransactions height).toNat then
        let r := TraverseAndExtract hash2 t height (pos * 2 + 1) l.2
        (hash2 l.1 r.1, if r.1 = l.1 then { r.2 with fBad := true } else r.2)
      else (hash2 l.1 l.1, l.2) := by
  rw [TraverseAndExtract, if_neg (by omega)]
  simp only [hbit]

end Branches

/-! ### No read out of range -/

/-- `fBad` once set stays set. -/
theorem fBad_TraverseAndExtract :
    ∀ height pos (s : ExtractState), s.fBad = true →
      (TraverseAndExtract hash2 t height pos s).2.fBad = true := by
  intro height
  induction height with
  | zero =>
    intro pos s hs
    by_cases hlt : s.nBitsUsed < t.vBits.length
    · rw [TraverseAndExtract_stored hash2 t hlt (.inl rfl)]
      split_ifs <;> simp [hs]
    · rw [TraverseAndExtract_of_length_le hash2 t (by omega)]
  | succ height ih =>
    intro pos s hs
    by_cases hlt : s.nBitsUsed < t.vBits.length
    · cases hbit : t.vBits.getD s.nBitsUsed false
      · rw [TraverseAndExtract_stored hash2 t hlt (.inr hbit)]
        split_ifs <;> simp [hs]
      · rw [TraverseAndExtract_descend hash2 t hlt hbit]
        have hl := ih (pos * 2) { s with nBitsUsed := s.nBitsUsed + 1 } hs
        dsimp only
        split_ifs
        · rfl
        · exact ih _ _ hl
        · exact hl
    · rw [TraverseAndExtract_of_length_le hash2 t (by omega)]

/-- The counters stay within the bits and the hashes. -/
def InBounds (s : ExtractState) : Prop :=
  s.nBitsUsed ≤ t.vBits.length ∧ s.nHashUsed ≤ t.vHash.length

/-- **No read out of range.**  Each read is guarded by its check, so the counters never pass the
ends of the bits and the hashes. -/
theorem inBounds_TraverseAndExtract :
    ∀ height pos (s : ExtractState), InBounds t s →
      InBounds t (TraverseAndExtract hash2 t height pos s).2 := by
  intro height
  induction height with
  | zero =>
    intro pos s hs
    by_cases hlt : s.nBitsUsed < t.vBits.length
    · rw [TraverseAndExtract_stored hash2 t hlt (.inl rfl)]
      split_ifs <;> simp only [InBounds] at hs ⊢ <;> omega
    · rw [TraverseAndExtract_of_length_le hash2 t (by omega)]
      exact hs
  | succ height ih =>
    intro pos s hs
    by_cases hlt : s.nBitsUsed < t.vBits.length
    · cases hbit : t.vBits.getD s.nBitsUsed false
      · rw [TraverseAndExtract_stored hash2 t hlt (.inr hbit)]
        split_ifs <;> simp only [InBounds] at hs ⊢ <;> omega
      · rw [TraverseAndExtract_descend hash2 t hlt hbit]
        have hl := ih (pos * 2) { s with nBitsUsed := s.nBitsUsed + 1 }
          (by simp only [InBounds] at hs ⊢; omega)
        dsimp only
        split_ifs
        · exact ih _ _ hl
        · exact ih _ _ hl
        · exact hl
    · rw [TraverseAndExtract_of_length_le hash2 t (by omega)]
      exact hs

/-! ### Only txids of the block are certified -/

/-- Between `s` and `s'` the extraction pushed positions of `L` with the txids at them. -/
def Found (L : List Uint256) (s s' : ExtractState) : Prop :=
  ∃ ps : List Nat, s'.vnIndex = s.vnIndex ++ ps ∧
    s'.vMatch = s.vMatch ++ ps.map (L.getD · default) ∧ ∀ p ∈ ps, p < L.length

theorem Found.of_eq {L : List Uint256} {s s' : ExtractState} (hI : s'.vnIndex = s.vnIndex)
    (hM : s'.vMatch = s.vMatch) : Found L s s' :=
  ⟨[], by rw [hI, List.append_nil], by rw [hM, List.map_nil, List.append_nil], by simp⟩

theorem Found.trans {L : List Uint256} {s₁ s₂ s₃ : ExtractState} (h₁ : Found L s₁ s₂)
    (h₂ : Found L s₂ s₃) : Found L s₁ s₃ := by
  obtain ⟨ps, hI, hM, hlt⟩ := h₁
  obtain ⟨qs, hI', hM', hlt'⟩ := h₂
  refine ⟨ps ++ qs, by rw [hI', hI, List.append_assoc], by
    rw [hM', hM, List.map_append, List.append_assoc], fun p hp => ?_⟩
  rcases List.mem_append.mp hp with hp | hp
  · exact hlt p hp
  · exact hlt' p hp

section Sound

variable {hash2 t} {L : List Uint256} (hN : t.nTransactions.toNat = L.length)
  (hsmall : L.length ≤ 2 ^ 15) (hspf : SecondPreimageFree hash2 (nodes hash2 L))
include hN hsmall hspf

/-- **Soundness of the extraction.**  Where a walk over any bits and hashes returns the node of
the merkle tree over `L` without setting `fBad`, every txid it pushed is the one at its position
in `L`: a pair that hashes like two nodes of the tree is those nodes, down to the leaves. -/
theorem TraverseAndExtract_sound :
    ∀ height pos s, height ≤ Nat.clog 2 L.length → pos < width L.length height →
      (TraverseAndExtract hash2 t height pos s).1 = node hash2 L height pos →
      (TraverseAndExtract hash2 t height pos s).2.fBad = false →
      Found L s (TraverseAndExtract hash2 t height pos s).2 := by
  intro height
  induction height with
  | zero =>
    intro pos s _ hpos hroot hbad
    rw [width_zero] at hpos
    by_cases hlt : s.nBitsUsed < t.vBits.length
    · rw [TraverseAndExtract_stored hash2 t hlt (.inl rfl)] at hroot hbad ⊢
      -- out of hashes `fBad` is set; a leaf with its bit clear pushes nothing
      split_ifs at hroot hbad ⊢ with hh hm
      · -- a matched leaf: its hash is the txid at its position
        rw [node_zero hash2 hpos] at hroot
        refine ⟨[pos], rfl, ?_, by simpa using hpos⟩
        simp only [List.map_cons, List.map_nil, List.getD_eq_getElem _ _ hpos]
        exact congrArg (fun x => s.vMatch ++ [x]) hroot
      · exact Found.of_eq rfl rfl
    · rw [TraverseAndExtract_of_length_le hash2 t (by omega)] at hbad
      simp at hbad
  | succ height ih =>
    intro pos s hh hpos hroot hbad
    have hw : (CalcTreeWidth t.nTransactions height).toNat = width L.length height := by
      rw [toNat_CalcTreeWidth_of_le_clog (by rw [hN]; exact hsmall) (by rw [hN]; omega), hN]
    have hpos2 : pos * 2 < width L.length height := by rw [width_succ] at hpos; omega
    by_cases hlt : s.nBitsUsed < t.vBits.length
    · cases hbit : t.vBits.getD s.nBitsUsed false
      · -- the bit clear: the stored hash, and nothing pushed
        rw [TraverseAndExtract_stored hash2 t hlt (.inr hbit)] at hroot hbad ⊢
        split_ifs at hroot hbad ⊢ with hh hm
        · simp at hm
        · exact Found.of_eq rfl rfl
      · rw [TraverseAndExtract_descend hash2 t hlt hbit] at hroot hbad ⊢
        dsimp only at hroot hbad ⊢
        rw [hw] at hroot hbad ⊢
        have ihl := ih (pos * 2) { s with nBitsUsed := s.nBitsUsed + 1 } (by omega) hpos2
        generalize TraverseAndExtract hash2 t height (pos * 2)
          { s with nBitsUsed := s.nBitsUsed + 1 } = l at ihl hroot hbad ⊢
        obtain ⟨left, sl⟩ := l
        have hstep : Found L s { s with nBitsUsed := s.nBitsUsed + 1 } := Found.of_eq rfl rfl
        by_cases hright : pos * 2 + 1 < width L.length height
        · -- both children: each is the node of the tree at its position
          rw [if_pos hright] at hroot hbad ⊢
          have ihr := ih (pos * 2 + 1) sl (by omega) hright
          have hmono := fBad_TraverseAndExtract hash2 t height (pos * 2 + 1) sl
          generalize TraverseAndExtract hash2 t height (pos * 2 + 1) sl = r at ihr hmono hroot hbad ⊢
          obtain ⟨right, sr⟩ := r
          dsimp only at ihl ihr hmono hroot hbad ⊢
          -- equal branches would have set `fBad`
          by_cases heq : right = left
          · rw [if_pos heq] at hbad
            simp at hbad
          rw [if_neg heq] at hbad ⊢
          have hblock : (2 * pos + 1) * 2 ^ height < L.length := by
            rw [← lt_width_iff]; omega
          rw [node_succ_of_lt hash2 hblock, Nat.mul_comm 2 pos] at hroot
          obtain ⟨hleft, hright'⟩ := hspf _ _ _ (node_mem_nodes hash2 (by omega) hpos2) _
            (node_mem_nodes hash2 (by omega) hright) hroot
          have hsl : sl.fBad = false := by
            cases h : sl.fBad
            · rfl
            · exact absurd (hmono h) (by simp [hbad])
          exact hstep.trans ((ihl hleft hsl).trans (ihr hright' hbad))
        · -- no right child: the left one is hashed with itself
          rw [if_neg hright] at hroot hbad ⊢
          have hblock : L.length ≤ (2 * pos + 1) * 2 ^ height := by
            rw [← not_lt, ← lt_width_iff]; rwa [Nat.mul_comm 2 pos]
          rw [node_succ_of_le hash2 hblock, Nat.mul_comm 2 pos] at hroot
          obtain ⟨hleft, -⟩ := hspf _ _ _ (node_mem_nodes hash2 (by omega) hpos2) _
            (node_mem_nodes hash2 (by omega) hpos2) hroot
          exact hstep.trans (ihl hleft hbad)
    · rw [TraverseAndExtract_of_length_le hash2 t (by omega)] at hbad
      simp at hbad

end Sound

/-- A root other than `uint256()` comes from a whole walk: the count was accepted and the walk
from the root did not set `fBad`; its matches are what `ExtractMatches` returns. -/
theorem ExtractMatches_of_ne_default {vnIndex : List Nat}
    (h : (ExtractMatches hash2 t vnIndex).1 ≠ default) :
    t.nTransactions ≠ 0 ∧ t.nTransactions.toNat ≤ MAX_BLOCK_BASE_SIZE / 60 ∧
      (TraverseAndExtract hash2 t (treeHeight t.nTransactions) 0
        ⟨0, 0, [], vnIndex, t.fBad⟩).2.fBad = false ∧
      ExtractMatches hash2 t vnIndex =
        ((TraverseAndExtract hash2 t (treeHeight t.nTransactions) 0 ⟨0, 0, [], vnIndex, t.fBad⟩).1,
          (TraverseAndExtract hash2 t (treeHeight t.nTransactions) 0
            ⟨0, 0, [], vnIndex, t.fBad⟩).2.vMatch,
          (TraverseAndExtract hash2 t (treeHeight t.nTransactions) 0
            ⟨0, 0, [], vnIndex, t.fBad⟩).2.vnIndex) := by
  unfold ExtractMatches at h ⊢
  -- each early return is `uint256()`
  by_cases h0 : t.nTransactions = 0
  · rw [if_pos h0] at h
    exact absurd rfl h
  by_cases hmax : MAX_BLOCK_BASE_SIZE / 60 < t.nTransactions.toNat
  · rw [if_neg h0, if_pos hmax] at h
    exact absurd rfl h
  by_cases hhash : t.nTransactions.toNat < t.vHash.length
  · rw [if_neg h0, if_neg hmax, if_pos hhash] at h
    exact absurd rfl h
  by_cases hbits : t.vBits.length < t.vHash.length
  · rw [if_neg h0, if_neg hmax, if_neg hhash, if_pos hbits] at h
    exact absurd rfl h
  rw [if_neg h0, if_neg hmax, if_neg hhash, if_neg hbits] at h ⊢
  dsimp only at h ⊢
  generalize TraverseAndExtract hash2 t (treeHeight t.nTransactions) 0
    ⟨0, 0, [], vnIndex, t.fBad⟩ = r at h ⊢
  obtain ⟨root, s⟩ := r
  dsimp only at h ⊢
  -- and so is every return after a failed check of the walk
  split_ifs at h ⊢ with hbad
  all_goals first
    | exact absurd rfl h
    | exact ⟨h0, by omega, by simpa using hbad, rfl⟩

/-- **An accepted partial merkle tree certifies only transactions of the block.**  Whatever
the tree, if `ExtractMatches` returns a root other than `uint256()` that is the merkle root of a
list `L` of `nTransactions` txids, under a hash with no second preimage of a pair of `L`'s tree
nodes, then the positions it appends to `vnIndex` are positions of `L` and the txids it returns
are the ones at them, in the same order; and its walk reads no bit and no hash past the end. -/
theorem ExtractMatches_sound (hash2 : Uint256 → Uint256 → Uint256) (t : CPartialMerkleTree)
    (vnIndex : List Nat) (L : List Uint256) (mutated : Bool)
    (hL : L.length = t.nTransactions.toNat) (hspf : SecondPreimageFree hash2 (nodes hash2 L))
    (hR : (ExtractMatches hash2 t vnIndex).1 ≠ default)
    (hroot : Merkle.ComputeMerkleRoot hash2 L = some ((ExtractMatches hash2 t vnIndex).1, mutated)) :
    (∃ ps : List Nat, (ExtractMatches hash2 t vnIndex).2.2 = vnIndex ++ ps ∧
        (ExtractMatches hash2 t vnIndex).2.1 = ps.map (L.getD · default) ∧
        ∀ p ∈ ps, p < L.length) ∧
      InBounds t (TraverseAndExtract hash2 t (treeHeight t.nTransactions) 0
        ⟨0, 0, [], vnIndex, t.fBad⟩).2 := by
  obtain ⟨h0, hmax, hbad, heq⟩ := ExtractMatches_of_ne_default hash2 t hR
  have hsmall : L.length ≤ 2 ^ 15 := by
    simp only [MAX_BLOCK_BASE_SIZE] at hmax
    omega
  have hne : L ≠ [] := by
    rintro rfl
    exact h0 (UInt32.toNat_inj.mp (by rw [← hL, List.length_nil, UInt32.toNat_zero]))
  have hH : treeHeight t.nTransactions = Nat.clog 2 L.length := by
    rw [treeHeight_eq (by rw [← hL]; exact hsmall), hL]
  -- the root is the top node of `L`'s tree, so the walk from it is sound
  obtain ⟨-, hroot', -⟩ := Merkle.ComputeMerkleRoot_eq_some hash2 hroot
  rw [rootByLevels_eq hash2 hne, heq] at hroot'
  rw [hH] at hroot' hbad heq ⊢
  obtain ⟨ps, hI, hM, hlt⟩ := TraverseAndExtract_sound hL.symm hsmall hspf _ 0 _ le_rfl
    (lt_width_iff.mpr (by rw [Nat.zero_mul]; exact List.length_pos_iff.mpr hne)) hroot' hbad
  refine ⟨⟨ps, by rw [heq, hI], by rw [heq, hM, List.nil_append], hlt⟩, ?_⟩
  exact inBounds_TraverseAndExtract hash2 t _ 0 _ ⟨Nat.zero_le _, Nat.zero_le _⟩

/-- `tripleHash` has no second preimage of a pair of nodes of the tree over `threeTxids`: every
other pair goes to `uint256()`, which is no pair of nodes' hash. -/
theorem secondPreimageFree_tripleHash :
    SecondPreimageFree tripleHash (nodes tripleHash threeTxids) := by
  rw [nodes_tripleHash]
  intro a b c hc d hd h
  by_cases hab : a ∈ tripleNodes ∧ b ∈ tripleNodes
  · exact tripleHash_facts.1 a hab.1 b hab.2 c hc d hd h
  · rw [tripleHash, if_neg hab] at h
    exact absurd h.symm (tripleHash_facts.2 c hc d hd)

/-- The tree an honest peer builds over `threeTxids` with the first and the third matched. -/
def threeTree : CPartialMerkleTree := construct tripleHash threeTxids [true, false, true]

/-- Three txids, the first and the third matched: the tree built for them certifies them at
positions `0` and `2`, through a node of height one and the root. -/
theorem ExtractMatches_sound_three :
    threeTxids.length = threeTree.nTransactions.toNat ∧
      SecondPreimageFree tripleHash (nodes tripleHash threeTxids) ∧
      (ExtractMatches tripleHash threeTree []).1 ≠ default ∧
      Merkle.ComputeMerkleRoot tripleHash threeTxids =
        some ((ExtractMatches tripleHash threeTree []).1, false) ∧
      ((∃ ps : List Nat, (ExtractMatches tripleHash threeTree []).2.2 = [] ++ ps ∧
        (ExtractMatches tripleHash threeTree []).2.1 = ps.map (threeTxids.getD · default) ∧
        ∀ p ∈ ps, p < threeTxids.length) ∧
        InBounds threeTree
          (TraverseAndExtract tripleHash threeTree (treeHeight threeTree.nTransactions) 0
            ⟨0, 0, [], [], threeTree.fBad⟩).2) := by
  have hL : threeTxids.length = threeTree.nTransactions.toNat := by
    decide +kernel
  have hR : (ExtractMatches tripleHash threeTree []).1 ≠ default := by
    decide +kernel
  have hroot : Merkle.ComputeMerkleRoot tripleHash threeTxids =
      some ((ExtractMatches tripleHash threeTree []).1, false) := by
    decide +kernel
  exact ⟨hL, secondPreimageFree_tripleHash, hR, hroot,
    ExtractMatches_sound _ _ _ _ _ hL secondPreimageFree_tripleHash hR hroot⟩

end CPartialMerkleTree

end Unitus
