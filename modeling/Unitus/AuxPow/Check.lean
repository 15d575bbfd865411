import Unitus.Primitives.PureHeader

/-!
# AuxPow — `CAuxPow::check`

A merge-mined block carries a `CAuxPow` (`auxpow.h`): the parent chain's coinbase with its
merkle branch into the parent block, and a branch `vChainMerkleBranch` from the merge-mined
block's hash to a chain merkle root that the coinbase's `scriptSig` must contain.  `check`
(`auxpow.cpp`) returns `.error` with the message the source passes to `error(...)` where it
returns `false`.

The double SHA-256 `Hash` of the source is a parameter, `hash`, from byte strings to
`uint256`; `CheckMerkleBranch` hashes the 64-byte concatenation of two nodes.  The coinbase's
hash `GetHash()` is a parameter `txHash`.
-/

namespace Unitus

/-- `CMerkleTx` and the fields `CAuxPow` adds. -/
structure CAuxPow where
  tx : CTransaction
  hashBlock : Uint256
  vMerkleBranch : List Uint256
  nIndex : Int
  vChainMerkleBranch : List Uint256
  nChainIndex : Int
  parentBlock : CPureBlockHeader

/-- `pchMergedMiningHeader`: `fa be 'm' 'm'`. -/
def pchMergedMiningHeader : List UInt8 := [0xfa, 0xbe, 0x6d, 0x6d]

/-- `std::search(first, last, pattern)`: the position of the first occurrence of `pat` in
`l`, or `l.length` (the end) when there is none. -/
def search (l pat : List UInt8) : Nat :=
  if pat.isPrefixOf l then 0
  else match l with
    | [] => 0
    | _ :: t => search t pat + 1

/-- A little-endian `uint32_t` from four bytes, as `memcpy` then `le32toh` read it. -/
def readLE32 (b : List UInt8) : UInt32 :=
  (b.getD 0 0).toUInt32 ||| ((b.getD 1 0).toUInt32 <<< 8) |||
    ((b.getD 2 0).toUInt32 <<< 16) ||| ((b.getD 3 0).toUInt32 <<< 24)

namespace CAuxPow

variable (hash : List UInt8 → Uint256)

/-- `CAuxPow::CheckMerkleBranch(hash, vMerkleBranch, nIndex)`: fold the branch into `h`,
the sibling on the left when the low bit of the index is set; `uint256()` for index `-1`. -/
def CheckMerkleBranch (h : Uint256) : List Uint256 → Int → Uint256
  | branch, nIndex =>
    if nIndex = -1 then Uint256.zero
    else (branch.foldl (fun (acc : Uint256 × Int) it =>
        (if acc.2 % 2 = 1 then hash (it.data ++ acc.1.data) else hash (acc.1.data ++ it.data),
          acc.2 / 2)) (h, nIndex)).1

/-- `CAuxPow::getExpectedIndex(nNonce, nChainId, h)`: two rounds of the linear congruential
step on 32 bits, reduced modulo `1 << h`. -/
def getExpectedIndex (nNonce : UInt32) (nChainId : Int) (h : Nat) : Int :=
  let rand := nNonce * 1103515245 + 12345
  let rand := rand + UInt32.ofInt nChainId
  let rand := rand * 1103515245 + 12345
  (rand % UInt32.ofNat (2 ^ h)).toNat

end CAuxPow

/-- The consensus parameters `check` reads. -/
structure AuxpowParams where
  fStrictChainId : Bool

namespace CAuxPow

variable (hash : List UInt8 → Uint256) (txHash : CTransaction → Uint256)

/-- The checks on the parent coinbase's `scriptSig` after the chain merkle root `root` is
known: the root's bytes reversed must occur in it, after a single merged-mining header when
there is one and otherwise in the first 20 bytes; the 8 bytes after it give the tree size
`1 << merkleHeight` and the nonce that fixes `nChainIndex`. -/
def checkScript (script : CScript) (root : Uint256) (merkleHeight : Nat) (nChainIndex : Int)
    (nChainId : Int) : Except String Unit := do
  let vchRootHash := root.data.reverse
  let pcHead := search script pchMergedMiningHeader
  let pc := search script vchRootHash
  if pc = script.length then
    throw "Aux POW missing chain merkle root in parent coinbase"
  if pcHead ≠ script.length then
    if search (script.drop (pcHead + 1)) pchMergedMiningHeader ≠ (script.drop (pcHead + 1)).length then
      throw "Multiple merged mining headers in coinbase"
    if pcHead + pchMergedMiningHeader.length ≠ pc then
      throw "Merged mining header is not just before chain merkle root"
  else
    -- the legacy form: the root must start early in the coinbase
    if 20 < pc then
      throw "Aux POW chain merkle root must start in the first 20 bytes of the parent coinbase"
  let pc := pc + vchRootHash.length
  if script.length - pc < 8 then
    throw "Aux POW missing chain merkle tree size and nonce in parent coinbase"
  let nSize := readLE32 (script.drop pc)
  if nSize ≠ UInt32.ofNat (2 ^ merkleHeight) then
    throw "Aux POW merkle branch size does not match parent coinbase"
  let nNonce := readLE32 (script.drop (pc + 4))
  if nChainIndex ≠ getExpectedIndex nNonce nChainId merkleHeight then
    throw "Aux POW wrong index"

/-- `CAuxPow::check(hashAuxBlock, nChainId, params)`.  The source reads `tx->vin[0]`; a
coinbase with no input is rejected here, where the source reads past the end. -/
def check (a : CAuxPow) (hashAuxBlock : Uint256) (nChainId : Int) (params : AuxpowParams) :
    Except String Unit := do
  if a.nIndex ≠ 0 then throw "AuxPow is not a generate"
  if params.fStrictChainId ∧ a.parentBlock.GetChainId = nChainId then
    throw "Aux POW parent has our chain ID"
  if 30 < a.vChainMerkleBranch.length then throw "Aux POW chain merkle branch too long"
  let nRootHash := CheckMerkleBranch hash hashAuxBlock a.vChainMerkleBranch a.nChainIndex
  if CheckMerkleBranch hash (txHash a.tx) a.vMerkleBranch a.nIndex ≠ a.parentBlock.hashMerkleRoot then
    throw "Aux POW merkle root incorrect"
  match a.tx.vin with
  | [] => throw "Aux POW parent coinbase has no input"
  | txin :: _ =>
    checkScript txin.scriptSig nRootHash a.vChainMerkleBranch.length a.nChainIndex nChainId

end CAuxPow

end Unitus

namespace Unitus

/-! ### `std::search` -/

theorem search_le_length (pat : List UInt8) : ∀ l : List UInt8, search l pat ≤ l.length
  | [] => by unfold search; split <;> simp
  | _ :: t => by
      unfold search
      split
      · simp
      · simpa using search_le_length pat t

/-- A position `search` finds is the start of an occurrence. -/
theorem isPrefixOf_drop_search (pat : List UInt8) :
    ∀ l : List UInt8, search l pat < l.length → pat.isPrefixOf (l.drop (search l pat)) = true
  | [], h => by simp at h
  | x :: t, h => by
      unfold search at h ⊢
      by_cases hp : pat.isPrefixOf (x :: t) = true
      · simp [hp]
      · simp only [hp, Bool.false_eq_true, ↓reduceIte, List.length_cons] at h ⊢
        exact isPrefixOf_drop_search pat t (by omega)

/-- Two patterns of one length that `search` finds at one position are equal. -/
theorem eq_of_search_eq {l p q : List UInt8} (hlen : p.length = q.length)
    (hp : search l p < l.length) (hpq : search l p = search l q) : p = q := by
  have hq : search l q < l.length := hpq ▸ hp
  have h₁ := List.isPrefixOf_iff_prefix.mp (isPrefixOf_drop_search p l hp)
  have h₂ := List.isPrefixOf_iff_prefix.mp (isPrefixOf_drop_search q l hq)
  rw [hpq] at h₁
  exact List.prefix_of_prefix_length_le h₁ h₂ hlen.le |>.eq_of_length hlen

end Unitus

namespace Unitus.CAuxPow

/-! ### What a passing check says of the coinbase script -/

/-- **Inversion of `checkScript`.**  A passing check finds the reversed root at `pc`; after
the single merged-mining header when the script has one, in the first 20 bytes otherwise; and
the eight bytes after the root give `1 << merkleHeight` and the nonce that fixes
`nChainIndex`. -/
theorem checkScript_ok {S : CScript} {root : Uint256} {h : Nat} {idx c : Int}
    (H : checkScript S root h idx c = .ok ()) :
    search S root.data.reverse < S.length ∧
    (search S pchMergedMiningHeader < S.length →
      search S pchMergedMiningHeader + 4 = search S root.data.reverse) ∧
    (search S pchMergedMiningHeader = S.length → search S root.data.reverse ≤ 20) ∧
    readLE32 (S.drop (search S root.data.reverse + 32)) = UInt32.ofNat (2 ^ h) ∧
    idx = getExpectedIndex (readLE32 (S.drop (search S root.data.reverse + 32 + 4))) c h := by
  have hlen : root.data.reverse.length = 32 := by simp [root.length_data]
  have hfound := search_le_length root.data.reverse S
  have hhead := search_le_length pchMergedMiningHeader S
  unfold checkScript at H
  simp only [bind, Except.bind, pure, Except.pure, throw, throwThe, MonadExceptOf.throw,
    hlen] at H
  split_ifs at H with h₁ h₂ h₃ h₄ h₅ h₆ h₇ h₈ h₉ h₁₀ h₁₁ <;> try cases H
  · -- the merged-mining header path
    refine ⟨by omega, fun _ => by simpa [pchMergedMiningHeader] using h₄, fun h => absurd h h₂,
      by simpa using h₆, by simpa using h₇⟩
  · -- the legacy path
    refine ⟨by omega, fun h => absurd (by omega) h₂, fun _ => by omega, by simpa using h₁₀,
      by simpa using h₁₁⟩

/-- `1 << h` tells `h` apart for `h ≤ 30`. -/
theorem eq_of_ofNat_two_pow_eq {h₁ h₂ : Nat} (hh₁ : h₁ ≤ 30) (hh₂ : h₂ ≤ 30)
    (h : UInt32.ofNat (2 ^ h₁) = UInt32.ofNat (2 ^ h₂)) : h₁ = h₂ := by
  have b₁ : 2 ^ h₁ < 2 ^ 32 := Nat.pow_lt_pow_right (by norm_num) (by omega)
  have b₂ : 2 ^ h₂ < 2 ^ 32 := Nat.pow_lt_pow_right (by norm_num) (by omega)
  have := congrArg UInt32.toNat h
  rw [UInt32.toNat_ofNat_of_lt' b₁, UInt32.toNat_ofNat_of_lt' b₂] at this
  exact Nat.pow_right_injective (le_refl 2) this

/-- **One root per coinbase, with a header.**  When the coinbase script has a merged-mining
header, two passing checks on it have the same chain merkle root, the same tree height and
the same slot: the root must start right after the one header. -/
theorem checkScript_header_unique {S : CScript} {r₁ r₂ : Uint256} {h₁ h₂ : Nat}
    {i₁ i₂ c : Int} (H₁ : checkScript S r₁ h₁ i₁ c = .ok ())
    (H₂ : checkScript S r₂ h₂ i₂ c = .ok ()) (hh₁ : h₁ ≤ 30) (hh₂ : h₂ ≤ 30)
    (hHead : search S pchMergedMiningHeader < S.length) : r₁ = r₂ ∧ h₁ = h₂ ∧ i₁ = i₂ := by
  obtain ⟨f₁, p₁, -, s₁, n₁⟩ := checkScript_ok H₁
  obtain ⟨f₂, p₂, -, s₂, n₂⟩ := checkScript_ok H₂
  have hpc : search S r₁.data.reverse = search S r₂.data.reverse := (p₁ hHead).symm.trans (p₂ hHead)
  have hrev : r₁.data.reverse = r₂.data.reverse :=
    eq_of_search_eq (by simp [r₁.length_data, r₂.length_data]) f₁ hpc
  have hr : r₁ = r₂ := by
    cases r₁; cases r₂
    simp only [List.reverse_inj] at hrev
    subst hrev; rfl
  have hh : h₁ = h₂ := eq_of_ofNat_two_pow_eq hh₁ hh₂ (by rw [← s₁, ← s₂, hpc])
  subst hr hh
  exact ⟨rfl, rfl, by rw [n₁, n₂, hpc]⟩

end Unitus.CAuxPow

namespace Unitus.CAuxPow

variable {hash : List UInt8 → Uint256} {txHash : CTransaction → Uint256}

/-- **Inversion of `check`.**  A passing check has a chain branch of at most 30 nodes and a
coinbase input whose script passes `checkScript` for the chain merkle root. -/
theorem check_ok {a : CAuxPow} {hashAuxBlock : Uint256} {nChainId : Int} {params : AuxpowParams}
    (H : check hash txHash a hashAuxBlock nChainId params = .ok ()) :
    a.vChainMerkleBranch.length ≤ 30 ∧ ∃ txin rest, a.tx.vin = txin :: rest ∧
      checkScript txin.scriptSig (CheckMerkleBranch hash hashAuxBlock a.vChainMerkleBranch
        a.nChainIndex) a.vChainMerkleBranch.length a.nChainIndex nChainId = .ok () := by
  unfold check at H
  simp only [bind, Except.bind, throw, throwThe, MonadExceptOf.throw] at H
  split_ifs at H with h₁ h₂ h₃ h₄
  split at H
  · cases H
  · exact ⟨by omega, _, _, by assumption, H⟩

end Unitus.CAuxPow

namespace Unitus.CAuxPow

/-! ### Without a header, one coinbase can carry two roots

The legacy form only asks the root to start in the first 20 bytes, and `search` takes each
root's first occurrence.  Two roots whose reversed bytes overlap there, each followed by a
size field `1` (an empty chain branch) and a nonce, both pass.  `legacyScript` is 44 bytes:
32 zero bytes, `01 00 00 00`, `01 00 00 00`, four zero bytes.  Reversed, the root
`legacyRoot₁` is its first 32 bytes and `legacyRoot₂` the 32 bytes from offset 4; neither
occurs earlier.  With empty branches the chain root is the aux block hash itself, so two
different aux block hashes pass for one coinbase, whatever the hash function. -/

/-- The parent coinbase script of the two checks. -/
def legacyScript : CScript :=
  List.replicate 32 0 ++ [1, 0, 0, 0] ++ [1, 0, 0, 0] ++ [0, 0, 0, 0]

/-- The aux block hash whose reversed bytes start the script. -/
def legacyRoot₁ : Uint256 := Uint256.zero

/-- The aux block hash whose reversed bytes start at offset 4. -/
def legacyRoot₂ : Uint256 := ⟨[0, 0, 0, 1] ++ List.replicate 28 0, rfl⟩

/-- A parent coinbase with `legacyScript` as its one input's `scriptSig`. -/
def legacyCoinbase : CTransaction :=
  ⟨1, [⟨⟨Uint256.zero, 0xffffffff⟩, legacyScript, 0xffffffff, []⟩], [], 0⟩

/-- The auxpow with `legacyCoinbase` at index 0 of a one-transaction parent block, and an
empty chain branch at slot 0. -/
def legacyAuxPow (txHash : CTransaction → Uint256) : CAuxPow where
  tx := legacyCoinbase
  hashBlock := Uint256.zero
  vMerkleBranch := []
  nIndex := 0
  vChainMerkleBranch := []
  nChainIndex := 0
  parentBlock := ⟨1, Uint256.zero, txHash legacyCoinbase, 0, 0, 0⟩

/-- **The legacy path admits two aux blocks.**  For every hash function, every coinbase
hash and every parameter set, the one auxpow `legacyAuxPow` passes `check` for Unitus's
chain ID `0x9B` with the two different aux block hashes `legacyRoot₁` and `legacyRoot₂`. -/
theorem check_legacy_two_roots (hash : List UInt8 → Uint256) (txHash : CTransaction → Uint256)
    (params : AuxpowParams) :
    check hash txHash (legacyAuxPow txHash) legacyRoot₁ 0x9B params = .ok () ∧
    check hash txHash (legacyAuxPow txHash) legacyRoot₂ 0x9B params = .ok () ∧
    legacyRoot₁ ≠ legacyRoot₂ := by
  have hChain : ∀ r : Uint256,
      (⟨1, Uint256.zero, r, 0, 0, 0⟩ : CPureBlockHeader).GetChainId = 0 := fun _ => by
    show (1 : Int32).toInt.tdiv VERSION_CHAIN_START = 0
    decide
  have hScript₁ : checkScript legacyScript legacyRoot₁ 0 0 0x9B = .ok () := by decide
  have hScript₂ : checkScript legacyScript legacyRoot₂ 0 0 0x9B = .ok () := by decide
  refine ⟨?_, ?_, by decide⟩
  all_goals
    unfold check
    simp [hChain, legacyAuxPow, CheckMerkleBranch, legacyCoinbase, hScript₁,
      hScript₂]

end Unitus.CAuxPow
