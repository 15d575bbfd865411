import Unitus.Chain.Params

/-!
# Validation — `AcceptBlockHeader` and the sequential-algorithm rule

`AcceptBlockHeader` (`validation.cpp`) adds a header's index to `mapBlockIndex`.  Besides the
checks it shares with Bitcoin, this fork bounds how many blocks in a row one algorithm may
mine: counting from the new header back through its parent, a run of more than
`nMaxSeqCount` blocks of the header's algorithm is rejected.  The bound is
`nBlockSequentialAlgoMaxCountV2` above `nBlockSequentialAlgoRule2Start` and
`nBlockSequentialAlgoMaxCountV1` up to it.  Regtest leaves both at `0`, and there the rule turns
away every new header on a known parent (`AcceptBlockHeader_regtest_rejects`).

`mapBlockIndex` maps a block hash to an `IndexPtr`, a non-null `CBlockIndex*`: the index and its
`pprev` chain.  Nothing rewrites an index's `pprev`, `nHeight` or `nVersion` once it is in the
map, so the chain below an entry is fixed when the entry is made; its `phashBlock` points at
the key it is stored under, in every map the calls reach (`hashesKeyed_of_reachable`).  The
header's hash is the fixed function `GetHash`; what the other checks answer
(`CheckBlockHeader`, the checkpoint check, `ContextualCheckBlockHeader`) and which indexes other
code has marked `BLOCK_FAILED_MASK` come from a `HeaderEnv`, which may differ from one call to
the next.
`CheckBlockIndex`, a consistency check with no effect on the result, is left out.
-/

namespace Unitus

/-- A `CBlockIndex*` held in `mapBlockIndex`, never `NULL`: the index and its `pprev`. -/
structure IndexPtr where
  index : CBlockIndex
  pprev : BlockPtr
  deriving DecidableEq

/-- The pointer as a `BlockPtr`: the index followed by its ancestors. -/
def IndexPtr.ptr (p : IndexPtr) : BlockPtr := p.index :: p.pprev

/-- `mapBlockIndex`. -/
abbrev BlockMap := Uint256 → Option IndexPtr

/-- `CBlockIndex(const CBlockHeader& block)`: the header's fields, `nHeight` 0, with
`phashBlock` pointing at `hash`, as `AddToBlockIndex` sets it once the index is in the map. -/
def CBlockIndex.ofHeader (hash : Uint256) (block : CPureBlockHeader) : CBlockIndex :=
  ⟨hash, 0, block.nVersion, block.nBits, block.nTime⟩

/-- The `new CBlockIndex(block)` of `AddToBlockIndex`, stored under `hash` and linked to the
parent it found in `mapBlockIndex` (if any) with `nHeight = pprev->nHeight + 1`. -/
def IndexPtr.link (hash : Uint256) (block : CPureBlockHeader) : Option IndexPtr → IndexPtr
  | some pprev =>
    ⟨{ CBlockIndex.ofHeader hash block with nHeight := pprev.index.nHeight + 1 }, pprev.ptr⟩
  | none => ⟨CBlockIndex.ofHeader hash block, []⟩

/-- `AddToBlockIndex(block)`: the index already stored under the header's hash, or a new one
inserted there.  The source inserts before it looks the parent up; the two orders differ only
for a header whose `hashPrevBlock` is its own hash, which `AcceptBlockHeader` never adds. -/
def AddToBlockIndex (GetHash : CPureBlockHeader → Uint256) (block : CPureBlockHeader)
    (m : BlockMap) : IndexPtr × BlockMap :=
  let hash := GetHash block
  match m hash with
  | some pindex => (pindex, m)
  | none =>
    let pindexNew := IndexPtr.link hash block (m block.hashPrevBlock)
    (pindexNew, Function.update m hash (some pindexNew))

/-- What `AcceptBlockHeader` reads besides `mapBlockIndex` and the header. -/
structure HeaderEnv where
  /-- `nStatus & BLOCK_FAILED_MASK` of the index stored under a hash. -/
  failed : Uint256 → Bool
  /-- `CheckBlockHeader(block, state, consensusParams)`. -/
  CheckBlockHeader : CPureBlockHeader → Bool
  /-- `!fCheckpointsEnabled || CheckIndexAgainstCheckpoint(pindexPrev, state, chainparams, hash)`. -/
  checkpointOk : BlockPtr → Uint256 → Bool
  /-- `ContextualCheckBlockHeader(block, state, consensusParams, pindexPrev, GetAdjustedTime())`. -/
  ContextualCheckBlockHeader : CPureBlockHeader → BlockPtr → Bool

/-- Why `AcceptBlockHeader` returns `false`. -/
inductive HeaderReject
  /-- `"%s: block %s is marked invalid"`, reject reason `"duplicate"`. -/
  | duplicate
  /-- `"%s: Consensus::CheckBlockHeader: %s, %s"`. -/
  | checkBlockHeader
  /-- `"%s: prev block not found"`, DoS 10, `"bad-prevblk"`. -/
  | prevNotFound
  /-- `"%s: prev block invalid"`, DoS 100, `"bad-prevblk"`. -/
  | prevInvalid
  /-- `"%s: too many blocks from same algorithm (limit=%d)"`. -/
  | tooManySeqAlgo (limit : Int)
  /-- `"%s: CheckIndexAgainstCheckpoint(): %s"`. -/
  | checkpoint
  /-- `"%s: Consensus::ContextualCheckBlockHeader: %s, %s"`. -/
  | contextual
  deriving DecidableEq, Repr

/-- `nMaxSeqCount` for a block at height `nHeight`. -/
def Params.nMaxSeqCount (params : Params) (nHeight : Int) : Int :=
  if nHeight > params.nBlockSequentialAlgoRule2Start then params.nBlockSequentialAlgoMaxCountV2
  else params.nBlockSequentialAlgoMaxCountV1

/-- The `while` loop of `AcceptBlockHeader`: walk down from `piPrev` while it is not `NULL` and
`nAlgoCount <= nMaxSeqCount`, counting the blocks of `nAlgo` and stopping at the first block
of another algorithm. -/
def countSeqAlgo (nAlgo : Algo) (nMaxSeqCount : Int) : Int → BlockPtr → Int
  | nAlgoCount, [] => nAlgoCount
  | nAlgoCount, piPrev :: pprev =>
    if nAlgoCount ≤ nMaxSeqCount then
      if piPrev.GetAlgo ≠ nAlgo then nAlgoCount
      else countSeqAlgo nAlgo nMaxSeqCount (nAlgoCount + 1) pprev
    else nAlgoCount

/-- `AcceptBlockHeader(block, state, chainparams, &pindex)`: the index it leaves in `*ppindex`
and the new `mapBlockIndex`, or why it returned `false` (the map is then unchanged). -/
def AcceptBlockHeader (GetHash : CPureBlockHeader → Uint256) (env : HeaderEnv)
    (params : Params) (hashGenesisBlock : Uint256) (block : CPureBlockHeader)
    (m : BlockMap) : Except HeaderReject (IndexPtr × BlockMap) :=
  let hash := GetHash block
  if hash ≠ hashGenesisBlock then
    match m hash with
    | some pindex =>
      -- the header is already known
      if env.failed hash then .error .duplicate else .ok (pindex, m)
    | none =>
      if !env.CheckBlockHeader block then .error .checkBlockHeader else
      match m block.hashPrevBlock with
      | none => .error .prevNotFound
      | some pindexPrev =>
        if env.failed block.hashPrevBlock then .error .prevInvalid else
        let nMaxSeqCount := params.nMaxSeqCount (pindexPrev.index.nHeight + 1)
        let nAlgoCount := countSeqAlgo block.GetAlgo nMaxSeqCount 1 pindexPrev.ptr
        if nAlgoCount > nMaxSeqCount then .error (.tooManySeqAlgo nMaxSeqCount) else
        if !env.checkpointOk pindexPrev.ptr hash then .error .checkpoint else
        if !env.ContextualCheckBlockHeader block pindexPrev.ptr then .error .contextual else
        .ok (AddToBlockIndex GetHash block m)
  else .ok (AddToBlockIndex GetHash block m)

/-! ### The run of one algorithm below a block -/

/-- The number of consecutive blocks of `nAlgo` at the top of `p`. -/
def seqAlgoRun (nAlgo : Algo) (p : BlockPtr) : Nat :=
  (p.takeWhile fun b => decide (b.GetAlgo = nAlgo)).length

/-- The run of one algorithm ending at the index `p` points to. -/
def IndexPtr.algoRun (p : IndexPtr) : Nat := seqAlgoRun p.index.GetAlgo p.ptr

@[simp] theorem seqAlgoRun_nil (nAlgo : Algo) : seqAlgoRun nAlgo [] = 0 := rfl

theorem seqAlgoRun_cons_of_eq {nAlgo : Algo} {b : CBlockIndex} (p : BlockPtr)
    (h : b.GetAlgo = nAlgo) : seqAlgoRun nAlgo (b :: p) = seqAlgoRun nAlgo p + 1 := by
  simp [seqAlgoRun, h]

theorem seqAlgoRun_cons_of_ne {nAlgo : Algo} {b : CBlockIndex} (p : BlockPtr)
    (h : b.GetAlgo ≠ nAlgo) : seqAlgoRun nAlgo (b :: p) = 0 := by
  simp [seqAlgoRun, h]

@[simp] theorem IndexPtr.link_some_index_nHeight (hash : Uint256) (block : CPureBlockHeader)
    (pprev : IndexPtr) :
    (IndexPtr.link hash block (some pprev)).index.nHeight = pprev.index.nHeight + 1 := rfl

@[simp] theorem IndexPtr.link_index_GetAlgo (hash : Uint256) (block : CPureBlockHeader)
    (o : Option IndexPtr) : (IndexPtr.link hash block o).index.GetAlgo = block.GetAlgo := by
  cases o <;> rfl

@[simp] theorem IndexPtr.link_index_phashBlock (hash : Uint256) (block : CPureBlockHeader)
    (o : Option IndexPtr) : (IndexPtr.link hash block o).index.phashBlock = hash := by
  cases o <;> rfl

/-- The run ending at a new index is one more than the run of its algorithm below it. -/
theorem IndexPtr.algoRun_link_some (hash : Uint256) (block : CPureBlockHeader) (pprev : IndexPtr) :
    (IndexPtr.link hash block (some pprev)).algoRun = seqAlgoRun block.GetAlgo pprev.ptr + 1 := by
  rw [IndexPtr.algoRun, link_index_GetAlgo]
  exact seqAlgoRun_cons_of_eq _ (link_index_GetAlgo hash block (some pprev))

/-- **The counting loop.**  From `nAlgoCount`, the loop adds the run below, but stops once the
count has passed `nMaxSeqCount`. -/
theorem countSeqAlgo_eq (nAlgo : Algo) (nMaxSeqCount : Int) :
    ∀ (nAlgoCount : Int) (p : BlockPtr), countSeqAlgo nAlgo nMaxSeqCount nAlgoCount p =
      min (nAlgoCount + seqAlgoRun nAlgo p) (max nAlgoCount (nMaxSeqCount + 1))
  | nAlgoCount, [] => by simp [countSeqAlgo]
  | nAlgoCount, b :: p => by
    unfold countSeqAlgo
    split_ifs with hle hne
    · -- a block of another algorithm ends the run
      rw [seqAlgoRun_cons_of_ne p hne]
      omega
    · -- one more block of the run, and the count is still within the bound
      rw [countSeqAlgo_eq nAlgo nMaxSeqCount (nAlgoCount + 1) p,
        seqAlgoRun_cons_of_eq p (not_not.mp hne)]
      omega
    · omega

/-- The loop's count passes the bound exactly when the run does. -/
theorem lt_countSeqAlgo_iff (nAlgo : Algo) (nMaxSeqCount : Int) (p : BlockPtr) :
    nMaxSeqCount < countSeqAlgo nAlgo nMaxSeqCount 1 p ↔
      nMaxSeqCount < seqAlgoRun nAlgo p + 1 := by
  rw [countSeqAlgo_eq]
  omega

/-! ### What one call of `AcceptBlockHeader` does to `mapBlockIndex` -/

section Accept

variable {GetHash : CPureBlockHeader → Uint256} {env : HeaderEnv} {params : Params}
  {hashGenesisBlock : Uint256} {block : CPureBlockHeader} {m m' : BlockMap}
  {pindex : IndexPtr}

/-- `AddToBlockIndex` leaves the map as it was or adds the linked index under a new hash. -/
theorem AddToBlockIndex_snd (GetHash : CPureBlockHeader → Uint256) (block : CPureBlockHeader)
    (m : BlockMap) :
    (AddToBlockIndex GetHash block m).2 = m ∨
      (AddToBlockIndex GetHash block m).2 = Function.update m (GetHash block)
        (some (IndexPtr.link (GetHash block) block (m block.hashPrevBlock))) := by
  cases hm : m (GetHash block) <;> simp [AddToBlockIndex, hm]

theorem AddToBlockIndex_of_new (hself : m (GetHash block) = none) :
    AddToBlockIndex GetHash block m =
      (IndexPtr.link (GetHash block) block (m block.hashPrevBlock),
        Function.update m (GetHash block)
          (some (IndexPtr.link (GetHash block) block (m block.hashPrevBlock)))) := by
  simp [AddToBlockIndex, hself]

/-- **Inversion of `AcceptBlockHeader`.**  A call that returns `true` leaves the map as it
was, adds an index under the genesis hash, or adds a new header whose parent is in the map and
whose count stayed within the bound. -/
theorem AcceptBlockHeader_ok
    (h : AcceptBlockHeader GetHash env params hashGenesisBlock block m = .ok (pindex, m')) :
    m' = m ∨
      (GetHash block = hashGenesisBlock ∧ m' = Function.update m (GetHash block)
        (some (IndexPtr.link (GetHash block) block (m block.hashPrevBlock)))) ∨
      ∃ pindexPrev, m block.hashPrevBlock = some pindexPrev ∧
        ¬ params.nMaxSeqCount (pindexPrev.index.nHeight + 1) <
          countSeqAlgo block.GetAlgo (params.nMaxSeqCount (pindexPrev.index.nHeight + 1)) 1
            pindexPrev.ptr ∧
        m' = Function.update m (GetHash block)
          (some (IndexPtr.link (GetHash block) block (some pindexPrev))) := by
  by_cases hgen : GetHash block = hashGenesisBlock
  · -- the genesis hash skips every check and goes to `AddToBlockIndex`
    have hadd : AddToBlockIndex GetHash block m = (pindex, m') := by
      simpa [AcceptBlockHeader, hgen] using h
    rcases AddToBlockIndex_snd GetHash block m with hm | hm <;> rw [hadd] at hm
    · exact .inl hm
    · exact .inr (.inl ⟨hgen, hm⟩)
  cases hself : m (GetHash block) with
  | some known =>
    -- a known header changes nothing
    simp only [AcceptBlockHeader, ne_eq, hgen, not_false_eq_true, if_true, hself] at h
    split_ifs at h
    cases h
    exact .inl rfl
  | none =>
    cases hprev : m block.hashPrevBlock with
    | none =>
      simp only [AcceptBlockHeader, ne_eq, hgen, not_false_eq_true, if_true, hself, hprev] at h
      split_ifs at h
    | some pindexPrev =>
      simp only [AcceptBlockHeader, ne_eq, hgen, not_false_eq_true, if_true, hself, hprev] at h
      split_ifs at h with _ _ hcount
      have hadd := congrArg Prod.snd (Except.ok.inj h)
      rw [AddToBlockIndex_of_new hself, hprev] at hadd
      exact .inr (.inr ⟨pindexPrev, rfl, hcount, hadd.symm⟩)

/-- **When the sequential rule rejects.**  `AcceptBlockHeader` fails with `tooManySeqAlgo`
only for a header whose parent is in the map and whose run would exceed the bound at its
height. -/
theorem AcceptBlockHeader_tooManySeqAlgo {limit : Int}
    (h : AcceptBlockHeader GetHash env params hashGenesisBlock block m =
      .error (.tooManySeqAlgo limit)) :
    ∃ pindexPrev, m block.hashPrevBlock = some pindexPrev ∧
      limit = params.nMaxSeqCount (pindexPrev.index.nHeight + 1) ∧
      limit < (IndexPtr.link (GetHash block) block (some pindexPrev)).algoRun := by
  by_cases hgen : GetHash block = hashGenesisBlock
  · simp [AcceptBlockHeader, hgen] at h
  cases hself : m (GetHash block) with
  | some known =>
    simp only [AcceptBlockHeader, ne_eq, hgen, not_false_eq_true, if_true, hself] at h
    split_ifs at h
    cases h
  | none =>
    cases hprev : m block.hashPrevBlock with
    | none =>
      simp only [AcceptBlockHeader, ne_eq, hgen, not_false_eq_true, if_true, hself, hprev] at h
      split_ifs at h <;> cases h
    | some pindexPrev =>
      simp only [AcceptBlockHeader, ne_eq, hgen, not_false_eq_true, if_true, hself, hprev] at h
      split_ifs at h with _ _ hcount <;> cases h
      refine ⟨pindexPrev, rfl, rfl, ?_⟩
      rw [IndexPtr.algoRun_link_some]
      exact (lt_countSeqAlgo_iff _ _ _).mp hcount

/-! ### Runs of `AcceptBlockHeader` from the genesis index -/

/-- `mapBlockIndex` holding only the genesis block's index. -/
def genesisMap (hashGenesisBlock : Uint256) (genesis : CBlockIndex) : BlockMap :=
  Function.update (fun _ => none) hashGenesisBlock (some ⟨genesis, []⟩)

/-- The maps a node reaches from the genesis index by calls of `AcceptBlockHeader` that return
`true`, whatever the other checks answer at each call. -/
inductive HeadersReachable (GetHash : CPureBlockHeader → Uint256) (params : Params)
    (hashGenesisBlock : Uint256) (genesis : CBlockIndex) : BlockMap → Prop
  | genesis : HeadersReachable GetHash params hashGenesisBlock genesis
      (genesisMap hashGenesisBlock genesis)
  | accept {m m' : BlockMap} {env : HeaderEnv} {block : CPureBlockHeader} {pindex : IndexPtr} :
      HeadersReachable GetHash params hashGenesisBlock genesis m →
      AcceptBlockHeader GetHash env params hashGenesisBlock block m = .ok (pindex, m') →
      HeadersReachable GetHash params hashGenesisBlock genesis m'

/-- Every index but the genesis one ends a run of its algorithm within the bound at its
height. -/
def SeqAlgoBounded (params : Params) (hashGenesisBlock : Uint256) (m : BlockMap) : Prop :=
  ∀ hash e, hash ≠ hashGenesisBlock → m hash = some e →
    (e.algoRun : Int) ≤ params.nMaxSeqCount e.index.nHeight

theorem seqAlgoBounded_genesisMap (genesis : CBlockIndex) :
    SeqAlgoBounded params hashGenesisBlock (genesisMap hashGenesisBlock genesis) := by
  intro hash e hne he
  simp [genesisMap, Function.update_of_ne hne] at he

/-- **One call keeps the bound.**  The only entry a call adds under a hash other than the
genesis one is a new header whose count stayed within the bound. -/
theorem seqAlgoBounded_accept (hm : SeqAlgoBounded params hashGenesisBlock m)
    (h : AcceptBlockHeader GetHash env params hashGenesisBlock block m = .ok (pindex, m')) :
    SeqAlgoBounded params hashGenesisBlock m' := by
  intro hash e hne he
  rcases AcceptBlockHeader_ok h with rfl | ⟨hgen, rfl⟩ | ⟨pindexPrev, -, hcount, rfl⟩
  · exact hm hash e hne he
  · rw [Function.update_of_ne (hgen ▸ hne)] at he
    exact hm hash e hne he
  · by_cases hh : hash = GetHash block
    · -- the new header: its run is the one the loop counted, plus itself
      subst hh
      rw [Function.update_self, Option.some.injEq] at he
      subst he
      have hrun := (lt_countSeqAlgo_iff _ _ _).not.mp hcount
      rw [IndexPtr.algoRun_link_some, IndexPtr.link_some_index_nHeight]
      push_cast
      omega
    · rw [Function.update_of_ne hh] at he
      exact hm hash e hne he

theorem seqAlgoBounded_of_reachable {genesis : CBlockIndex}
    (hr : HeadersReachable GetHash params hashGenesisBlock genesis m) :
    SeqAlgoBounded params hashGenesisBlock m := by
  induction hr with
  | genesis => exact seqAlgoBounded_genesisMap genesis
  | accept _ hacc ih => exact seqAlgoBounded_accept ih hacc

/-- Every index in the map is stored under the hash its `phashBlock` points to. -/
def HashesKeyed (m : BlockMap) : Prop := ∀ hash e, m hash = some e → e.index.phashBlock = hash

theorem hashesKeyed_update_link (hm : HashesKeyed m) (o : Option IndexPtr) :
    HashesKeyed (Function.update m (GetHash block) (some (IndexPtr.link (GetHash block) block o))) := by
  intro hash e he
  by_cases hh : hash = GetHash block
  · subst hh
    rw [Function.update_self, Option.some.injEq] at he
    subst he
    exact IndexPtr.link_index_phashBlock _ _ _
  · rw [Function.update_of_ne hh] at he
    exact hm hash e he

theorem hashesKeyed_genesisMap {genesis : CBlockIndex}
    (hg : genesis.phashBlock = hashGenesisBlock) : HashesKeyed (genesisMap hashGenesisBlock genesis) := by
  intro hash e he
  by_cases hh : hash = hashGenesisBlock
  · subst hh
    simp only [genesisMap, Function.update_self, Option.some.injEq] at he
    subst he
    exact hg
  · simp [genesisMap, Function.update_of_ne hh] at he

/-- **One call keeps the keys.**  The index a call adds is the one `AddToBlockIndex` points at
the header's hash. -/
theorem hashesKeyed_accept (hm : HashesKeyed m)
    (h : AcceptBlockHeader GetHash env params hashGenesisBlock block m = .ok (pindex, m')) :
    HashesKeyed m' := by
  rcases AcceptBlockHeader_ok h with rfl | ⟨-, rfl⟩ | ⟨pindexPrev, -, -, rfl⟩
  · exact hm
  · exact hashesKeyed_update_link hm _
  · exact hashesKeyed_update_link hm _

/-- In every map reached from a genesis index whose `phashBlock` is the genesis hash, each index
is stored under its own hash: `mapBlockIndex` tells blocks apart by their hashes. -/
theorem hashesKeyed_of_reachable {genesis : CBlockIndex} (hg : genesis.phashBlock = hashGenesisBlock)
    (hr : HeadersReachable GetHash params hashGenesisBlock genesis m) : HashesKeyed m := by
  induction hr with
  | genesis => exact hashesKeyed_genesisMap hg
  | accept _ hacc ih => exact hashesKeyed_accept ih hacc

end Accept

/-- **The sequential-algorithm rule.**  In every `mapBlockIndex` reached from the genesis index
by `AcceptBlockHeader`, each index but the genesis one ends a run of at most `nMaxSeqCount`
blocks of its algorithm, at its own height; and the rule rejects no header whose run is within
the bound. -/
theorem AcceptBlockHeader_sequential_rule (GetHash : CPureBlockHeader → Uint256)
    (params : Params) (hashGenesisBlock : Uint256) (genesis : CBlockIndex) :
    (∀ m, HeadersReachable GetHash params hashGenesisBlock genesis m →
      ∀ hash e, hash ≠ hashGenesisBlock → m hash = some e →
        (e.algoRun : Int) ≤ params.nMaxSeqCount e.index.nHeight) ∧
    ∀ env block m pindexPrev, m block.hashPrevBlock = some pindexPrev →
      ((IndexPtr.link (GetHash block) block (some pindexPrev)).algoRun : Int) ≤
        params.nMaxSeqCount (pindexPrev.index.nHeight + 1) →
      ∀ limit, AcceptBlockHeader GetHash env params hashGenesisBlock block m ≠
        .error (.tooManySeqAlgo limit) := by
  refine ⟨fun m hr => seqAlgoBounded_of_reachable hr, ?_⟩
  intro env block m pindexPrev hprev hrun limit h
  obtain ⟨p, hp, rfl, hlt⟩ := AcceptBlockHeader_tooManySeqAlgo h
  rw [hprev, Option.some.injEq] at hp
  subst hp
  omega

/-- A header hash for the witness below: the header's merkle root. -/
def rootHash (block : CPureBlockHeader) : Uint256 := block.hashMerkleRoot

/-- The other checks of `AcceptBlockHeader` all passing. -/
def acceptAll : HeaderEnv := ⟨fun _ => false, fun _ => true, fun _ _ => true, fun _ _ => true⟩

/-- A genesis index of algorithm slot 1. -/
def genesisIdx : CBlockIndex := ⟨Uint256.zero, 0, 1, 0x1e0fffff, 0⟩

/-- A header of slot 1 on the genesis block. -/
def headerOne : CPureBlockHeader := ⟨1, Uint256.zero, Uint256.replicate 1, 60, 0x1e0fffff, 0⟩

/-- A header of slot 1 on `headerOne`. -/
def headerTwo : CPureBlockHeader :=
  ⟨1, Uint256.replicate 1, Uint256.replicate 2, 120, 0x1e0fffff, 0⟩

/-- The map after `headerOne` is accepted on the genesis index. -/
def mapOne : BlockMap := (AddToBlockIndex rootHash headerOne (genesisMap Uint256.zero genesisIdx)).2

/-- On main net, after the genesis index and one header of slot 1, the index of that header
ends a run within the bound, and a second header of slot 1, three in a row with the genesis
block where the bound is three, is not turned away by the rule. -/
theorem AcceptBlockHeader_sequential_rule_mainnet :
    ((IndexPtr.link (rootHash headerOne) headerOne (some ⟨genesisIdx, []⟩)).algoRun : Int) ≤
        mainParams.nMaxSeqCount
          (IndexPtr.link (rootHash headerOne) headerOne (some ⟨genesisIdx, []⟩)).index.nHeight ∧
      ∀ limit, AcceptBlockHeader rootHash acceptAll mainParams Uint256.zero headerTwo mapOne ≠
        .error (.tooManySeqAlgo limit) := by
  have hreach : HeadersReachable rootHash mainParams Uint256.zero genesisIdx mapOne :=
    @HeadersReachable.accept rootHash mainParams Uint256.zero genesisIdx _ _ acceptAll headerOne _
      .genesis rfl
  have hone : mapOne (rootHash headerOne) =
      some (IndexPtr.link (rootHash headerOne) headerOne (some ⟨genesisIdx, []⟩)) := rfl
  have hrun : ((IndexPtr.link (rootHash headerTwo) headerTwo
      (some (IndexPtr.link (rootHash headerOne) headerOne (some ⟨genesisIdx, []⟩)))).algoRun : Int) ≤
      mainParams.nMaxSeqCount
        ((IndexPtr.link (rootHash headerOne) headerOne (some ⟨genesisIdx, []⟩)).index.nHeight + 1) := by
    decide
  exact ⟨(AcceptBlockHeader_sequential_rule rootHash mainParams Uint256.zero genesisIdx).1 mapOne
      hreach (rootHash headerOne) _ (by decide) hone,
    (AcceptBlockHeader_sequential_rule rootHash mainParams Uint256.zero genesisIdx).2 acceptAll
      headerTwo mapOne _ hone hrun⟩

end Unitus
