import Unitus.Primitives.Unserialize
import Unitus.Lib.Except

/-!
# Primitives — reading back what was written

Each reader of `Unserialize` reads back what the matching writer wrote, for the values that the
writer's format can carry, and leaves the bytes after it: a `uint32_t`, an `int32_t`, an `int`
and an `int64_t` within their ranges, a size up to `MAX_SIZE` (above it `ReadCompactSize`
throws), and from these outpoints, inputs, outputs and transactions.
-/

namespace Unitus

open Codec

/-! ## Numbers -/

@[simp] theorem leValue_leBytes : ∀ (n k : Nat), leValue (leBytes n k) = n % 256 ^ k
  | n, 0 => by rw [leBytes, leValue, pow_zero, Nat.mod_one]
  | n, k + 1 => by
    have h : n % 256 % 2 ^ 8 = n % 256 := Nat.mod_eq_of_lt (Nat.mod_lt n (by norm_num))
    rw [leBytes, leValue, leValue_leBytes (n / 256) k, UInt8.toNat_ofNat', h, pow_succ',
      Nat.mod_mul]

theorem run_readLE (n k : Nat) (rest : List UInt8) :
    (readLE k).run (leBytes n k ++ rest) = .ok (n % 256 ^ k, rest) := by
  rw [readLE, run_bind_of_ok (run_readTokens endOfData _ rest (length_leBytes n k))]
  simp only [leValue_leBytes]
  rfl

theorem roundTrip_readUInt32 : RoundTrip (fun _ => True) serUInt32 readUInt32 := by
  intro a rest _
  rw [readUInt32, serUInt32, run_bind_of_ok (run_readLE _ _ rest),
    Nat.mod_eq_of_lt (by simpa using a.toNat_lt), UInt32.ofNat_toNat]
  rfl

theorem roundTrip_readInt32 : RoundTrip (fun _ => True) serInt32 readInt32 := by
  intro a rest _
  rw [readInt32, serInt32, run_bind_of_ok (run_readLE _ _ rest),
    Nat.mod_eq_of_lt (by simpa using a.toUInt32.toNat_lt), UInt32.ofNat_toNat,
    Int32.toInt32_toUInt32]
  rfl

/-- An `int` within `int32_t`. -/
def IntRange (a : Int) : Prop := -2 ^ 31 ≤ a ∧ a < 2 ^ 31

theorem roundTrip_readInt : RoundTrip IntRange serInt readInt := by
  intro a rest ha
  rw [readInt, serInt, roundTrip_readInt32.run_bind trivial, run_pure, Int32.toInt_ofInt,
    Int.bmod_eq_of_le ha.1 ha.2]

/-- A `CAmount` within `int64_t`. -/
def Int64Range (a : Int) : Prop := -2 ^ 63 ≤ a ∧ a < 2 ^ 63

theorem roundTrip_readInt64 : RoundTrip Int64Range serInt64 readInt64 := by
  intro a rest ha
  obtain ⟨hlo, hhi⟩ := ha
  rw [readInt64, serInt64, run_bind_of_ok (run_readLE _ _ rest)]
  have h8 : (256 : Nat) ^ 8 = 2 ^ 64 := by norm_num
  rw [h8, run_pure]
  congr
  split_ifs <;> omega

theorem roundTrip_readUint256 : RoundTrip (fun _ => True) serUint256 readUint256 := by
  intro h rest _
  rw [readUint256, serUint256, run_bind_of_ok (run_readTokens endOfData _ rest h.length_data)]
  rfl

/-! ## Sizes, vectors and scripts -/

theorem roundTrip_ReadCompactSize :
    RoundTrip (· ≤ MAX_SIZE) WriteCompactSize ReadCompactSize := by
  intro n rest hn
  have hmax : ¬33554432 < n := by simp only [MAX_SIZE] at hn; omega
  unfold WriteCompactSize
  split_ifs with h1 h2 h3
  · -- one byte
    have hc : (UInt8.ofNat (n % 256)).toNat = n := by rw [UInt8.toNat_ofNat']; omega
    simp [leBytes, ReadCompactSize, ser_readdata8, hc, MAX_SIZE, h1, hmax]
  · -- `253` and two bytes
    have hm : n % 65536 = n := Nat.mod_eq_of_lt (by omega)
    simp [ReadCompactSize, ser_readdata8, MAX_SIZE, run_readLE, hm, h1, hmax]
  · -- `254` and four bytes
    have hm : n % 4294967296 = n := Nat.mod_eq_of_lt (by omega)
    simp [ReadCompactSize, ser_readdata8, MAX_SIZE, run_readLE, hm, hmax,
      show ¬n < 65536 by omega]
  · -- nine bytes are for sizes above `MAX_SIZE`
    simp only [MAX_SIZE] at hn
    omega

theorem length_WriteCompactSize (n : Nat) :
    (WriteCompactSize n).length = GetSizeOfCompactSize n := by
  unfold WriteCompactSize GetSizeOfCompactSize
  split_ifs <;> simp

theorem leValue_lt : ∀ l : List UInt8, leValue l < 256 ^ l.length
  | [] => by simp [leValue]
  | b :: l => by
    have hb := b.toNat_lt
    have hl := leValue_lt l
    rw [leValue, List.length_cons, pow_succ']
    omega

/-- `k` bytes are the `k` low bytes of their little-endian value. -/
theorem leBytes_leValue : ∀ l : List UInt8, leBytes (leValue l) l.length = l
  | [] => rfl
  | b :: l => by
    have hb := b.toNat_lt
    have hlow : (b.toNat + 256 * leValue l) % 256 = b.toNat := by omega
    have hhigh : (b.toNat + 256 * leValue l) / 256 = leValue l := by omega
    rw [leValue, List.length_cons, leBytes, hlow, hhigh, leBytes_leValue l, UInt8.ofNat_toNat]

theorem eq_of_run_readLE {k n : Nat} {s rest : List UInt8}
    (h : (readLE k).run s = .ok (n, rest)) :
    ∃ l : List UInt8, s = l ++ rest ∧ l.length = k ∧ n = leValue l := by
  rw [readLE, run_bind_eq_ok] at h
  obtain ⟨l, s', hl, h⟩ := h
  cases h
  exact ⟨l.1, eq_of_run_readTokens hl, l.2, rfl⟩

/-- What `ReadCompactSize` accepts is the CompactSize of a size up to `MAX_SIZE`: a size in more
bytes than it needs throws, and so does one above `MAX_SIZE`. -/
theorem eq_of_run_ReadCompactSize {s rest : List UInt8} {n : Nat}
    (h : ReadCompactSize.run s = .ok (n, rest)) :
    n ≤ MAX_SIZE ∧ s = WriteCompactSize n ++ rest := by
  rw [ReadCompactSize, run_bind_eq_ok] at h
  obtain ⟨c, s₁, hc, h⟩ := h
  rw [eq_of_run_readToken hc]
  -- every branch ends in the check against `MAX_SIZE`
  have hguard : ∀ {m : Nat} {s₂ : List UInt8},
      ((if m > MAX_SIZE then throw "ReadCompactSize(): size too large" else pure m :
        StreamReader Nat)).run s₂ = .ok (n, rest) → m ≤ MAX_SIZE ∧ n = m ∧ rest = s₂ := by
    intro m s₂ hm
    split_ifs at hm with hgt
    · cases hm
    · obtain ⟨rfl, rfl⟩ := eq_of_run_pure hm
      exact ⟨by omega, rfl, rfl⟩
  simp only at h
  split_ifs at h with h1 h2 h3
  · -- one byte below `253`
    obtain ⟨hmax, rfl, rfl⟩ := hguard h
    simp [WriteCompactSize, h1, leBytes, hmax]
  · -- `253` and two bytes, at least `253`
    subst h2
    rw [run_bind_eq_ok] at h
    obtain ⟨k, s₃, hk, h⟩ := h
    obtain ⟨l, rfl, hl, rfl⟩ := eq_of_run_readLE hk
    split_ifs at h with hlow
    · rw [run_throw_bind] at h
      cases h
    · obtain ⟨hmax, rfl, rfl⟩ := hguard h
      have hhigh : leValue l ≤ 0xffff := by have := leValue_lt l; rw [hl] at this; omega
      simp [WriteCompactSize, hlow, hhigh, hmax, ← hl, leBytes_leValue]
  · -- `254` and four bytes, at least `0x10000`
    subst h3
    rw [run_bind_eq_ok] at h
    obtain ⟨k, s₃, hk, h⟩ := h
    obtain ⟨l, rfl, hl, rfl⟩ := eq_of_run_readLE hk
    split_ifs at h with hlow
    · rw [run_throw_bind] at h
      cases h
    · obtain ⟨hmax, rfl, rfl⟩ := hguard h
      have hhigh : leValue l ≤ 0xffffffff := by have := leValue_lt l; rw [hl] at this; omega
      simp [WriteCompactSize, hhigh, hmax, ← hl, leBytes_leValue,
        show ¬leValue l < 253 by omega, show ¬leValue l ≤ 0xffff by omega]
  · -- nine bytes carry at least `2 ^ 32`, above `MAX_SIZE`
    rw [run_bind_eq_ok] at h
    obtain ⟨k, s₃, hk, h⟩ := h
    split_ifs at h with hlow
    · rw [run_throw_bind] at h
      cases h
    · obtain ⟨hmax, -, -⟩ := hguard h
      simp only [MAX_SIZE] at hmax
      omega

/-- **CompactSize.**  A size up to `MAX_SIZE` reads back from its CompactSize, which takes
`GetSizeOfCompactSize` bytes; and `ReadCompactSize` accepts nothing else: every stream it reads
a size from begins with that size's CompactSize. -/
theorem ReadCompactSize_WriteCompactSize :
    (∀ n rest, n ≤ MAX_SIZE →
      ReadCompactSize.run (WriteCompactSize n ++ rest) = .ok (n, rest) ∧
        (WriteCompactSize n).length = GetSizeOfCompactSize n) ∧
    (∀ s n rest, ReadCompactSize.run s = .ok (n, rest) →
      n ≤ MAX_SIZE ∧ s = WriteCompactSize n ++ rest) :=
  ⟨fun n rest hn => ⟨roundTrip_ReadCompactSize n rest hn, length_WriteCompactSize n⟩,
    fun _ _ _ h => eq_of_run_ReadCompactSize h⟩

/-- A vector of at most `MAX_SIZE` elements, each of which `rd` reads back, reads back. -/
theorem roundTrip_readVector {α : Type} {P : α → Prop} {ser : α → List UInt8}
    {rd : StreamReader α} (h : RoundTrip P ser rd) :
    RoundTrip (fun l => l.length ≤ MAX_SIZE ∧ ∀ a ∈ l, P a) (serVector ser) (readVector rd) := by
  rintro l rest ⟨hlen, hl⟩
  rw [serVector, readVector, List.append_assoc, roundTrip_ReadCompactSize.run_bind hlen]
  exact h.run_readN l rest hl

theorem roundTrip_readScript :
    RoundTrip (fun s : List UInt8 => s.length ≤ MAX_SIZE) serScript readScript := by
  intro s rest hs
  rw [serScript, readScript, List.append_assoc, roundTrip_ReadCompactSize.run_bind hs,
    run_bind_of_ok (run_readTokens endOfData s rest rfl)]
  rfl

/-! ## Inputs and outputs -/

theorem roundTrip_readOutPoint : RoundTrip (fun _ => True) serOutPoint readOutPoint := by
  intro o rest _
  rw [serOutPoint, readOutPoint, List.append_assoc, roundTrip_readUint256.run_bind trivial,
    roundTrip_readUInt32.run_bind trivial]
  rfl

/-- An input without its witness, which only the transaction writes. -/
def CTxIn.stripWitness (i : CTxIn) : CTxIn := { i with scriptWitness := [] }

@[simp] theorem serTxIn_stripWitness (i : CTxIn) : serTxIn i.stripWitness = serTxIn i := rfl

theorem roundTrip_readTxIn :
    RoundTrip (fun i : CTxIn => i.scriptSig.length ≤ MAX_SIZE ∧ i.scriptWitness = [])
      serTxIn readTxIn := by
  rintro ⟨prevout, scriptSig, nSequence, witness⟩ rest ⟨hs, hw⟩
  subst hw
  simp only [serTxIn, readTxIn, List.append_assoc]
  rw [roundTrip_readOutPoint.run_bind trivial, roundTrip_readScript.run_bind hs,
    roundTrip_readUInt32.run_bind trivial]
  rfl

/-- An output that its format carries: an amount within `int64_t`, a script within
`MAX_SIZE`. -/
def TxOutWf (o : CTxOut) : Prop := Int64Range o.nValue ∧ o.scriptPubKey.length ≤ MAX_SIZE

theorem roundTrip_readTxOut : RoundTrip TxOutWf serTxOut readTxOut := by
  rintro ⟨nValue, scriptPubKey⟩ rest ⟨hv, hs⟩
  simp only [serTxOut, readTxOut, List.append_assoc]
  rw [roundTrip_readInt64.run_bind hv, roundTrip_readScript.run_bind hs]
  rfl

/-- A witness stack that its format carries: at most `MAX_SIZE` items of at most `MAX_SIZE`
bytes. -/
def WitnessWf (stack : List (List UInt8)) : Prop :=
  stack.length ≤ MAX_SIZE ∧ ∀ item ∈ stack, item.length ≤ MAX_SIZE

/-- The witness loop reads each input's stack back onto the input read without it. -/
theorem run_readWitnesses :
    ∀ (vin : List CTxIn) (rest : List UInt8), (∀ i ∈ vin, WitnessWf i.scriptWitness) →
      (readWitnesses (vin.map CTxIn.stripWitness)).run
          (vin.flatMap (fun i => serVector serScript i.scriptWitness) ++ rest) = .ok (vin, rest)
  | [], rest, _ => rfl
  | i :: vin, rest, h => by
    rw [List.map_cons, readWitnesses, List.flatMap_cons, List.append_assoc,
      (roundTrip_readVector roundTrip_readScript).run_bind (h i List.mem_cons_self),
      run_bind_of_ok (run_readWitnesses vin rest fun j hj => h j (List.mem_cons_of_mem i hj))]
    rfl

/-! ## Transactions -/

/-- A transaction without its witnesses, as a stream without witnesses carries it. -/
def CTransaction.stripWitness (tx : CTransaction) : CTransaction :=
  { tx with vin := tx.vin.map CTxIn.stripWitness }

/-- What a transaction's format carries, for it to read back: a non-empty `vin`, as an empty one
reads as the dummy of the extended format, and every vector within `MAX_SIZE`, every amount
within `int64_t`. -/
structure TxWf (tx : CTransaction) : Prop where
  vin_ne_nil : tx.vin ≠ []
  vin_length : tx.vin.length ≤ MAX_SIZE
  vout_length : tx.vout.length ≤ MAX_SIZE
  scriptSig_length : ∀ i ∈ tx.vin, i.scriptSig.length ≤ MAX_SIZE
  witness : ∀ i ∈ tx.vin, WitnessWf i.scriptWitness
  vout : ∀ o ∈ tx.vout, TxOutWf o

theorem run_readInt32_serInt32 (a : Int32) (rest : List UInt8) :
    readInt32.run (serInt32 a ++ rest) = .ok (a, rest) :=
  roundTrip_readInt32 a rest trivial

theorem run_readUInt32_serUInt32 (a : UInt32) (rest : List UInt8) :
    readUInt32.run (serUInt32 a ++ rest) = .ok (a, rest) :=
  roundTrip_readUInt32 a rest trivial

/-- The empty vector reads back, whatever its elements would be. -/
theorem run_readVector_nil {α : Type} (rd : StreamReader α) (ser : α → List UInt8)
    (rest : List UInt8) : (readVector rd).run (serVector ser [] ++ rest) = .ok ([], rest) := by
  rw [serVector, readVector, List.append_assoc,
    roundTrip_ReadCompactSize.run_bind (by simp [MAX_SIZE])]
  rfl

/-- A vector of at most `MAX_SIZE` elements reads back as the elements `rd` reads. -/
theorem run_readVector_map {α β : Type} {P : α → Prop} {ser : α → List UInt8}
    {rd : StreamReader β} {g : α → β}
    (h : ∀ a rest, P a → rd.run (ser a ++ rest) = .ok (g a, rest)) (l : List α)
    (rest : List UInt8) (hlen : l.length ≤ MAX_SIZE) (hl : ∀ a ∈ l, P a) :
    (readVector rd).run (serVector ser l ++ rest) = .ok (l.map g, rest) := by
  rw [serVector, readVector, List.append_assoc, roundTrip_ReadCompactSize.run_bind hlen]
  exact run_readN_map h l rest hl

/-- The inputs read back without their witnesses. -/
theorem run_readVector_readTxIn {vin : List CTxIn} (hlen : vin.length ≤ MAX_SIZE)
    (hs : ∀ i ∈ vin, i.scriptSig.length ≤ MAX_SIZE) (rest : List UInt8) :
    (readVector readTxIn).run (serVector serTxIn vin ++ rest) =
      .ok (vin.map CTxIn.stripWitness, rest) := by
  have h := roundTrip_readVector roundTrip_readTxIn (vin.map CTxIn.stripWitness) rest
    ⟨by rwa [List.length_map], by simpa [CTxIn.stripWitness] using hs⟩
  rwa [serVector, List.length_map, List.flatMap_map] at h

theorem map_stripWitness_of_not_HasWitness {tx : CTransaction} (h : tx.HasWitness = false) :
    tx.vin.map CTxIn.stripWitness = tx.vin := by
  have hw : ∀ i ∈ tx.vin, i.scriptWitness = [] := by
    simpa [CTransaction.HasWitness] using h
  conv_rhs => rw [← List.map_id tx.vin]
  refine List.map_congr_left fun i hi => ?_
  rw [CTxIn.stripWitness, ← hw i hi]
  rfl

/-- **A transaction reads back.**  With witnesses allowed it reads back whole, in the extended
format when it has a witness; without, it reads back without its witnesses. -/
theorem run_UnserializeTransaction (fAllowWitness : Bool) {tx : CTransaction} (h : TxWf tx)
    (rest : List UInt8) :
    (UnserializeTransaction fAllowWitness).run (SerializeTransaction fAllowWitness tx ++ rest) =
      .ok (if fAllowWitness then tx else tx.stripWitness, rest) := by
  have hvin := run_readVector_readTxIn h.vin_length h.scriptSig_length
  have hvout : ∀ rest, (readVector readTxOut).run (serVector serTxOut tx.vout ++ rest) =
      .ok (tx.vout, rest) := fun rest =>
    roundTrip_readVector roundTrip_readTxOut tx.vout rest ⟨h.vout_length, h.vout⟩
  have hwit := fun rest => run_readWitnesses tx.vin rest h.witness
  cases fAllowWitness with
  | false =>
    -- the legacy format, and the witnesses left behind
    simp [SerializeTransaction, UnserializeTransaction, List.append_assoc, run_readInt32_serInt32,
      run_readUInt32_serUInt32, hvin, hvout, CTransaction.stripWitness]
  | true =>
    cases hw : tx.HasWitness with
    | false =>
      -- no witness to write: the legacy format, and nothing left behind
      have hmap := map_stripWitness_of_not_HasWitness hw
      simp [SerializeTransaction, UnserializeTransaction, hw, List.append_assoc,
        run_readInt32_serInt32, run_readUInt32_serUInt32, hvin, hvout, hmap, h.vin_ne_nil]
    | true =>
      -- the extended format: the dummy, the flags, and the witnesses after `vout`
      simp [SerializeTransaction, UnserializeTransaction, hw, List.append_assoc,
        run_readInt32_serInt32, run_readUInt32_serUInt32, hvin, hvout, hwit, run_readVector_nil,
        ser_readdata8]

/-- A size above `MAX_SIZE` is written, but `ReadCompactSize` throws on it. -/
theorem run_ReadCompactSize_too_large {n : Nat} (hn : MAX_SIZE < n) (hn' : n ≤ 0xffffffff)
    (rest : List UInt8) :
    ReadCompactSize.run (WriteCompactSize n ++ rest) =
      .error "ReadCompactSize(): size too large" := by
  have hlarge : 33554432 < n := hn
  have hm : n % 4294967296 = n := Nat.mod_eq_of_lt (by omega)
  simp [WriteCompactSize, ReadCompactSize, ser_readdata8, run_readLE, hm, hn, hn',
    show ¬n < 253 by omega, show ¬n ≤ 65535 by omega, show ¬n < 65536 by omega]
  rfl

/-! ## Headers and blocks -/

theorem roundTrip_readPureHeader : RoundTrip (fun _ => True) serPureHeader readPureHeader := by
  rintro ⟨nVersion, hashPrevBlock, hashMerkleRoot, nTime, nBits, nNonce⟩ rest _
  simp only [serPureHeader, readPureHeader, List.append_assoc]
  rw [roundTrip_readInt32.run_bind trivial, roundTrip_readUint256.run_bind trivial,
    roundTrip_readUint256.run_bind trivial, roundTrip_readUInt32.run_bind trivial,
    roundTrip_readUInt32.run_bind trivial, roundTrip_readUInt32.run_bind trivial]
  rfl

/-- What an auxpow's format carries: its coinbase, its branches within `MAX_SIZE`, its indexes
within `int`. -/
structure AuxPowWf (a : CAuxPow) : Prop where
  tx : TxWf a.tx
  vMerkleBranch_length : a.vMerkleBranch.length ≤ MAX_SIZE
  nIndex : IntRange a.nIndex
  vChainMerkleBranch_length : a.vChainMerkleBranch.length ≤ MAX_SIZE
  nChainIndex : IntRange a.nChainIndex

/-- The auxpow with its coinbase's witnesses left behind. -/
def CAuxPow.stripWitness (a : CAuxPow) : CAuxPow := { a with tx := a.tx.stripWitness }

theorem run_readAuxPow (fAllowWitness : Bool) {a : CAuxPow} (h : AuxPowWf a)
    (rest : List UInt8) :
    (readAuxPow fAllowWitness).run (serAuxPow fAllowWitness a ++ rest) =
      .ok (if fAllowWitness then a else a.stripWitness, rest) := by
  have hbranch := roundTrip_readVector roundTrip_readUint256
  simp only [serAuxPow, readAuxPow, List.append_assoc]
  rw [run_bind_of_ok (run_UnserializeTransaction fAllowWitness h.tx _),
    roundTrip_readUint256.run_bind trivial,
    hbranch.run_bind ⟨h.vMerkleBranch_length, fun _ _ => trivial⟩,
    roundTrip_readInt.run_bind h.nIndex,
    hbranch.run_bind ⟨h.vChainMerkleBranch_length, fun _ _ => trivial⟩,
    roundTrip_readInt.run_bind h.nChainIndex, roundTrip_readPureHeader.run_bind trivial]
  cases fAllowWitness <;> rfl

/-- What a header's format carries: the auxpow is set exactly when the version says so, as
`SetAuxpow` keeps them, and its format carries it. -/
structure HeaderWf (h : CBlockHeader) : Prop where
  auxpow_iff : h.IsAuxpow = true ↔ h.auxpow.isSome = true
  auxpow : ∀ a ∈ h.auxpow, AuxPowWf a

/-- The header with its auxpow's witnesses left behind. -/
def CBlockHeader.stripWitness (h : CBlockHeader) : CBlockHeader :=
  { h with auxpow := h.auxpow.map CAuxPow.stripWitness }

theorem run_readBlockHeader (fAllowWitness : Bool) {hd : CBlockHeader} (h : HeaderWf hd)
    (rest : List UInt8) :
    ∃ bytes, serBlockHeader fAllowWitness hd = some bytes ∧
      (readBlockHeader fAllowWitness).run (bytes ++ rest) =
        .ok (if fAllowWitness then hd else hd.stripWitness, rest) := by
  obtain ⟨header, auxpow⟩ := hd
  cases auxpow with
  | none =>
    -- no auxpow bit, no auxpow
    have hbit : header.IsAuxpow = false := by simpa using h.auxpow_iff
    refine ⟨serPureHeader header, by simp [serBlockHeader, hbit], ?_⟩
    rw [readBlockHeader, roundTrip_readPureHeader.run_bind trivial]
    simp only [hbit, Bool.false_eq_true, if_false]
    cases fAllowWitness <;> rfl
  | some a =>
    -- the auxpow bit, and the auxpow after the pure header
    have hbit : header.IsAuxpow = true := by simpa using h.auxpow_iff
    refine ⟨serPureHeader header ++ serAuxPow fAllowWitness a, by simp [serBlockHeader, hbit], ?_⟩
    rw [List.append_assoc, readBlockHeader, roundTrip_readPureHeader.run_bind trivial]
    simp only [hbit, if_true]
    rw [run_bind_of_ok (run_readAuxPow fAllowWitness (h.auxpow a rfl) rest)]
    cases fAllowWitness <;> rfl

/-- What a block's format carries: its header, and at most `MAX_SIZE` transactions that their
format carries. -/
structure BlockWf (b : CBlock) : Prop where
  header : HeaderWf b.toCBlockHeader
  vtx_length : b.vtx.length ≤ MAX_SIZE
  vtx : ∀ tx ∈ b.vtx, TxWf tx

/-- The block with every witness left behind: its transactions' and its auxpow coinbase's. -/
def CBlock.stripWitness (b : CBlock) : CBlock :=
  { toCBlockHeader := b.toCBlockHeader.stripWitness, vtx := b.vtx.map CTransaction.stripWitness }

/-- **A block reads back.**  Written to a stream that allows witnesses it reads back whole, and
written without them it reads back without its witnesses, consuming exactly what was written. -/
theorem readBlock_serBlock (fAllowWitness : Bool) (b : CBlock) (h : BlockWf b)
    (rest : List UInt8) :
    ∃ bytes, serBlock fAllowWitness b = some bytes ∧
      (readBlock fAllowWitness).run (bytes ++ rest) =
        .ok (if fAllowWitness then b else b.stripWitness, rest) := by
  obtain ⟨header, hser, hread⟩ := run_readBlockHeader fAllowWitness h.header
    (serVector (SerializeTransaction fAllowWitness) b.vtx ++ rest)
  refine ⟨header ++ serVector (SerializeTransaction fAllowWitness) b.vtx,
    by simp [serBlock, hser], ?_⟩
  -- each transaction reads back as itself, or without its witnesses
  have hvtx := run_readVector_map
    (fun tx rest htx => run_UnserializeTransaction fAllowWitness htx rest) b.vtx rest
    h.vtx_length h.vtx
  rw [List.append_assoc, readBlock, run_bind_of_ok hread, run_bind_of_ok hvtx]
  cases fAllowWitness
  · rfl
  · simp

/-- A transaction of one input with a witness and one output. -/
def witnessTx (prevout : COutPoint) : CTransaction :=
  ⟨2, [⟨prevout, [1, 2], 0xffffffff, [[5, 6]]⟩], [⟨50, [0x51]⟩], 0⟩

theorem txWf_witnessTx (prevout : COutPoint) : TxWf (witnessTx prevout) :=
  ⟨by simp [witnessTx], by simp [witnessTx, MAX_SIZE], by simp [witnessTx, MAX_SIZE],
    by simp [witnessTx, MAX_SIZE], by simp [witnessTx, WitnessWf, MAX_SIZE],
    by simp [witnessTx, TxOutWf, Int64Range, MAX_SIZE]⟩

/-- A merge-mined block: the version has the auxpow bit, and the auxpow's parent coinbase and
the block's one transaction both carry a witness. -/
def auxpowBlock : CBlock :=
  { nVersion := 0x101, hashPrevBlock := Uint256.zero, hashMerkleRoot := Uint256.zero, nTime := 0,
    nBits := 0, nNonce := 0,
    auxpow := some ⟨witnessTx ⟨Uint256.zero, 0xffffffff⟩, Uint256.zero, [Uint256.zero], 0,
      [Uint256.zero, Uint256.zero], 3, ⟨1, Uint256.zero, Uint256.zero, 0, 0, 0⟩⟩,
    vtx := [witnessTx ⟨Uint256.zero, 0⟩] }

theorem readBlock_serBlock_auxpowBlock :
    BlockWf auxpowBlock ∧
      (∃ bytes, serBlock true auxpowBlock = some bytes ∧
        (readBlock true).run (bytes ++ []) =
          .ok (if true = true then auxpowBlock else auxpowBlock.stripWitness, [])) ∧
      ∃ bytes, serBlock false auxpowBlock = some bytes ∧
        (readBlock false).run (bytes ++ []) =
          .ok (if false = true then auxpowBlock else auxpowBlock.stripWitness, []) :=
  have hwf : BlockWf auxpowBlock :=
    { header :=
        ⟨by decide, by
          simp only [auxpowBlock, Option.mem_def, Option.some.injEq, forall_eq']
          exact ⟨txWf_witnessTx _, by simp [MAX_SIZE], by simp [IntRange], by simp [MAX_SIZE],
            by simp [IntRange]⟩⟩
      vtx_length := by simp [auxpowBlock, MAX_SIZE]
      vtx := by
        simp only [auxpowBlock, List.mem_singleton, forall_eq]
        exact txWf_witnessTx _ }
  ⟨hwf, readBlock_serBlock true auxpowBlock hwf [], readBlock_serBlock false auxpowBlock hwf []⟩

/-- A block, without auxpow, of one transaction spending one input with the script `script`. -/
def oneScriptBlock (script : List UInt8) : CBlock :=
  { nVersion := 1, hashPrevBlock := Uint256.zero, hashMerkleRoot := Uint256.zero, nTime := 0,
    nBits := 0, nNonce := 0, auxpow := none,
    vtx := [⟨1, [⟨⟨Uint256.zero, 0⟩, script, 0, []⟩], [], 0⟩] }

/-- An input script above `MAX_SIZE` is written, but reading the block back throws at its
size. -/
theorem readBlock_oneScriptBlock (fAllowWitness : Bool) {script : List UInt8}
    (hs : MAX_SIZE < script.length) (hs' : script.length ≤ 0xffffffff) :
    ∃ bytes, serBlock fAllowWitness (oneScriptBlock script) = some bytes ∧
      (readBlock fAllowWitness).run bytes = .error "ReadCompactSize(): size too large" := by
  have hbit : (⟨1, Uint256.zero, Uint256.zero, 0, 0, 0⟩ : CPureBlockHeader).IsAuxpow = false := by
    decide
  have hone : (1 : Nat) ≤ MAX_SIZE := by decide
  have hheader := fun rest => roundTrip_readPureHeader ⟨1, Uint256.zero, Uint256.zero, 0, 0, 0⟩ rest trivial
  have hsize := fun rest => roundTrip_ReadCompactSize 1 rest hone
  have houtpoint := fun rest => roundTrip_readOutPoint ⟨Uint256.zero, 0⟩ rest trivial
  refine ⟨_, by simp [serBlock, serBlockHeader, oneScriptBlock, hbit]; rfl, ?_⟩
  -- the header, the transaction count, the version, the input count and the outpoint read back;
  -- the script's size throws
  simp [-Except.bind_eq_error, readBlock, readBlockHeader, hbit, hheader, readVector, serVector,
    hsize, readN, SerializeTransaction, CTransaction.HasWitness, UnserializeTransaction,
    run_readInt32_serInt32, readTxIn, serTxIn, houtpoint, readScript, serScript,
    run_ReadCompactSize_too_large hs hs']

/-- An input script of `MAX_SIZE + 1` zero bytes. -/
def oversizedScript : List UInt8 := List.replicate (MAX_SIZE + 1) 0

theorem length_oversizedScript : oversizedScript.length = MAX_SIZE + 1 :=
  List.length_replicate

/-- The conditions of a round trip on the header and the inputs do not suffice: a block with no
auxpow bit and no auxpow, whose one transaction has an input, with a script of `MAX_SIZE + 1`
bytes, is written, but reading it back throws. -/
theorem readBlock_oversized_script :
    ((oneScriptBlock oversizedScript).IsAuxpow = true ↔
        (oneScriptBlock oversizedScript).auxpow.isSome = true) ∧
      (∀ tx ∈ (oneScriptBlock oversizedScript).vtx, tx.vin ≠ []) ∧
      ∃ bytes, serBlock true (oneScriptBlock oversizedScript) = some bytes ∧
        (readBlock true).run bytes = .error "ReadCompactSize(): size too large" := by
  have hbit : (oneScriptBlock oversizedScript).IsAuxpow = false := rfl
  -- the length is read off the lemma: reducing the replicate itself would unfold 2^25 cells
  have hlong : MAX_SIZE < oversizedScript.length := by
    rw [length_oversizedScript]
    exact Nat.lt_add_one MAX_SIZE
  have hfits : oversizedScript.length ≤ 0xffffffff := by
    rw [length_oversizedScript]
    decide
  refine ⟨by rw [hbit]; simp [oneScriptBlock], by simp [oneScriptBlock], ?_⟩
  exact readBlock_oneScriptBlock true hlong hfits

end Unitus
