import Unitus.Primitives.SerializeCorrect

/-!
# Net — `BlockTransactionsRequest`

A `BlockTransactionsRequest` (`blockencodings.h`) asks for the transactions of a block at some
`uint16_t` indexes.  It is written as the block hash, `COMPACTSIZE` of the number of indexes,
and each index as `COMPACTSIZE` of its difference from the index before it plus one.  The reader
reads the differences (in chunks of a thousand, which reads the same ones), rejects one above
`0xffff`, and adds them up with a running `uint16_t` offset, rejecting a sum above `0xffff`.

**Round trip** (`Unserialize_Serialize`): a strictly increasing list of indexes reads back as
written, and the read leaves what followed.

**What the reader accepts** (`offsetLoop_chain`): every index it returns is above the one
before, except after `0xffff`: there the offset `indexes[j] + 1` wraps to `0` and the next index
starts over.  So the bytes of the differences `[0xffff, 0]` read as the indexes `[0xffff, 0]`
(`Unserialize_after_0xffff`), although the second absolute index is `0x10000`.
-/

namespace Unitus

open Codec

/-- `BlockTransactionsRequest`. -/
structure BlockTransactionsRequest where
  blockhash : Uint256
  indexes : List UInt16

namespace BlockTransactionsRequest

/-! ### The model -/

/-- The write loop from `prev`, which is `0` at the first index and `indexes[i-1] + 1` after:
`COMPACTSIZE(indexes[i] - prev)`, the difference taken in `int` and stored in a `uint64_t`. -/
def writeIndexes (prev : Nat) : List UInt16 → List UInt8
  | [] => []
  | index :: indexes =>
    WriteCompactSize (((index.toNat : Int) - prev) % 2 ^ 64).toNat ++
      writeIndexes (index.toNat + 1) indexes

/-- `SerializationOp` writing. -/
def Serialize (req : BlockTransactionsRequest) : List UInt8 :=
  serUint256 req.blockhash ++ WriteCompactSize req.indexes.length ++ writeIndexes 0 req.indexes

/-- One difference: `COMPACTSIZE(index)`, at most `0xffff`. -/
def readIndex : StreamReader UInt16 := do
  let index ← ReadCompactSize
  if index > 0xffff then throw "index overflowed 16 bits"
  pure index.toUInt16

/-- The loop that adds the differences up from the `uint16_t` `offset`: each sum at most
`0xffff`, and the next offset the sum plus one, truncated to 16 bits. -/
def offsetLoop (offset : UInt16) : List UInt16 → StreamReader (List UInt16)
  | [] => pure []
  | index :: indexes => do
    if index.toNat + offset.toNat > 0xffff then throw "indexes overflowed 16 bits"
    let index := index + offset
    let indexes ← offsetLoop (index + 1) indexes
    pure (index :: indexes)

/-- `SerializationOp` reading. -/
def Unserialize : StreamReader BlockTransactionsRequest := do
  let blockhash ← readUint256
  let indexes_size ← ReadCompactSize
  let indexes ← readN readIndex indexes_size
  let indexes ← offsetLoop 0 indexes
  pure ⟨blockhash, indexes⟩

/-! ### The round trip -/

/-- The indexes from `prev` on, each above the one before: what the writer's differences
assume. -/
def IncreasingFrom : Nat → List UInt16 → Prop
  | _, [] => True
  | prev, index :: indexes => prev ≤ index.toNat ∧ IncreasingFrom (index.toNat + 1) indexes

/-- The differences the writer stores, from `prev` on. -/
def diffs (prev : Nat) : List UInt16 → List UInt16
  | [] => []
  | index :: indexes => (index.toNat - prev).toUInt16 :: diffs (index.toNat + 1) indexes

theorem length_diffs (prev : Nat) : ∀ l : List UInt16, (diffs prev l).length = l.length
  | [] => rfl
  | _ :: l => by rw [diffs, List.length_cons, List.length_cons, length_diffs _ l]

/-- Indexes above `prev`, each above the one before, are at most `0x10000 - prev`. -/
theorem length_add_le_of_increasingFrom :
    ∀ {prev : Nat} {l : List UInt16}, IncreasingFrom prev l → prev ≤ 0x10000 →
      l.length + prev ≤ 0x10000
  | _, [], _, hprev => by simpa using hprev
  | prev, x :: xs, ⟨hx, hxs⟩, _ => by
    have hlt := x.toNat_lt
    have := length_add_le_of_increasingFrom hxs (by omega)
    rw [List.length_cons]
    omega

theorem increasingFrom_of_pairwise {prev : Nat} :
    ∀ {l : List UInt16}, l.Pairwise (· < ·) → (∀ x ∈ l, prev ≤ x.toNat) → IncreasingFrom prev l
  | [], _, _ => trivial
  | x :: xs, hl, hprev => by
    rw [List.pairwise_cons] at hl
    exact ⟨hprev x List.mem_cons_self, increasingFrom_of_pairwise hl.2 fun y hy =>
      UInt16.lt_iff_toNat_lt.mp (hl.1 y hy)⟩

/-- A difference reads back as written. -/
theorem run_readIndex {d : Nat} (hd : d ≤ 0xffff) (rest : List UInt8) :
    readIndex.run (WriteCompactSize d ++ rest) = .ok (d.toUInt16, rest) := by
  rw [readIndex, run_bind_of_ok (roundTrip_ReadCompactSize d rest
    (by simp only [MAX_SIZE]; omega)), if_neg (by omega)]
  rfl

/-- The differences the writer stores read back, each below `0x10000`. -/
theorem run_readN_writeIndexes :
    ∀ (prev : Nat) (l : List UInt16) (rest : List UInt8), IncreasingFrom prev l →
      (readN readIndex l.length).run (writeIndexes prev l ++ rest) = .ok (diffs prev l, rest)
  | _, [], _, _ => rfl
  | prev, x :: xs, rest, ⟨hx, hxs⟩ => by
    have hd : ((x.toNat : Int) - prev) % 2 ^ 64 = ((x.toNat - prev : Nat) : Int) := by
      have := x.toNat_lt
      rw [Int.emod_eq_of_lt (by omega) (by omega)]
      omega
    rw [List.length_cons, readN, writeIndexes, List.append_assoc, hd, Int.toNat_natCast,
      run_bind_of_ok (run_readIndex (by have := x.toNat_lt; omega) _),
      run_bind_of_ok (run_readN_writeIndexes _ xs rest hxs)]
    rfl

/-- Adding the differences up from `prev` gives the indexes back. -/
theorem offsetLoop_diffs :
    ∀ (prev : Nat) (l : List UInt16) (s : List UInt8), IncreasingFrom prev l →
      (offsetLoop prev.toUInt16 (diffs prev l)).run s = .ok (l, s)
  | _, [], _, _ => rfl
  | prev, x :: xs, s, ⟨hx, hxs⟩ => by
    have hlt := x.toNat_lt
    -- the offset is `prev` itself: it is at most `x`, so it fits 16 bits
    have hoff : prev.toUInt16.toNat = prev := by
      rw [Nat.toUInt16, UInt16.toNat_ofNat', Nat.mod_eq_of_lt (by omega)]
    have hdiff : (x.toNat - prev).toUInt16.toNat = x.toNat - prev := by
      rw [Nat.toUInt16, UInt16.toNat_ofNat', Nat.mod_eq_of_lt (by omega)]
    have hsum : (x.toNat - prev).toUInt16 + prev.toUInt16 = x := by
      apply UInt16.toNat_inj.mp
      rw [UInt16.toNat_add, hdiff, hoff, Nat.sub_add_cancel hx, Nat.mod_eq_of_lt hlt]
    have hnext : x + 1 = (x.toNat + 1).toUInt16 := by
      apply UInt16.toNat_inj.mp
      rw [Nat.toUInt16, UInt16.toNat_ofNat', UInt16.toNat_add, UInt16.toNat_one]
    rw [diffs, offsetLoop, if_neg (by rw [hdiff, hoff]; omega)]
    dsimp only
    rw [hsum, hnext, run_bind_of_ok (offsetLoop_diffs _ xs s hxs)]
    rfl

/-- **Round trip.**  A request whose indexes are strictly increasing reads back as written, and
the read leaves what followed. -/
theorem Unserialize_Serialize (req : BlockTransactionsRequest)
    (hinc : req.indexes.Pairwise (· < ·)) (rest : List UInt8) :
    Unserialize.run (req.Serialize ++ rest) = .ok (req, rest) := by
  have hfrom := @increasingFrom_of_pairwise 0 _ hinc fun x _ => Nat.zero_le _
  -- at most `0x10000` indexes, each one above the one before
  have hlen : req.indexes.length ≤ MAX_SIZE := by
    have := length_add_le_of_increasingFrom hfrom (by omega)
    simp only [MAX_SIZE]
    omega
  have hoffset := offsetLoop_diffs 0 _ rest hfrom
  rw [show (0 : Nat).toUInt16 = 0 from rfl] at hoffset
  rw [Serialize, List.append_assoc, List.append_assoc, Unserialize,
    roundTrip_readUint256.run_bind trivial, roundTrip_ReadCompactSize.run_bind hlen,
    run_bind_of_ok (run_readN_writeIndexes 0 _ rest hfrom),
    run_bind_of_ok hoffset]
  rfl

/-! ### What the reader accepts -/

/-- **The offset loop**, on any differences: it reads nothing, every index it returns is at
least the offset it starts from, and each is above the one before unless that one is `0xffff`,
after which the offset wraps to `0`. -/
theorem offsetLoop_chain :
    ∀ (offset : UInt16) (ds : List UInt16) (s s' : List UInt8) (l : List UInt16),
      (offsetLoop offset ds).run s = .ok (l, s') →
      s' = s ∧ (∀ x ∈ l.head?, offset ≤ x) ∧ l.IsChain (fun a b => a < b ∨ a = 0xffff)
  | offset, [], s, s', l, h => by
    obtain ⟨rfl, rfl⟩ := eq_of_run_pure h
    exact ⟨rfl, by simp, List.isChain_nil⟩
  | offset, d :: ds, s, s', l, h => by
    rw [offsetLoop] at h
    by_cases hov : d.toNat + offset.toNat > 0xffff
    · rw [if_pos hov] at h
      cases h
    rw [if_neg hov] at h
    dsimp only at h
    obtain ⟨l', s₁, h₁, h₂⟩ := run_bind_eq_ok.mp h
    obtain ⟨rfl, rfl⟩ := eq_of_run_pure h₂
    obtain ⟨hs, hhead, hchain⟩ := offsetLoop_chain _ ds s _ l' h₁
    -- the sum does not wrap
    have hsum : (d + offset).toNat = d.toNat + offset.toNat := by
      rw [UInt16.toNat_add, Nat.mod_eq_of_lt (by omega)]
    refine ⟨hs, ?_, ?_⟩
    · intro x hx
      cases hx
      rw [UInt16.le_iff_toNat_le, hsum]
      omega
    · refine List.isChain_cons.mpr ⟨fun y hy => ?_, hchain⟩
      by_cases hmax : (d + offset).toNat = 0xffff
      · exact .inr (UInt16.toNat_inj.mp hmax)
      · -- below `0xffff` the next offset is the sum plus one, and the next index is above it
        have hnext : (d + offset + 1).toNat = (d + offset).toNat + 1 := by
          rw [UInt16.toNat_add, UInt16.toNat_one, Nat.mod_eq_of_lt (by omega)]
        have := UInt16.le_iff_toNat_le.mp (hhead y hy)
        exact .inl (UInt16.lt_iff_toNat_lt.mpr (by omega))

/-- Every request the reader accepts has its indexes each above the one before, unless that one
is `0xffff`. -/
theorem Unserialize_isChain {s rest : List UInt8} {req : BlockTransactionsRequest}
    (h : Unserialize.run s = .ok (req, rest)) :
    req.indexes.IsChain (fun a b => a < b ∨ a = 0xffff) := by
  rw [Unserialize] at h
  obtain ⟨blockhash, s₁, -, h⟩ := run_bind_eq_ok.mp h
  obtain ⟨n, s₂, -, h⟩ := run_bind_eq_ok.mp h
  obtain ⟨ds, s₃, -, h⟩ := run_bind_eq_ok.mp h
  obtain ⟨l, s₄, hl, h⟩ := run_bind_eq_ok.mp h
  obtain ⟨rfl, rfl⟩ := eq_of_run_pure h
  exact (offsetLoop_chain 0 ds s₃ _ l hl).2.2

/-- The differences `[0xffff, 0]` read as the indexes `[0xffff, 0]`: the offset after `0xffff`
wraps to `0`, so the second index, `0x10000` from the start, passes the check. -/
theorem run_Unserialize_after_0xffff (blockhash : Uint256) :
    Unserialize.run (serUint256 blockhash ++ [2, 0xfd, 0xff, 0xff, 0]) =
      .ok (⟨blockhash, [0xffff, 0]⟩, []) := by
  rw [Unserialize, roundTrip_readUint256.run_bind trivial]
  rfl

/-- **`BlockTransactionsRequest` indexes.**  Strictly increasing indexes read back as written;
every request the reader accepts has its indexes each above the one before unless that one is
`0xffff`; and the reader does accept `[0xffff, 0]`, which is not increasing. -/
theorem SerializationOp_indexes :
    (∀ (req : BlockTransactionsRequest) (rest : List UInt8), req.indexes.Pairwise (· < ·) →
      Unserialize.run (req.Serialize ++ rest) = .ok (req, rest)) ∧
    (∀ (s rest : List UInt8) (req : BlockTransactionsRequest),
      Unserialize.run s = .ok (req, rest) →
      req.indexes.IsChain (fun a b => a < b ∨ a = 0xffff)) ∧
    (∀ blockhash : Uint256,
      Unserialize.run (serUint256 blockhash ++ [2, 0xfd, 0xff, 0xff, 0]) =
        .ok (⟨blockhash, [0xffff, 0]⟩, []) ∧ ¬ [(0xffff : UInt16), 0].Pairwise (· < ·)) :=
  ⟨fun req rest hinc => Unserialize_Serialize req hinc rest,
    fun _ _ _ h => Unserialize_isChain h,
    fun blockhash => ⟨run_Unserialize_after_0xffff blockhash, by decide⟩⟩

end BlockTransactionsRequest

end Unitus
