import Unitus.Script.SigHashCorrect

/-!
# Script — `SignatureHash` against `SignatureHashOld`

For `SIGVERSION_BASE`, `SignatureHash` streams the transaction through
`CTransactionSignatureSerializer`; `SignatureHashOld` edits a copy and serializes it.  Written
with the script-code bytes as a parameter (`serializeWith`), the serializer's stream carries
them once, between bytes that do not depend on them (`serializeWith_split`), and the copy's
serialization is that stream with the script after `FindAndDelete` as the script code
(`serTransaction_signatureHashOldTx`).

So the two hash one stream exactly when `SerializeScriptCode` writes what the copy writes,
which is when `GetOp` reads the script code to its end (`SignatureHash_base_streams`,
`SignatureHash_eq_SignatureHashOld`).  Where the last op of the script code is a push cut
short, the serializer announces the script's length without separators but writes only the
bytes up to where the failing `GetOp` stopped.
-/

namespace Unitus

open CScript

/-- A list's `flatMap`, read by index. -/
theorem flatMap_eq_flatMap_range {α β : Type} (f : α → List β) (d : α) :
    ∀ l : List α, l.flatMap f = (List.range l.length).flatMap fun i => f (l.getD i d)
  | [] => rfl
  | a :: l => by
    rw [List.flatMap_cons, List.length_cons, List.range_succ_eq_map, List.flatMap_cons,
      List.flatMap_map, flatMap_eq_flatMap_range f d l]
    rfl

/-- A zero sequence written as an `int32_t` is the same bytes as a `uint32_t` one. -/
@[simp] theorem serInt32_zero : serInt32 0 = serUInt32 0 := rfl

namespace CTransactionSignatureSerializer

variable (t : CTransactionSignatureSerializer)

/-- `SerializeInput`, with `code` written for the script code. -/
def inputWith (code : List UInt8) (nInput : Nat) : List UInt8 :=
  let nInput := if t.fAnyoneCanPay then t.nIn else nInput
  let txin := t.txTo.vin.getD nInput default
  serOutPoint txin.prevout ++ (if nInput ≠ t.nIn then serScript [] else code) ++
    (if nInput ≠ t.nIn ∧ (t.fHashSingle || t.fHashNone) then serInt32 0
      else serUInt32 txin.nSequence)

/-- `Serialize`, with `code` written for the script code. -/
def serializeWith (code : List UInt8) : List UInt8 :=
  let nInputs := if t.fAnyoneCanPay then 1 else t.txTo.vin.length
  let nOutputs := if t.fHashNone then 0 else if t.fHashSingle then t.nIn + 1 else t.txTo.vout.length
  serInt32 t.txTo.nVersion ++
    WriteCompactSize nInputs ++ (List.range nInputs).flatMap (t.inputWith code) ++
    WriteCompactSize nOutputs ++ (List.range nOutputs).flatMap t.SerializeOutput ++
    serUInt32 t.txTo.nLockTime

theorem Serialize_eq_serializeWith : t.Serialize = t.serializeWith t.SerializeScriptCode := rfl

theorem inputWith_of_ne (hA : t.fAnyoneCanPay = false) {i : Nat} (hi : i ≠ t.nIn)
    (code : List UInt8) : t.inputWith code i = t.inputWith [] i := by
  simp [inputWith, hA, hi]

theorem inputWith_nIn (code : List UInt8) :
    t.inputWith code t.nIn = serOutPoint (t.txTo.vin.getD t.nIn default).prevout ++ code ++
      serUInt32 (t.txTo.vin.getD t.nIn default).nSequence := by
  simp [inputWith]

theorem inputWith_of_anyoneCanPay (hA : t.fAnyoneCanPay = true) (code : List UInt8) (i : Nat) :
    t.inputWith code i = t.inputWith code t.nIn := by
  simp [inputWith, hA]

/-- The inputs write `code` once, in input `nIn`. -/
theorem inputs_split (h : t.nIn < t.txTo.vin.length) : ∃ P Q : List UInt8, ∀ code,
    (List.range (if t.fAnyoneCanPay then 1 else t.txTo.vin.length)).flatMap (t.inputWith code) =
      P ++ code ++ Q := by
  cases hA : t.fAnyoneCanPay
  · -- every input is written, and only input `nIn` reads the code
    obtain ⟨m, hm⟩ := Nat.exists_eq_add_of_lt h
    have hlow : ∀ code, (List.range t.nIn).flatMap (t.inputWith code) =
        (List.range t.nIn).flatMap (t.inputWith []) := fun code =>
      List.flatMap_congr fun i hi => t.inputWith_of_ne hA (Nat.ne_of_lt (List.mem_range.mp hi)) code
    have hhigh : ∀ code, ((List.range m).map (t.nIn + 1 + ·)).flatMap (t.inputWith code) =
        ((List.range m).map (t.nIn + 1 + ·)).flatMap (t.inputWith []) := fun code =>
      List.flatMap_congr fun i hi => by
        obtain ⟨j, -, rfl⟩ := List.mem_map.mp hi
        exact t.inputWith_of_ne hA (by omega) code
    refine ⟨(List.range t.nIn).flatMap (t.inputWith []) ++
        serOutPoint (t.txTo.vin.getD t.nIn default).prevout,
      serUInt32 (t.txTo.vin.getD t.nIn default).nSequence ++
        ((List.range m).map (t.nIn + 1 + ·)).flatMap (t.inputWith []), fun code => ?_⟩
    rw [if_neg Bool.false_ne_true, hm, show t.nIn + m + 1 = t.nIn + 1 + m by omega, List.range_add,
      List.range_succ, List.flatMap_append,
      List.flatMap_append, hlow, hhigh, List.flatMap_singleton, inputWith_nIn]
    simp only [List.append_assoc]
  · -- input `nIn` alone
    refine ⟨serOutPoint (t.txTo.vin.getD t.nIn default).prevout,
      serUInt32 (t.txTo.vin.getD t.nIn default).nSequence, fun code => ?_⟩
    rw [if_pos rfl, List.range_one, List.flatMap_singleton, inputWith_of_anyoneCanPay t hA,
      inputWith_nIn]

/-- **The script code is written once.**  The serializer's stream is the script-code bytes
between two streams that do not depend on them. -/
theorem serializeWith_split (h : t.nIn < t.txTo.vin.length) :
    ∃ P Q : List UInt8, ∀ code, t.serializeWith code = P ++ code ++ Q := by
  obtain ⟨P, Q, hPQ⟩ := t.inputs_split h
  refine ⟨serInt32 t.txTo.nVersion ++
      WriteCompactSize (if t.fAnyoneCanPay then 1 else t.txTo.vin.length) ++ P,
    Q ++ WriteCompactSize (if t.fHashNone then 0 else if t.fHashSingle then t.nIn + 1
        else t.txTo.vout.length) ++
      (List.range (if t.fHashNone then 0 else if t.fHashSingle then t.nIn + 1
        else t.txTo.vout.length)).flatMap t.SerializeOutput ++ serUInt32 t.txTo.nLockTime,
    fun code => ?_⟩
  simp only [serializeWith, hPQ, List.append_assoc]

end CTransactionSignatureSerializer

open CTransactionSignatureSerializer

/-! ### The copy `SignatureHashOld` serializes -/

section Old

variable {scriptCode : CScript} {txTo : CTransaction} {nIn : Nat} {nHashType : Int32}

theorem fAnyoneCanPay_ofHashType :
    (ofHashType txTo scriptCode nIn nHashType).fAnyoneCanPay = true ↔
      (nHashType &&& SIGHASH_ANYONECANPAY) ≠ 0 := by
  simp [ofHashType]

theorem fHashSingle_ofHashType :
    (ofHashType txTo scriptCode nIn nHashType).fHashSingle = true ↔
      (nHashType &&& 0x1f) = SIGHASH_SINGLE := by
  simp [ofHashType]

theorem fHashNone_ofHashType :
    (ofHashType txTo scriptCode nIn nHashType).fHashNone = true ↔
      (nHashType &&& 0x1f) = SIGHASH_NONE := by
  simp [ofHashType]

@[simp] theorem signatureHashOldTx_nVersion :
    (signatureHashOldTx scriptCode txTo nIn nHashType).nVersion = txTo.nVersion := by
  simp only [signatureHashOldTx]

@[simp] theorem signatureHashOldTx_nLockTime :
    (signatureHashOldTx scriptCode txTo nIn nHashType).nLockTime = txTo.nLockTime := by
  simp only [signatureHashOldTx]

/-- The copy has as many inputs as the serializer writes. -/
theorem length_signatureHashOldTx_vin :
    (signatureHashOldTx scriptCode txTo nIn nHashType).vin.length =
      if (ofHashType txTo scriptCode nIn nHashType).fAnyoneCanPay then 1
      else txTo.vin.length := by
  by_cases hA : (nHashType &&& SIGHASH_ANYONECANPAY) ≠ 0
  · rw [if_pos (fAnyoneCanPay_ofHashType.mpr hA)]
    simp only [signatureHashOldTx, if_pos hA]
    split_ifs <;> rfl
  · rw [if_neg (mt fAnyoneCanPay_ofHashType.mp hA)]
    simp only [signatureHashOldTx, if_neg hA]
    split_ifs <;> simp

/-- Each input of the copy is written as the serializer writes that input, with the script
after `FindAndDelete` for the script code. -/
theorem serTxIn_signatureHashOldTx (h : nIn < txTo.vin.length) {i : Nat}
    (hi : i < if (ofHashType txTo scriptCode nIn nHashType).fAnyoneCanPay then 1
      else txTo.vin.length) :
    serTxIn ((signatureHashOldTx scriptCode txTo nIn nHashType).vin.getD i default) =
      (ofHashType txTo scriptCode nIn nHashType).inputWith
        (serScript (FindAndDelete scriptCode [OP_CODESEPARATOR]).1) i := by
  by_cases hA : (nHashType &&& SIGHASH_ANYONECANPAY) ≠ 0
  · -- the copy keeps input `nIn` alone, and the serializer writes it for every index
    rw [if_pos (fAnyoneCanPay_ofHashType.mpr hA)] at hi
    obtain rfl : i = 0 := by omega
    simp only [signatureHashOldTx, if_pos hA]
    split_ifs <;>
      simp [List.getD_eq_getElem?_getD, h, inputWith, ofHashType, hA,
        serTxIn]
  · rw [if_neg (mt fAnyoneCanPay_ofHashType.mp hA)] at hi
    simp only [signatureHashOldTx, if_neg hA]
    -- the input being signed gets the script code, the others a blank script
    rcases eq_or_ne i nIn with rfl | hne
    · split_ifs <;>
        simp [List.getD_eq_getElem?_getD, h, inputWith, ofHashType, hA,
          serTxIn]
    · split_ifs <;>
        simp_all [List.getD_eq_getElem?_getD, inputWith, ofHashType,
          serTxIn, hne.symm]

/-- The copy has as many outputs as the serializer writes. -/
theorem length_signatureHashOldTx_vout
    (hs : ¬((nHashType &&& 0x1f) = SIGHASH_SINGLE ∧ txTo.vout.length ≤ nIn)) :
    (signatureHashOldTx scriptCode txTo nIn nHashType).vout.length =
      if (ofHashType txTo scriptCode nIn nHashType).fHashNone then 0
      else if (ofHashType txTo scriptCode nIn nHashType).fHashSingle then nIn + 1
      else txTo.vout.length := by
  simp only [signatureHashOldTx]
  split_ifs <;> simp_all [ofHashType]

/-- Each output of the copy is written as the serializer writes that output. -/
theorem serTxOut_signatureHashOldTx
    (hs : ¬((nHashType &&& 0x1f) = SIGHASH_SINGLE ∧ txTo.vout.length ≤ nIn)) {i : Nat}
    (hi : i < if (ofHashType txTo scriptCode nIn nHashType).fHashNone then 0
      else if (ofHashType txTo scriptCode nIn nHashType).fHashSingle then nIn + 1
      else txTo.vout.length) :
    serTxOut ((signatureHashOldTx scriptCode txTo nIn nHashType).vout.getD i default) =
      (ofHashType txTo scriptCode nIn nHashType).SerializeOutput i := by
  by_cases hN : (nHashType &&& 0x1f) = SIGHASH_NONE
  · rw [if_pos (fHashNone_ofHashType.mpr hN)] at hi
    exact absurd hi (Nat.not_lt_zero i)
  have hN' : (ofHashType txTo scriptCode nIn nHashType).fHashNone = false :=
    Bool.eq_false_iff.mpr (mt fHashNone_ofHashType.mp hN)
  rw [if_neg (by simp [hN'])] at hi
  by_cases hS : (nHashType &&& 0x1f) = SIGHASH_SINGLE
  · -- the outputs up to `nIn`, those before it null
    rw [if_pos (fHashSingle_ofHashType.mpr hS)] at hi
    have hv : nIn < txTo.vout.length := by
      by_contra hv
      exact hs ⟨hS, Nat.le_of_not_lt hv⟩
    simp only [signatureHashOldTx, if_neg hN, if_pos hS]
    rcases Nat.lt_or_eq_of_le (Nat.le_of_lt_succ hi) with hlt | rfl
    · have hi' : i < txTo.vout.length := by omega
      simp [List.getD_eq_getElem?_getD, SerializeOutput, ofHashType, hS, hlt,
        hlt.ne, hi, hi']
    · simp [List.getD_eq_getElem?_getD, SerializeOutput, ofHashType, hS, hv]
  · -- every output as it is
    rw [if_neg (mt fHashSingle_ofHashType.mp hS)] at hi
    simp only [signatureHashOldTx, if_neg hN, if_neg hS]
    simp [SerializeOutput, ofHashType, hS]

/-- **The copy is the serializer's stream with the reference script code.** -/
theorem serTransaction_signatureHashOldTx (h : nIn < txTo.vin.length)
    (hs : ¬((nHashType &&& 0x1f) = SIGHASH_SINGLE ∧ txTo.vout.length ≤ nIn)) :
    serTransaction (signatureHashOldTx scriptCode txTo nIn nHashType) =
      (ofHashType txTo scriptCode nIn nHashType).serializeWith
        (serScript (FindAndDelete scriptCode [OP_CODESEPARATOR]).1) := by
  rw [serTransaction, serVector, serVector, flatMap_eq_flatMap_range serTxIn default,
    flatMap_eq_flatMap_range serTxOut default, length_signatureHashOldTx_vin,
    length_signatureHashOldTx_vout hs,
    List.flatMap_congr fun i hi => serTxIn_signatureHashOldTx h (List.mem_range.mp hi),
    List.flatMap_congr fun i hi => serTxOut_signatureHashOldTx hs (List.mem_range.mp hi)]
  simp only [serializeWith, signatureHashOldTx_nVersion, signatureHashOldTx_nLockTime,
    List.append_assoc]
  rfl

end Old

/-! ### The two hashes -/

section Hash

variable (hash : List UInt8 → Uint256) {scriptCode : CScript} {txTo : CTransaction} {nIn : Nat}
  {nHashType : Int32}

/-- Where `nIn` is out of range, or `SIGHASH_SINGLE` has no output `nIn`, both return one. -/
theorem SignatureHash_base_of_one
    (h : txTo.vin.length ≤ nIn ∨ ((nHashType &&& 0x1f) = SIGHASH_SINGLE ∧ txTo.vout.length ≤ nIn))
    (amount : Int) :
    SignatureHash hash scriptCode txTo nIn nHashType amount .SIGVERSION_BASE =
      some (SignatureHashOld hash scriptCode txTo nIn nHashType) := by
  by_cases hv : txTo.vin.length ≤ nIn
  · simp [SignatureHash, SignatureHashOld, hv]
  · have hs := h.resolve_left hv
    simp [SignatureHash, SignatureHashOld, hv, hs]

/-- Otherwise `SignatureHash` hashes the serializer's stream, and `SignatureHashOld` that stream
with the reference script code. -/
theorem SignatureHash_base_eq (h : nIn < txTo.vin.length)
    (hs : ¬((nHashType &&& 0x1f) = SIGHASH_SINGLE ∧ txTo.vout.length ≤ nIn)) (amount : Int) :
    SignatureHash hash scriptCode txTo nIn nHashType amount .SIGVERSION_BASE =
        some (hash ((ofHashType txTo scriptCode nIn nHashType).serializeWith
          (ofHashType txTo scriptCode nIn nHashType).SerializeScriptCode ++ serInt32 nHashType)) ∧
      SignatureHashOld hash scriptCode txTo nIn nHashType =
        hash ((ofHashType txTo scriptCode nIn nHashType).serializeWith
          (serScript (FindAndDelete scriptCode [OP_CODESEPARATOR]).1) ++ serInt32 nHashType) := by
  refine ⟨?_, ?_⟩
  · simp only [SignatureHash, if_neg (Nat.not_le.mpr h), if_neg hs, Serialize_eq_serializeWith]
  · rw [SignatureHashOld, if_neg (Nat.not_le.mpr h), if_neg hs,
      serTransaction_signatureHashOldTx h hs]

/-- **On a script code `GetOp` reads to its end, `SignatureHash` is `SignatureHashOld`.** -/
theorem SignatureHash_eq_SignatureHashOld (hfull : failPc scriptCode = scriptCode.length)
    (amount : Int) :
    SignatureHash hash scriptCode txTo nIn nHashType amount .SIGVERSION_BASE =
      some (SignatureHashOld hash scriptCode txTo nIn nHashType) := by
  by_cases hone :
      txTo.vin.length ≤ nIn ∨ ((nHashType &&& 0x1f) = SIGHASH_SINGLE ∧ txTo.vout.length ≤ nIn)
  · exact SignatureHash_base_of_one hash hone amount
  · rw [not_or, Nat.not_le] at hone
    obtain ⟨h₁, h₂⟩ := SignatureHash_base_eq hash hone.1 hone.2 amount
    -- the serializer's script code is `scriptCode`
    rw [h₁, h₂, (SerializeScriptCode_eq_iff (ofHashType txTo scriptCode nIn nHashType)).mpr hfull]
    rfl

/-- `OP_CODESEPARATOR OP_CHECKSIG`: both drop the separator and hash the one stream. -/
theorem SignatureHash_eq_SignatureHashOld_codesep :
    failPc [0xAB, 0xAC] = ([0xAB, 0xAC] : CScript).length ∧
      ∀ hash : List UInt8 → Uint256,
        SignatureHash hash [0xAB, 0xAC] ⟨1, [default], [default], 0⟩ 0 1 0 .SIGVERSION_BASE =
          some (SignatureHashOld hash [0xAB, 0xAC] ⟨1, [default], [default], 0⟩ 0 1) :=
  ⟨by decide, fun hash => SignatureHash_eq_SignatureHashOld hash (by decide) 0⟩

end Hash

/-- **`SignatureHash` and `SignatureHashOld` hash one stream exactly when `GetOp` reads the
script code to its end.**  For `SIGVERSION_BASE`, an `nIn` in range and, under
`SIGHASH_SINGLE`, an output `nIn`, the two hash streams `S` and `S'` that differ only in the
script code; `S'` is longer by the bytes after where the first failing `GetOp` stopped. -/
theorem SignatureHash_base_streams {scriptCode : CScript} {txTo : CTransaction} {nIn : Nat}
    {nHashType : Int32} (h : nIn < txTo.vin.length)
    (hs : ¬((nHashType &&& 0x1f) = SIGHASH_SINGLE ∧ txTo.vout.length ≤ nIn)) :
    ∃ S S' : List UInt8, S'.length = S.length + (scriptCode.length - failPc scriptCode) ∧
      (S = S' ↔ failPc scriptCode = scriptCode.length) ∧
      ∀ (hash : List UInt8 → Uint256) (amount : Int),
        SignatureHash hash scriptCode txTo nIn nHashType amount .SIGVERSION_BASE =
          some (hash (S ++ serInt32 nHashType)) ∧
        SignatureHashOld hash scriptCode txTo nIn nHashType = hash (S' ++ serInt32 nHashType) := by
  obtain ⟨P, Q, hPQ⟩ := (ofHashType txTo scriptCode nIn nHashType).serializeWith_split h
  refine ⟨_, _, ?_, ?_, fun hash amount => SignatureHash_base_eq hash h hs amount⟩
  · -- the script codes differ in length by the bytes after the failing `GetOp`
    have hlen : (ofHashType txTo scriptCode nIn nHashType).SerializeScriptCode.length +
        (scriptCode.length - failPc scriptCode) =
          (serScript (FindAndDelete scriptCode [OP_CODESEPARATOR]).1).length :=
      length_SerializeScriptCode _
    rw [hPQ, hPQ]
    simp only [List.length_append]
    omega
  · rw [hPQ, hPQ, List.append_cancel_right_eq, List.append_cancel_left_eq]
    exact SerializeScriptCode_eq_iff (ofHashType txTo scriptCode nIn nHashType)

theorem SignatureHash_base_streams_truncated_push :
    failPc [0x02, 0xAA] = 1 ∧
      ∃ S S' : List UInt8,
        S'.length = S.length + (([0x02, 0xAA] : CScript).length - failPc [0x02, 0xAA]) ∧
        (S = S' ↔ failPc [0x02, 0xAA] = ([0x02, 0xAA] : CScript).length) ∧
        ∀ (hash : List UInt8 → Uint256) (amount : Int),
          SignatureHash hash [0x02, 0xAA] ⟨1, [default], [default], 0⟩ 0 1 amount
              .SIGVERSION_BASE = some (hash (S ++ serInt32 1)) ∧
          SignatureHashOld hash [0x02, 0xAA] ⟨1, [default], [default], 0⟩ 0 1 =
            hash (S' ++ serInt32 1) :=
  ⟨by decide, SignatureHash_base_streams (by decide) (by decide)⟩

end Unitus
