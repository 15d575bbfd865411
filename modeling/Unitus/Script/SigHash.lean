import Unitus.Script.Script

/-!
# Script — the signature hash

`SignatureHash` (`script/interpreter.cpp`) hashes, for `SIGVERSION_BASE`, the stream
`CTransactionSignatureSerializer` writes: the transaction with the script code in place of the
signed input's `scriptSig`, the other inputs blanked, and the outputs and sequences the hash
type leaves out replaced.  `SerializeScriptCode` writes the script code without its
`OP_CODESEPARATOR`s in two passes of `GetOp`: one counts them for the length, one writes the
bytes between them.  For `SIGVERSION_WITNESS_V0` it hashes the BIP 143 digest.

`SignatureHashOld` (`test/sighash_tests.cpp`) is the reference the source's tests compare
against: it copies the transaction, deletes the separators with `FindAndDelete`, edits the copy
and serializes it.

`nIn` is a `Nat`; the witness path reads `txTo.vin[nIn]` without a range check, so
`SignatureHash` is `none` there when `nIn` is out of range.
-/

namespace Unitus

/-- `SIGHASH_NONE`. -/
def SIGHASH_NONE : Int32 := 2
/-- `SIGHASH_SINGLE`. -/
def SIGHASH_SINGLE : Int32 := 3
/-- `SIGHASH_ANYONECANPAY`. -/
def SIGHASH_ANYONECANPAY : Int32 := 0x80

/-- `SigVersion`. -/
inductive SigVersion where
  | SIGVERSION_BASE
  | SIGVERSION_WITNESS_V0
  deriving DecidableEq, Repr

/-- `uint256S("0000…0001")`: the value 1, least significant byte first. -/
def uint256One : Uint256 := ⟨1 :: List.replicate 31 0, rfl⟩

open CScript

/-- The first loop of `SerializeScriptCode`: `while (scriptCode.GetOp(it, opcode)) if (opcode ==
OP_CODESEPARATOR) nCodeSeparators++;`. -/
def countCodeSeparators (scriptCode : CScript) : Nat → Nat → Nat → Nat
  | 0, _, nCodeSeparators => nCodeSeparators
  | fuel + 1, it, nCodeSeparators =>
    let r := GetOp2 scriptCode it
    if r.fRet then
      countCodeSeparators scriptCode fuel r.pc
        (if r.opcodeRet = OP_CODESEPARATOR then nCodeSeparators + 1 else nCodeSeparators)
    else nCodeSeparators

/-- The second loop of `SerializeScriptCode`: at each `OP_CODESEPARATOR` write the bytes from
`itBegin` to just before it, and restart `itBegin` after it.  Returns what was written, and
`itBegin` and `it` when `GetOp` fails. -/
def writeCodeSegments (scriptCode : CScript) :
    Nat → Nat → Nat → List UInt8 → List UInt8 × Nat × Nat
  | 0, itBegin, it, out => (out, itBegin, it)
  | fuel + 1, itBegin, it, out =>
    let r := GetOp2 scriptCode it
    if r.fRet then
      if r.opcodeRet = OP_CODESEPARATOR then
        writeCodeSegments scriptCode fuel r.pc r.pc (out ++ slice scriptCode itBegin (r.pc - itBegin - 1))
      else writeCodeSegments scriptCode fuel itBegin r.pc out
    else (out, itBegin, r.pc)

/-- `CTransactionSignatureSerializer`. -/
structure CTransactionSignatureSerializer where
  txTo : CTransaction
  scriptCode : CScript
  nIn : Nat
  fAnyoneCanPay : Bool
  fHashSingle : Bool
  fHashNone : Bool

namespace CTransactionSignatureSerializer

/-- The constructor, which reads the flags off `nHashType`. -/
def ofHashType (txTo : CTransaction) (scriptCode : CScript) (nIn : Nat) (nHashType : Int32) :
    CTransactionSignatureSerializer where
  txTo := txTo
  scriptCode := scriptCode
  nIn := nIn
  fAnyoneCanPay := (nHashType &&& SIGHASH_ANYONECANPAY) != 0
  fHashSingle := (nHashType &&& 0x1f) == SIGHASH_SINGLE
  fHashNone := (nHashType &&& 0x1f) == SIGHASH_NONE

variable (t : CTransactionSignatureSerializer)

/-- `SerializeScriptCode(s)`. -/
def SerializeScriptCode : List UInt8 :=
  let nCodeSeparators := countCodeSeparators t.scriptCode (t.scriptCode.length + 1) 0 0
  let (out, itBegin, it) := writeCodeSegments t.scriptCode (t.scriptCode.length + 1) 0 0 []
  WriteCompactSize (t.scriptCode.length - nCodeSeparators) ++ out ++
    (if itBegin ≠ t.scriptCode.length then slice t.scriptCode itBegin (it - itBegin) else [])

/-- `SerializeInput(s, nInput)`. -/
def SerializeInput (nInput : Nat) : List UInt8 :=
  let nInput := if t.fAnyoneCanPay then t.nIn else nInput
  let txin := t.txTo.vin.getD nInput default
  serOutPoint txin.prevout ++
    (if nInput ≠ t.nIn then serScript [] else t.SerializeScriptCode) ++
    (if nInput ≠ t.nIn ∧ (t.fHashSingle || t.fHashNone) then serInt32 0
      else serUInt32 txin.nSequence)

/-- `SerializeOutput(s, nOutput)`. -/
def SerializeOutput (nOutput : Nat) : List UInt8 :=
  if t.fHashSingle ∧ nOutput ≠ t.nIn then serTxOut CTxOut.null
  else serTxOut (t.txTo.vout.getD nOutput default)

/-- `Serialize(s)`. -/
def Serialize : List UInt8 :=
  let nInputs := if t.fAnyoneCanPay then 1 else t.txTo.vin.length
  let nOutputs := if t.fHashNone then 0 else if t.fHashSingle then t.nIn + 1 else t.txTo.vout.length
  serInt32 t.txTo.nVersion ++
    WriteCompactSize nInputs ++ (List.range nInputs).flatMap t.SerializeInput ++
    WriteCompactSize nOutputs ++ (List.range nOutputs).flatMap t.SerializeOutput ++
    serUInt32 t.txTo.nLockTime

end CTransactionSignatureSerializer

variable (hash : List UInt8 → Uint256)

/-- `GetPrevoutHash(txTo)`. -/
def GetPrevoutHash (txTo : CTransaction) : Uint256 :=
  hash (txTo.vin.flatMap fun i => serOutPoint i.prevout)

/-- `GetSequenceHash(txTo)`. -/
def GetSequenceHash (txTo : CTransaction) : Uint256 :=
  hash (txTo.vin.flatMap fun i => serUInt32 i.nSequence)

/-- `GetOutputsHash(txTo)`. -/
def GetOutputsHash (txTo : CTransaction) : Uint256 := hash (txTo.vout.flatMap serTxOut)

/-- `SignatureHash(scriptCode, txTo, nIn, nHashType, amount, sigversion, NULL)`. -/
def SignatureHash (scriptCode : CScript) (txTo : CTransaction) (nIn : Nat) (nHashType : Int32)
    (amount : Int) (sigversion : SigVersion) : Option Uint256 :=
  match sigversion with
  | .SIGVERSION_WITNESS_V0 =>
    if h : nIn < txTo.vin.length then
      let anyoneCanPay := (nHashType &&& SIGHASH_ANYONECANPAY) != 0
      let baseType := nHashType &&& 0x1f
      let hashPrevouts := if !anyoneCanPay then GetPrevoutHash hash txTo else Uint256.zero
      let hashSequence :=
        if !anyoneCanPay ∧ baseType ≠ SIGHASH_SINGLE ∧ baseType ≠ SIGHASH_NONE then
          GetSequenceHash hash txTo
        else Uint256.zero
      let hashOutputs :=
        if baseType ≠ SIGHASH_SINGLE ∧ baseType ≠ SIGHASH_NONE then GetOutputsHash hash txTo
        else if baseType = SIGHASH_SINGLE ∧ nIn < txTo.vout.length then
          hash (serTxOut (txTo.vout.getD nIn default))
        else Uint256.zero
      let txin := txTo.vin[nIn]
      some (hash (serInt32 txTo.nVersion ++ serUint256 hashPrevouts ++ serUint256 hashSequence ++
        serOutPoint txin.prevout ++ serScript scriptCode ++ serInt64 amount ++
        serUInt32 txin.nSequence ++ serUint256 hashOutputs ++ serUInt32 txTo.nLockTime ++
        serInt32 nHashType))
    else none
  | .SIGVERSION_BASE =>
    if txTo.vin.length ≤ nIn then some uint256One
    else if (nHashType &&& 0x1f) = SIGHASH_SINGLE ∧ txTo.vout.length ≤ nIn then some uint256One
    else
      let txTmp := CTransactionSignatureSerializer.ofHashType txTo scriptCode nIn nHashType
      some (hash (txTmp.Serialize ++ serInt32 nHashType))

/-- The copy `SignatureHashOld` edits, for an `nIn` in range: `scriptSig`s blanked and the
script code, without separators, in input `nIn`; for `SIGHASH_NONE` no outputs and the other
inputs' sequences zero; for `SIGHASH_SINGLE` the outputs up to `nIn`, those before it null, and
the other sequences zero; for `SIGHASH_ANYONECANPAY` input `nIn` alone. -/
def signatureHashOldTx (scriptCode : CScript) (txTo : CTransaction) (nIn : Nat)
    (nHashType : Int32) : CTransaction :=
  let scriptCode := (FindAndDelete scriptCode [OP_CODESEPARATOR]).1
  let vin := (txTo.vin.map fun txin => { txin with scriptSig := [] }).modify nIn
    fun txin => { txin with scriptSig := scriptCode }
  let zeroOthers (vin : List CTxIn) : List CTxIn :=
    vin.mapIdx fun i txin => if i ≠ nIn then { txin with nSequence := 0 } else txin
  let (vin, vout) :=
    if (nHashType &&& 0x1f) = SIGHASH_NONE then (zeroOthers vin, [])
    else if (nHashType &&& 0x1f) = SIGHASH_SINGLE then
      (zeroOthers vin, (txTo.vout.take (nIn + 1)).mapIdx fun i o => if i < nIn then CTxOut.null else o)
    else (vin, txTo.vout)
  let vin := if (nHashType &&& SIGHASH_ANYONECANPAY) ≠ 0 then [vin.getD nIn default] else vin
  { txTo with vin := vin, vout := vout }

/-- `SignatureHashOld(scriptCode, txTo, nIn, nHashType)` of `test/sighash_tests.cpp`. -/
def SignatureHashOld (scriptCode : CScript) (txTo : CTransaction) (nIn : Nat)
    (nHashType : Int32) : Uint256 :=
  if txTo.vin.length ≤ nIn then uint256One
  else if (nHashType &&& 0x1f) = SIGHASH_SINGLE ∧ txTo.vout.length ≤ nIn then uint256One
  else hash (serTransaction (signatureHashOldTx scriptCode txTo nIn nHashType) ++
    serInt32 nHashType)

end Unitus
