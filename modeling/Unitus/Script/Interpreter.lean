import Unitus.Script.ScriptNum
import Unitus.Script.SigHash

/-!
# Script — `EvalScript`

`EvalScript` (`script/interpreter.cpp`) runs a script on a stack.  It reads op after op with
`GetOp`, pushes the data of a push and executes any other op when every enclosing `IF` branch
is taken, and stops at the first error, a `ScriptError`.

It runs here in `EStateM ScriptError EvalState`: the state holds what the source keeps in local
variables (`pc`, `pbegincodehash`, `vfExec`, `altstack`, `nOpCount`) and the stack it is passed
by reference, and an error leaves the state as it was, as it leaves the caller's stack.  A stack
is a list with its top first, so `stacktop(-i)` is element `i - 1`.  `nCheckSig` is not in the
source: it counts the calls of `checker.CheckSig`, which the sigop counts of `GetSigOpCount`
are meant to bound.

The exceptions the `catch (...)` of `EvalScript` catches (a `scriptnum_error` of
`CScriptNum`, a `popstack` of an empty stack) are the error `SCRIPT_ERR_UNKNOWN_ERROR`.  The
hash functions and `CPubKey::CheckLowS` are parameters (`Crypto`), and so is the checker, whose
answers depend on their arguments only.
-/

namespace Unitus

/-- `ScriptError`. -/
inductive ScriptError
  | SCRIPT_ERR_OK
  | SCRIPT_ERR_UNKNOWN_ERROR
  | SCRIPT_ERR_EVAL_FALSE
  | SCRIPT_ERR_OP_RETURN
  | SCRIPT_ERR_SCRIPT_SIZE
  | SCRIPT_ERR_PUSH_SIZE
  | SCRIPT_ERR_OP_COUNT
  | SCRIPT_ERR_STACK_SIZE
  | SCRIPT_ERR_SIG_COUNT
  | SCRIPT_ERR_PUBKEY_COUNT
  | SCRIPT_ERR_VERIFY
  | SCRIPT_ERR_EQUALVERIFY
  | SCRIPT_ERR_CHECKMULTISIGVERIFY
  | SCRIPT_ERR_CHECKSIGVERIFY
  | SCRIPT_ERR_NUMEQUALVERIFY
  | SCRIPT_ERR_BAD_OPCODE
  | SCRIPT_ERR_DISABLED_OPCODE
  | SCRIPT_ERR_INVALID_STACK_OPERATION
  | SCRIPT_ERR_INVALID_ALTSTACK_OPERATION
  | SCRIPT_ERR_UNBALANCED_CONDITIONAL
  | SCRIPT_ERR_NEGATIVE_LOCKTIME
  | SCRIPT_ERR_UNSATISFIED_LOCKTIME
  | SCRIPT_ERR_SIG_HASHTYPE
  | SCRIPT_ERR_SIG_DER
  | SCRIPT_ERR_MINIMALDATA
  | SCRIPT_ERR_SIG_PUSHONLY
  | SCRIPT_ERR_SIG_HIGH_S
  | SCRIPT_ERR_SIG_NULLDUMMY
  | SCRIPT_ERR_PUBKEYTYPE
  | SCRIPT_ERR_CLEANSTACK
  | SCRIPT_ERR_MINIMALIF
  | SCRIPT_ERR_SIG_NULLFAIL
  | SCRIPT_ERR_DISCOURAGE_UPGRADABLE_NOPS
  | SCRIPT_ERR_DISCOURAGE_UPGRADABLE_WITNESS_PROGRAM
  | SCRIPT_ERR_WITNESS_PROGRAM_WRONG_LENGTH
  | SCRIPT_ERR_WITNESS_PROGRAM_WITNESS_EMPTY
  | SCRIPT_ERR_WITNESS_PROGRAM_MISMATCH
  | SCRIPT_ERR_WITNESS_MALLEATED
  | SCRIPT_ERR_WITNESS_MALLEATED_P2SH
  | SCRIPT_ERR_WITNESS_UNEXPECTED
  | SCRIPT_ERR_WITNESS_PUBKEYTYPE
  deriving DecidableEq, Repr

/-! ### Verification flags -/

def SCRIPT_VERIFY_NONE : UInt32 := 0
def SCRIPT_VERIFY_P2SH : UInt32 := (1 : UInt32) <<< 0
def SCRIPT_VERIFY_STRICTENC : UInt32 := (1 : UInt32) <<< 1
def SCRIPT_VERIFY_DERSIG : UInt32 := (1 : UInt32) <<< 2
def SCRIPT_VERIFY_LOW_S : UInt32 := (1 : UInt32) <<< 3
def SCRIPT_VERIFY_NULLDUMMY : UInt32 := (1 : UInt32) <<< 4
def SCRIPT_VERIFY_SIGPUSHONLY : UInt32 := (1 : UInt32) <<< 5
def SCRIPT_VERIFY_MINIMALDATA : UInt32 := (1 : UInt32) <<< 6
def SCRIPT_VERIFY_DISCOURAGE_UPGRADABLE_NOPS : UInt32 := (1 : UInt32) <<< 7
def SCRIPT_VERIFY_CLEANSTACK : UInt32 := (1 : UInt32) <<< 8
def SCRIPT_VERIFY_CHECKLOCKTIMEVERIFY : UInt32 := (1 : UInt32) <<< 9
def SCRIPT_VERIFY_CHECKSEQUENCEVERIFY : UInt32 := (1 : UInt32) <<< 10
def SCRIPT_VERIFY_WITNESS : UInt32 := (1 : UInt32) <<< 11
def SCRIPT_VERIFY_DISCOURAGE_UPGRADABLE_WITNESS_PROGRAM : UInt32 := (1 : UInt32) <<< 12
def SCRIPT_VERIFY_MINIMALIF : UInt32 := (1 : UInt32) <<< 13
def SCRIPT_VERIFY_NULLFAIL : UInt32 := (1 : UInt32) <<< 14
def SCRIPT_VERIFY_WITNESS_PUBKEYTYPE : UInt32 := (1 : UInt32) <<< 15

/-- `CTxIn::SEQUENCE_LOCKTIME_DISABLE_FLAG`. -/
def SEQUENCE_LOCKTIME_DISABLE_FLAG : Nat := 2 ^ 31

/-- A stack element. -/
abbrev valtype := List UInt8

/-- `CastToBool(vch)`: some byte is not zero, other than a sign bit alone in the last byte
(negative zero). -/
def CastToBool : valtype → Bool
  | [] => false
  | b :: rest => if b ≠ 0 then !(rest = [] ∧ b = 0x80) else CastToBool rest

/-! ### Encodings -/

/-- `IsCompressedOrUncompressedPubKey(vchPubKey)`. -/
def IsCompressedOrUncompressedPubKey (vchPubKey : valtype) : Bool :=
  if vchPubKey.length < 33 then false
  else if vchPubKey.getD 0 0 = 0x04 then vchPubKey.length = 65
  else if vchPubKey.getD 0 0 = 0x02 ∨ vchPubKey.getD 0 0 = 0x03 then vchPubKey.length = 33
  else false

/-- `IsCompressedPubKey(vchPubKey)`. -/
def IsCompressedPubKey (vchPubKey : valtype) : Bool :=
  if vchPubKey.length ≠ 33 then false
  else if vchPubKey.getD 0 0 ≠ 0x02 ∧ vchPubKey.getD 0 0 ≠ 0x03 then false
  else true

/-- `IsValidSignatureEncoding(sig)`: `0x30 [total-length] 0x02 [R-length] [R] 0x02 [S-length]
[S] [sighash]`, with `R` and `S` positive and not padded. -/
def IsValidSignatureEncoding (sig : valtype) : Bool :=
  let b (i : Nat) : UInt8 := sig.getD i 0
  if sig.length < 9 then false
  else if sig.length > 73 then false
  else if b 0 ≠ 0x30 then false
  else if (b 1).toNat ≠ sig.length - 3 then false
  else
    let lenR := (b 3).toNat
    if 5 + lenR ≥ sig.length then false
    else
      let lenS := (b (5 + lenR)).toNat
      if lenR + lenS + 7 ≠ sig.length then false
      else if b 2 ≠ 0x02 then false
      else if lenR = 0 then false
      else if b 4 &&& 0x80 ≠ 0 then false
      else if lenR > 1 ∧ b 4 = 0x00 ∧ b 5 &&& 0x80 = 0 then false
      else if b (lenR + 4) ≠ 0x02 then false
      else if lenS = 0 then false
      else if b (lenR + 6) &&& 0x80 ≠ 0 then false
      else if lenS > 1 ∧ b (lenR + 6) = 0x00 ∧ b (lenR + 7) &&& 0x80 = 0 then false
      else true

/-- `IsLowDERSignature(vchSig, serror)`, with `CPubKey::CheckLowS`. -/
def IsLowDERSignature (CheckLowS : List UInt8 → Bool) (vchSig : valtype) :
    Except ScriptError Unit :=
  if !IsValidSignatureEncoding vchSig then throw .SCRIPT_ERR_SIG_DER
  else if !CheckLowS vchSig.dropLast then throw .SCRIPT_ERR_SIG_HIGH_S
  else pure ()

/-- `IsDefinedHashtypeSignature(vchSig)`: the hash type, without `SIGHASH_ANYONECANPAY`, is
one of `SIGHASH_ALL` (1) … `SIGHASH_SINGLE` (3). -/
def IsDefinedHashtypeSignature (vchSig : valtype) : Bool :=
  if vchSig.length = 0 then false
  else
    let nHashType := vchSig.getLast?.getD 0 &&& ~~~0x80
    if nHashType < 1 ∨ nHashType > 3 then false else true

/-- `CheckSignatureEncoding(vchSig, flags, serror)`; an empty signature passes. -/
def CheckSignatureEncoding (CheckLowS : List UInt8 → Bool) (vchSig : valtype) (flags : UInt32) :
    Except ScriptError Unit := do
  if vchSig.length = 0 then return
  if flags &&& (SCRIPT_VERIFY_DERSIG ||| SCRIPT_VERIFY_LOW_S ||| SCRIPT_VERIFY_STRICTENC) ≠ 0 ∧
      !IsValidSignatureEncoding vchSig then
    throw .SCRIPT_ERR_SIG_DER
  if flags &&& SCRIPT_VERIFY_LOW_S ≠ 0 then IsLowDERSignature CheckLowS vchSig
  if flags &&& SCRIPT_VERIFY_STRICTENC ≠ 0 ∧ !IsDefinedHashtypeSignature vchSig then
    throw .SCRIPT_ERR_SIG_HASHTYPE

/-- `CheckPubKeyEncoding(vchPubKey, flags, sigversion, serror)`. -/
def CheckPubKeyEncoding (vchPubKey : valtype) (flags : UInt32) (sigversion : SigVersion) :
    Except ScriptError Unit := do
  if flags &&& SCRIPT_VERIFY_STRICTENC ≠ 0 ∧ !IsCompressedOrUncompressedPubKey vchPubKey then
    throw .SCRIPT_ERR_PUBKEYTYPE
  -- only compressed keys are accepted in segwit
  if flags &&& SCRIPT_VERIFY_WITNESS_PUBKEYTYPE ≠ 0 ∧ sigversion = .SIGVERSION_WITNESS_V0 ∧
      !IsCompressedPubKey vchPubKey then
    throw .SCRIPT_ERR_WITNESS_PUBKEYTYPE

/-- `CheckMinimalPush(data, opcode)`: the push is the shortest that pushes `data`. -/
def CheckMinimalPush (data : valtype) (opcode : UInt8) : Bool :=
  if data.length = 0 then opcode = OP_0
  else if data.length = 1 ∧ 1 ≤ data.getD 0 0 ∧ data.getD 0 0 ≤ 16 then
    opcode.toNat = OP_1.toNat + ((data.getD 0 0).toNat - 1)
  else if data.length = 1 ∧ data.getD 0 0 = 0x81 then opcode = OP_1NEGATE
  else if data.length ≤ 75 then opcode.toNat = data.length
  else if data.length ≤ 255 then opcode = OP_PUSHDATA1
  else if data.length ≤ 65535 then opcode = OP_PUSHDATA2
  else true

/-! ### The machine -/

/-- `BaseSignatureChecker`: what the interpreter asks about the spending transaction. -/
structure BaseSignatureChecker where
  CheckSig : valtype → valtype → CScript → SigVersion → Bool
  CheckLockTime : Int → Bool
  CheckSequence : Int → Bool

/-- The primitives of `crypto/` and `pubkey.h` the interpreter calls: `CRIPEMD160` and `CSHA1`
(20 bytes), `CSHA256`, and `CPubKey::CheckLowS`. -/
structure Crypto where
  RIPEMD160 : List UInt8 → List UInt8
  SHA1 : List UInt8 → List UInt8
  SHA256 : List UInt8 → Uint256
  CheckLowS : List UInt8 → Bool

/-- What `EvalScript` keeps while it runs. -/
structure EvalState where
  stack : List valtype
  altstack : List valtype
  /-- The enclosing branches, innermost first: taken or not. -/
  vfExec : List Bool
  nOpCount : Nat
  pbegincodehash : Nat
  pc : Nat
  /-- The calls of `checker.CheckSig` so far. -/
  nCheckSig : Nat

/-- The interpreter's computations. -/
abbrev Interp := EStateM ScriptError EvalState

/-- `vchTrue`. -/
def vchTrue : valtype := [1]

/-- `vchFalse`. -/
def vchFalse : valtype := []

/-- `fRequireMinimal`. -/
def fRequireMinimal (flags : UInt32) : Bool := flags &&& SCRIPT_VERIFY_MINIMALDATA ≠ 0

/-- `stacktop(-i)`. -/
def stacktop (i : Nat) : Interp valtype := do
  return (← get).stack.getD (i - 1) []

/-- `stack.push_back(v)`. -/
def pushstack (v : valtype) : Interp Unit :=
  modify fun st => { st with stack := v :: st.stack }

/-- `popstack(stack)`, which throws on an empty stack. -/
def popstack : Interp Unit := do
  let st ← get
  match st.stack with
  | [] => throw .SCRIPT_ERR_UNKNOWN_ERROR
  | _ :: rest => set { st with stack := rest }

/-- `if (stack.size() < n) return set_error(serror, SCRIPT_ERR_INVALID_STACK_OPERATION);`. -/
def requireStack (n : Nat) : Interp Unit := do
  if (← get).stack.length < n then throw .SCRIPT_ERR_INVALID_STACK_OPERATION

/-- `CScriptNum(vch, fRequireMinimal, nMaxNumSize)` inside `EvalScript`. -/
def scriptNum (vch : valtype) (fRequireMinimal : Bool) (nMaxNumSize : Nat) : Interp Int :=
  match CScriptNum.ofVch vch fRequireMinimal nMaxNumSize with
  | .ok n => pure n
  | .error _ => throw .SCRIPT_ERR_UNKNOWN_ERROR

/-- A check that sets `serror` and returns `false`, as a step of the interpreter. -/
def liftCheck (c : Except ScriptError Unit) : Interp Unit :=
  match c with
  | .ok () => pure ()
  | .error e => throw e

/-! ### The opcodes -/

section Opcodes

variable (crypto : Crypto) (checker : BaseSignatureChecker) (script : CScript) (flags : UInt32)
  (sigversion : SigVersion)

/-- `OP_1NEGATE`, `OP_1` … `OP_16`: `CScriptNum bn((int)opcode - (int)(OP_1 - 1))`. -/
def pushNumber (opcode : UInt8) : Interp Unit :=
  pushstack (CScriptNum.serialize ((opcode.toNat : Int) - (OP_1.toNat - 1)))

/-- `OP_CHECKLOCKTIMEVERIFY`, a `NOP2` when not enabled. -/
def opCheckLockTimeVerify : Interp Unit := do
  if flags &&& SCRIPT_VERIFY_CHECKLOCKTIMEVERIFY = 0 then
    if flags &&& SCRIPT_VERIFY_DISCOURAGE_UPGRADABLE_NOPS ≠ 0 then
      throw .SCRIPT_ERR_DISCOURAGE_UPGRADABLE_NOPS
  else
    requireStack 1
    -- a 5-byte operand, for lock times past 2038
    let nLockTime ← scriptNum (← stacktop 1) (fRequireMinimal flags) 5
    if nLockTime < 0 then throw .SCRIPT_ERR_NEGATIVE_LOCKTIME
    if !checker.CheckLockTime nLockTime then throw .SCRIPT_ERR_UNSATISFIED_LOCKTIME

/-- `OP_CHECKSEQUENCEVERIFY`, a `NOP3` when not enabled. -/
def opCheckSequenceVerify : Interp Unit := do
  if flags &&& SCRIPT_VERIFY_CHECKSEQUENCEVERIFY = 0 then
    if flags &&& SCRIPT_VERIFY_DISCOURAGE_UPGRADABLE_NOPS ≠ 0 then
      throw .SCRIPT_ERR_DISCOURAGE_UPGRADABLE_NOPS
  else
    requireStack 1
    let nSequence ← scriptNum (← stacktop 1) (fRequireMinimal flags) 5
    if nSequence < 0 then throw .SCRIPT_ERR_NEGATIVE_LOCKTIME
    -- with the disable flag set the operand makes it a `NOP`
    if nSequence.toNat &&& SEQUENCE_LOCKTIME_DISABLE_FLAG = 0 then
      if !checker.CheckSequence nSequence then throw .SCRIPT_ERR_UNSATISFIED_LOCKTIME

/-- `OP_NOP1`, `OP_NOP4` … `OP_NOP10`. -/
def opUpgradableNop : Interp Unit := do
  if flags &&& SCRIPT_VERIFY_DISCOURAGE_UPGRADABLE_NOPS ≠ 0 then
    throw .SCRIPT_ERR_DISCOURAGE_UPGRADABLE_NOPS

/-- `OP_IF`, `OP_NOTIF`: outside a taken branch the new branch is not taken either. -/
def opIf (fExec : Bool) (opcode : UInt8) : Interp Unit := do
  let fValue ← if fExec then do
      if (← get).stack.length < 1 then throw .SCRIPT_ERR_UNBALANCED_CONDITIONAL
      let vch ← stacktop 1
      if sigversion = .SIGVERSION_WITNESS_V0 ∧ flags &&& SCRIPT_VERIFY_MINIMALIF ≠ 0 then
        if vch.length > 1 then throw .SCRIPT_ERR_MINIMALIF
        if vch.length = 1 ∧ vch.getD 0 0 ≠ 1 then throw .SCRIPT_ERR_MINIMALIF
      popstack
      pure (if opcode = OP_NOTIF then !CastToBool vch else CastToBool vch)
    else pure false
  modify fun st => { st with vfExec := fValue :: st.vfExec }

/-- `OP_ELSE`. -/
def opElse : Interp Unit := do
  match (← get).vfExec with
  | [] => throw .SCRIPT_ERR_UNBALANCED_CONDITIONAL
  | b :: rest => modify fun st => { st with vfExec := (!b) :: rest }

/-- `OP_ENDIF`. -/
def opEndif : Interp Unit := do
  match (← get).vfExec with
  | [] => throw .SCRIPT_ERR_UNBALANCED_CONDITIONAL
  | _ :: rest => modify fun st => { st with vfExec := rest }

/-- `OP_VERIFY`. -/
def opVerify : Interp Unit := do
  requireStack 1
  if CastToBool (← stacktop 1) then popstack else throw .SCRIPT_ERR_VERIFY

/-- The stack opcodes that read no number: `OP_TOALTSTACK` … `OP_TUCK` but `OP_PICK` and
`OP_ROLL`, and `OP_SIZE`. -/
def opStack (opcode : UInt8) : Interp Unit := do
  if opcode = OP_TOALTSTACK then
    requireStack 1
    let v ← stacktop 1
    modify fun st => { st with altstack := v :: st.altstack }
    popstack
  else if opcode = OP_FROMALTSTACK then
    match (← get).altstack with
    | [] => throw .SCRIPT_ERR_INVALID_ALTSTACK_OPERATION
    | v :: rest =>
      pushstack v
      modify fun st => { st with altstack := rest }
  else if opcode = OP_2DROP then
    -- (x1 x2 -- )
    requireStack 2
    popstack
    popstack
  else if opcode = OP_2DUP then
    -- (x1 x2 -- x1 x2 x1 x2)
    requireStack 2
    let vch1 ← stacktop 2
    let vch2 ← stacktop 1
    pushstack vch1
    pushstack vch2
  else if opcode = OP_3DUP then
    -- (x1 x2 x3 -- x1 x2 x3 x1 x2 x3)
    requireStack 3
    let vch1 ← stacktop 3
    let vch2 ← stacktop 2
    let vch3 ← stacktop 1
    pushstack vch1
    pushstack vch2
    pushstack vch3
  else if opcode = OP_2OVER then
    -- (x1 x2 x3 x4 -- x1 x2 x3 x4 x1 x2)
    requireStack 4
    let vch1 ← stacktop 4
    let vch2 ← stacktop 3
    pushstack vch1
    pushstack vch2
  else if opcode = OP_2ROT then
    -- (x1 x2 x3 x4 x5 x6 -- x3 x4 x5 x6 x1 x2)
    requireStack 6
    let vch1 ← stacktop 6
    let vch2 ← stacktop 5
    modify fun st => { st with stack := st.stack.take 4 ++ st.stack.drop 6 }
    pushstack vch1
    pushstack vch2
  else if opcode = OP_2SWAP then
    -- (x1 x2 x3 x4 -- x3 x4 x1 x2)
    requireStack 4
    modify fun st =>
      { st with stack := (st.stack.drop 2).take 2 ++ st.stack.take 2 ++ st.stack.drop 4 }
  else if opcode = OP_IFDUP then
    -- (x - 0 | x x)
    requireStack 1
    let vch ← stacktop 1
    if CastToBool vch then pushstack vch
  else if opcode = OP_DEPTH then
    -- ( -- stacksize)
    pushstack (CScriptNum.serialize (← get).stack.length)
  else if opcode = OP_DROP then
    requireStack 1
    popstack
  else if opcode = OP_DUP then
    requireStack 1
    pushstack (← stacktop 1)
  else if opcode = OP_NIP then
    -- (x1 x2 -- x2)
    requireStack 2
    modify fun st => { st with stack := st.stack.take 1 ++ st.stack.drop 2 }
  else if opcode = OP_OVER then
    -- (x1 x2 -- x1 x2 x1)
    requireStack 2
    pushstack (← stacktop 2)
  else if opcode = OP_ROT then
    -- (x1 x2 x3 -- x2 x3 x1)
    requireStack 3
    modify fun st =>
      { st with stack := (st.stack.drop 2).take 1 ++ st.stack.take 2 ++ st.stack.drop 3 }
  else if opcode = OP_SWAP then
    -- (x1 x2 -- x2 x1)
    requireStack 2
    modify fun st =>
      { st with stack := (st.stack.drop 1).take 1 ++ st.stack.take 1 ++ st.stack.drop 2 }
  else if opcode = OP_TUCK then
    -- (x1 x2 -- x2 x1 x2)
    requireStack 2
    let vch ← stacktop 1
    modify fun st => { st with stack := st.stack.take 2 ++ vch :: st.stack.drop 2 }
  else
    -- `OP_SIZE`: (in -- in size)
    requireStack 1
    pushstack (CScriptNum.serialize (← stacktop 1).length)

/-- `OP_PICK`, `OP_ROLL`: (xn … x2 x1 x0 n -- … xn). -/
def opPickRoll (opcode : UInt8) : Interp Unit := do
  requireStack 2
  let n := CScriptNum.getint (← scriptNum (← stacktop 1) (fRequireMinimal flags) 4)
  popstack
  if n < 0 ∨ n ≥ (← get).stack.length then throw .SCRIPT_ERR_INVALID_STACK_OPERATION
  let vch ← stacktop (n.toNat + 1)
  if opcode = OP_ROLL then
    modify fun st => { st with stack := st.stack.eraseIdx n.toNat }
  pushstack vch

/-- `OP_EQUAL`, `OP_EQUALVERIFY`. -/
def opEqual (opcode : UInt8) : Interp Unit := do
  requireStack 2
  let fEqual := (← stacktop 2) = (← stacktop 1)
  popstack
  popstack
  pushstack (if fEqual then vchTrue else vchFalse)
  if opcode = OP_EQUALVERIFY then
    if fEqual then popstack else throw .SCRIPT_ERR_EQUALVERIFY

/-- `OP_1ADD`, `OP_1SUB`, `OP_NEGATE`, `OP_ABS`, `OP_NOT`, `OP_0NOTEQUAL`: (in -- out). -/
def opNumeric1 (opcode : UInt8) : Interp Unit := do
  requireStack 1
  let bn ← scriptNum (← stacktop 1) (fRequireMinimal flags) 4
  let bn : Int :=
    if opcode = OP_1ADD then bn + 1
    else if opcode = OP_1SUB then bn - 1
    else if opcode = OP_NEGATE then -bn
    else if opcode = OP_ABS then (if bn < 0 then -bn else bn)
    else if opcode = OP_NOT then (if bn = 0 then 1 else 0)
    else (if bn ≠ 0 then 1 else 0)
  popstack
  pushstack (CScriptNum.serialize bn)

/-- `OP_ADD` … `OP_MAX`: (x1 x2 -- out). -/
def opNumeric2 (opcode : UInt8) : Interp Unit := do
  requireStack 2
  let bn1 ← scriptNum (← stacktop 2) (fRequireMinimal flags) 4
  let bn2 ← scriptNum (← stacktop 1) (fRequireMinimal flags) 4
  let bn : Int :=
    if opcode = OP_ADD then bn1 + bn2
    else if opcode = OP_SUB then bn1 - bn2
    else if opcode = OP_BOOLAND then (if bn1 ≠ 0 ∧ bn2 ≠ 0 then 1 else 0)
    else if opcode = OP_BOOLOR then (if bn1 ≠ 0 ∨ bn2 ≠ 0 then 1 else 0)
    else if opcode = OP_NUMEQUAL ∨ opcode = OP_NUMEQUALVERIFY then (if bn1 = bn2 then 1 else 0)
    else if opcode = OP_NUMNOTEQUAL then (if bn1 ≠ bn2 then 1 else 0)
    else if opcode = OP_LESSTHAN then (if bn1 < bn2 then 1 else 0)
    else if opcode = OP_GREATERTHAN then (if bn1 > bn2 then 1 else 0)
    else if opcode = OP_LESSTHANOREQUAL then (if bn1 ≤ bn2 then 1 else 0)
    else if opcode = OP_GREATERTHANOREQUAL then (if bn1 ≥ bn2 then 1 else 0)
    else if opcode = OP_MIN then (if bn1 < bn2 then bn1 else bn2)
    else (if bn1 > bn2 then bn1 else bn2)
  popstack
  popstack
  pushstack (CScriptNum.serialize bn)
  if opcode = OP_NUMEQUALVERIFY then
    if CastToBool (← stacktop 1) then popstack else throw .SCRIPT_ERR_NUMEQUALVERIFY

/-- `OP_WITHIN`: (x min max -- out). -/
def opWithin : Interp Unit := do
  requireStack 3
  let bn1 ← scriptNum (← stacktop 3) (fRequireMinimal flags) 4
  let bn2 ← scriptNum (← stacktop 2) (fRequireMinimal flags) 4
  let bn3 ← scriptNum (← stacktop 1) (fRequireMinimal flags) 4
  let fValue := bn2 ≤ bn1 ∧ bn1 < bn3
  popstack
  popstack
  popstack
  pushstack (if fValue then vchTrue else vchFalse)

/-- `OP_RIPEMD160`, `OP_SHA1`, `OP_SHA256`, `OP_HASH160`, `OP_HASH256`: (in -- hash). -/
def opHash (opcode : UInt8) : Interp Unit := do
  requireStack 1
  let vch ← stacktop 1
  let vchHash :=
    if opcode = OP_RIPEMD160 then crypto.RIPEMD160 vch
    else if opcode = OP_SHA1 then crypto.SHA1 vch
    else if opcode = OP_SHA256 then (crypto.SHA256 vch).data
    else if opcode = OP_HASH160 then crypto.RIPEMD160 (crypto.SHA256 vch).data
    else (crypto.SHA256 (crypto.SHA256 vch).data).data
  popstack
  pushstack vchHash

/-- `OP_CODESEPARATOR`: the hash starts after it. -/
def opCodeSeparator : Interp Unit :=
  modify fun st => { st with pbegincodehash := st.pc }

/-- `checker.CheckSig(vchSig, vchPubKey, scriptCode, sigversion)`, counted. -/
def callCheckSig (vchSig vchPubKey : valtype) (scriptCode : CScript) : Interp Bool := do
  modify fun st => { st with nCheckSig := st.nCheckSig + 1 }
  pure (checker.CheckSig vchSig vchPubKey scriptCode sigversion)

/-- `OP_CHECKSIG`, `OP_CHECKSIGVERIFY`: (sig pubkey -- bool). -/
def opCheckSig (opcode : UInt8) : Interp Unit := do
  requireStack 2
  let vchSig ← stacktop 2
  let vchPubKey ← stacktop 1
  -- the script from the most recent code separator, without the signature before segwit
  let scriptCode := script.drop (← get).pbegincodehash
  let scriptCode := if sigversion = .SIGVERSION_BASE then
      (CScript.FindAndDelete scriptCode (CScript.pushVch vchSig)).1
    else scriptCode
  liftCheck (CheckSignatureEncoding crypto.CheckLowS vchSig flags)
  liftCheck (CheckPubKeyEncoding vchPubKey flags sigversion)
  let fSuccess ← callCheckSig checker sigversion vchSig vchPubKey scriptCode
  if !fSuccess ∧ flags &&& SCRIPT_VERIFY_NULLFAIL ≠ 0 ∧ vchSig.length ≠ 0 then
    throw .SCRIPT_ERR_SIG_NULLFAIL
  popstack
  popstack
  pushstack (if fSuccess then vchTrue else vchFalse)
  if opcode = OP_CHECKSIGVERIFY then
    if fSuccess then popstack else throw .SCRIPT_ERR_CHECKSIGVERIFY

/-- The signature loop of `CHECKMULTISIG`, from `isig`, `ikey`, `nSigsCount` and
`nKeysCount`, while `fSuccess`; it returns `fSuccess`.  It recurses on `nKeysCount`, which
each pass lowers by one: the loop starts with `nSigsCount ≤ nKeysCount` and stops as soon as
that fails, so it never runs out of keys with signatures left. -/
def multisigLoop (scriptCode : CScript) : Nat → Nat → Nat → Nat → Interp Bool
  | _, _, 0, _ => pure true
  | _, _, _, 0 => pure false
  | isig, ikey, nSigsCount, nKeysCount + 1 => do
    let vchSig ← stacktop isig
    let vchPubKey ← stacktop ikey
    liftCheck (CheckSignatureEncoding crypto.CheckLowS vchSig flags)
    liftCheck (CheckPubKeyEncoding vchPubKey flags sigversion)
    let fOk ← callCheckSig checker sigversion vchSig vchPubKey scriptCode
    let isig := if fOk then isig + 1 else isig
    let nSigsCount := if fOk then nSigsCount - 1 else nSigsCount
    -- more signatures left than keys: too many have failed
    if nSigsCount > nKeysCount then pure false
    else multisigLoop scriptCode isig (ikey + 1) nSigsCount nKeysCount

/-- `while (i-- > 1) { … popstack(stack); }`: pops `n` elements; after the first `ikey2` (the
counts and the keys), a failed check needs each signature empty under `NULLFAIL`. -/
def cleanupLoop (fSuccess : Bool) : Nat → Nat → Interp Unit
  | 0, _ => pure ()
  | n + 1, ikey2 => do
    if !fSuccess ∧ flags &&& SCRIPT_VERIFY_NULLFAIL ≠ 0 ∧ ikey2 = 0 ∧
        (← stacktop 1).length ≠ 0 then
      throw .SCRIPT_ERR_SIG_NULLFAIL
    popstack
    cleanupLoop fSuccess n (ikey2 - 1)

/-- `OP_CHECKMULTISIG`, `OP_CHECKMULTISIGVERIFY`:
([sig …] num_of_signatures [pubkey …] num_of_pubkeys -- bool). -/
def opCheckMultiSig (opcode : UInt8) : Interp Unit := do
  requireStack 1
  let nKeysCount := CScriptNum.getint (← scriptNum (← stacktop 1) (fRequireMinimal flags) 4)
  if nKeysCount < 0 ∨ nKeysCount > MAX_PUBKEYS_PER_MULTISIG then
    throw .SCRIPT_ERR_PUBKEY_COUNT
  let nKeysCount := nKeysCount.toNat
  modify fun st => { st with nOpCount := st.nOpCount + nKeysCount }
  if (← get).nOpCount > MAX_OPS_PER_SCRIPT then throw .SCRIPT_ERR_OP_COUNT
  let ikey := 2
  -- the position of the last non-signature item; top = 1
  let ikey2 := nKeysCount + 2
  let i := 2 + nKeysCount
  requireStack i
  let nSigsCount := CScriptNum.getint (← scriptNum (← stacktop i) (fRequireMinimal flags) 4)
  if nSigsCount < 0 ∨ nSigsCount > nKeysCount then throw .SCRIPT_ERR_SIG_COUNT
  let nSigsCount := nSigsCount.toNat
  let isig := i + 1
  let i := isig + nSigsCount
  requireStack i
  let st ← get
  let scriptCode := script.drop st.pbegincodehash
  -- drop the signatures in pre-segwit scripts
  let scriptCode := if sigversion = .SIGVERSION_BASE then
      (List.range nSigsCount).foldl (fun sc k =>
        (CScript.FindAndDelete sc (CScript.pushVch (st.stack.getD (isig + k - 1) []))).1)
        scriptCode
    else scriptCode
  let fSuccess ← multisigLoop crypto checker flags sigversion scriptCode isig ikey nSigsCount
    nKeysCount
  cleanupLoop flags fSuccess (i - 1) ikey2
  -- the extra argument consumed by a bug
  requireStack 1
  if flags &&& SCRIPT_VERIFY_NULLDUMMY ≠ 0 ∧ (← stacktop 1).length ≠ 0 then
    throw .SCRIPT_ERR_SIG_NULLDUMMY
  popstack
  pushstack (if fSuccess then vchTrue else vchFalse)
  if opcode = OP_CHECKMULTISIGVERIFY then
    if fSuccess then popstack else throw .SCRIPT_ERR_CHECKMULTISIGVERIFY

/-- The opcodes `EvalScript` rejects wherever they stand. -/
def isDisabled (opcode : UInt8) : Bool :=
  opcode = OP_CAT ∨ opcode = OP_SUBSTR ∨ opcode = OP_LEFT ∨ opcode = OP_RIGHT ∨
    opcode = OP_INVERT ∨ opcode = OP_AND ∨ opcode = OP_OR ∨ opcode = OP_XOR ∨
    opcode = OP_2MUL ∨ opcode = OP_2DIV ∨ opcode = OP_MUL ∨ opcode = OP_DIV ∨
    opcode = OP_MOD ∨ opcode = OP_LSHIFT ∨ opcode = OP_RSHIFT

/-- The `switch (opcode)` of `EvalScript`. -/
def ExecOpcode (fExec : Bool) (opcode : UInt8) : Interp Unit :=
  if opcode = OP_1NEGATE ∨ (OP_1 ≤ opcode ∧ opcode ≤ OP_16) then pushNumber opcode
  else if opcode = OP_NOP then pure ()
  else if opcode = OP_CHECKLOCKTIMEVERIFY then opCheckLockTimeVerify checker flags
  else if opcode = OP_CHECKSEQUENCEVERIFY then opCheckSequenceVerify checker flags
  else if opcode = OP_NOP1 ∨ (OP_NOP4 ≤ opcode ∧ opcode ≤ OP_NOP10) then
    opUpgradableNop flags
  else if opcode = OP_IF ∨ opcode = OP_NOTIF then opIf flags sigversion fExec opcode
  else if opcode = OP_ELSE then opElse
  else if opcode = OP_ENDIF then opEndif
  else if opcode = OP_VERIFY then opVerify
  else if opcode = OP_RETURN then throw .SCRIPT_ERR_OP_RETURN
  else if opcode = OP_PICK ∨ opcode = OP_ROLL then opPickRoll flags opcode
  else if (OP_TOALTSTACK ≤ opcode ∧ opcode ≤ OP_TUCK) ∨ opcode = OP_SIZE then opStack opcode
  else if opcode = OP_EQUAL ∨ opcode = OP_EQUALVERIFY then opEqual opcode
  else if opcode = OP_1ADD ∨ opcode = OP_1SUB ∨ opcode = OP_NEGATE ∨ opcode = OP_ABS ∨
      opcode = OP_NOT ∨ opcode = OP_0NOTEQUAL then opNumeric1 flags opcode
  else if opcode = OP_ADD ∨ opcode = OP_SUB ∨ (OP_BOOLAND ≤ opcode ∧ opcode ≤ OP_MAX) then
    opNumeric2 flags opcode
  else if opcode = OP_WITHIN then opWithin flags
  else if OP_RIPEMD160 ≤ opcode ∧ opcode ≤ OP_HASH256 then opHash crypto opcode
  else if opcode = OP_CODESEPARATOR then opCodeSeparator
  else if opcode = OP_CHECKSIG ∨ opcode = OP_CHECKSIGVERIFY then
    opCheckSig crypto checker script flags sigversion opcode
  else if opcode = OP_CHECKMULTISIG ∨ opcode = OP_CHECKMULTISIGVERIFY then
    opCheckMultiSig crypto checker script flags sigversion opcode
  else throw .SCRIPT_ERR_BAD_OPCODE

/-- One pass of the `while (pc < pend)` loop of `EvalScript`. -/
def EvalStep : Interp Unit := do
  let st ← get
  let fExec := !st.vfExec.contains false
  let r := CScript.GetOp2 script st.pc
  set { st with pc := r.pc }
  if !r.fRet then throw .SCRIPT_ERR_BAD_OPCODE
  if r.vchRet.length > MAX_SCRIPT_ELEMENT_SIZE then throw .SCRIPT_ERR_PUSH_SIZE
  let opcode := r.opcodeRet
  -- `opcode > OP_16 && ++nOpCount > MAX_OPS_PER_SCRIPT`: pushes and `OP_RESERVED` do not count
  modify fun st => { st with nOpCount := st.nOpCount + if opcode > OP_16 then 1 else 0 }
  if opcode > OP_16 ∧ (← get).nOpCount > MAX_OPS_PER_SCRIPT then throw .SCRIPT_ERR_OP_COUNT
  if isDisabled opcode then throw .SCRIPT_ERR_DISABLED_OPCODE
  if fExec ∧ opcode ≤ OP_PUSHDATA4 then
    if fRequireMinimal flags ∧ !CheckMinimalPush r.vchRet opcode then
      throw .SCRIPT_ERR_MINIMALDATA
    pushstack r.vchRet
  else if fExec ∨ (OP_IF ≤ opcode ∧ opcode ≤ OP_ENDIF) then
    ExecOpcode crypto checker script flags sigversion fExec opcode
  let st ← get
  if st.stack.length + st.altstack.length > 1000 then throw .SCRIPT_ERR_STACK_SIZE

/-- The `while (pc < pend)` loop; each pass moves `pc` forward, so `script.length + 1` passes
reach the end. -/
def EvalLoop : Nat → Interp Unit
  | 0 => pure ()
  | fuel + 1 => do
    if (← get).pc < script.length then
      EvalStep crypto checker script flags sigversion
      EvalLoop fuel

/-- The body of `EvalScript`. -/
def EvalScriptBody : Interp Unit := do
  if script.length > MAX_SCRIPT_SIZE then throw .SCRIPT_ERR_SCRIPT_SIZE
  EvalLoop crypto checker script flags sigversion (script.length + 1)
  if !(← get).vfExec.isEmpty then throw .SCRIPT_ERR_UNBALANCED_CONDITIONAL

end Opcodes

/-- The state `EvalScript` starts in, on `stack`, with `nCheckSig` calls made before. -/
def EvalState.init (stack : List valtype) (nCheckSig : Nat) : EvalState :=
  ⟨stack, [], [], 0, 0, 0, nCheckSig⟩

/-- `EvalScript(stack, script, flags, checker, sigversion, serror)`: the stack it leaves, or the
error; the state of this computation is the count of `checker.CheckSig` calls. -/
def EvalScript (crypto : Crypto) (stack : List valtype) (script : CScript) (flags : UInt32)
    (checker : BaseSignatureChecker) (sigversion : SigVersion) :
    EStateM ScriptError Nat (List valtype) := fun n =>
  match (EvalScriptBody crypto checker script flags sigversion).run (EvalState.init stack n) with
  | .ok _ st => .ok st.stack st.nCheckSig
  | .error e st => .error e st.nCheckSig

theorem EvalScript_run (crypto : Crypto) (stack : List valtype) (script : CScript)
    (flags : UInt32) (checker : BaseSignatureChecker) (sigversion : SigVersion) (n : Nat) :
    (EvalScript crypto stack script flags checker sigversion).run n =
      match (EvalScriptBody crypto checker script flags sigversion).run
          (EvalState.init stack n) with
      | .ok _ st => .ok st.stack st.nCheckSig
      | .error e st => .error e st.nCheckSig := rfl

end Unitus
