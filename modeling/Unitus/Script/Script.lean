import Unitus.Primitives.Serialize

/-!
# Script — reading a script op by op

`CScript::GetOp2` (`script/script.h`) reads one op at an iterator `pc`: the opcode byte, and for
a push its size field and its data, which it returns.  It advances `pc` over what it has read even where it then
fails, on a size field or data that run past the end; `GetOp` on a `const_iterator` and on an
`iterator` both leave `pc` so.  A position is a `Nat` index into the script's bytes.

The opcodes are the bytes of `opcodetype`.  `script.cpp`'s readers (`IsPushOnly`,
`IsWitnessProgram`, `GetSigOpCount`) walk the script with `GetOp2` like the interpreter does.

`FindAndDelete(b)` removes every copy of `b` that starts at an op boundary, reading ops with
`GetOp` between the copies; where some `GetOp` fails, the rest of the script is kept as it is.
Each loop of the source is a recursion on `fuel`; the callers give a fuel no loop can use up
(each pass moves `pc` forward), which `Unitus.Script.SigHashCorrect` proves where it matters.
-/

namespace Unitus

/-! ### `opcodetype`

The opcodes the interpreter names, as the byte `GetOp2` returns.  `OP_2` … `OP_15` are the
bytes between `OP_1` and `OP_16`; the aliases `OP_FALSE`, `OP_TRUE`, `OP_NOP2` and `OP_NOP3`
are left out, and so are the template-matching values, which no script function reads. -/

def OP_0 : UInt8 := 0x00
def OP_PUSHDATA1 : UInt8 := 0x4c
def OP_PUSHDATA2 : UInt8 := 0x4d
def OP_PUSHDATA4 : UInt8 := 0x4e
def OP_1NEGATE : UInt8 := 0x4f
def OP_RESERVED : UInt8 := 0x50
def OP_1 : UInt8 := 0x51
def OP_16 : UInt8 := 0x60
def OP_NOP : UInt8 := 0x61
def OP_VER : UInt8 := 0x62
def OP_IF : UInt8 := 0x63
def OP_NOTIF : UInt8 := 0x64
def OP_VERIF : UInt8 := 0x65
def OP_VERNOTIF : UInt8 := 0x66
def OP_ELSE : UInt8 := 0x67
def OP_ENDIF : UInt8 := 0x68
def OP_VERIFY : UInt8 := 0x69
def OP_RETURN : UInt8 := 0x6a
def OP_TOALTSTACK : UInt8 := 0x6b
def OP_FROMALTSTACK : UInt8 := 0x6c
def OP_2DROP : UInt8 := 0x6d
def OP_2DUP : UInt8 := 0x6e
def OP_3DUP : UInt8 := 0x6f
def OP_2OVER : UInt8 := 0x70
def OP_2ROT : UInt8 := 0x71
def OP_2SWAP : UInt8 := 0x72
def OP_IFDUP : UInt8 := 0x73
def OP_DEPTH : UInt8 := 0x74
def OP_DROP : UInt8 := 0x75
def OP_DUP : UInt8 := 0x76
def OP_NIP : UInt8 := 0x77
def OP_OVER : UInt8 := 0x78
def OP_PICK : UInt8 := 0x79
def OP_ROLL : UInt8 := 0x7a
def OP_ROT : UInt8 := 0x7b
def OP_SWAP : UInt8 := 0x7c
def OP_TUCK : UInt8 := 0x7d
def OP_CAT : UInt8 := 0x7e
def OP_SUBSTR : UInt8 := 0x7f
def OP_LEFT : UInt8 := 0x80
def OP_RIGHT : UInt8 := 0x81
def OP_SIZE : UInt8 := 0x82
def OP_INVERT : UInt8 := 0x83
def OP_AND : UInt8 := 0x84
def OP_OR : UInt8 := 0x85
def OP_XOR : UInt8 := 0x86
def OP_EQUAL : UInt8 := 0x87
def OP_EQUALVERIFY : UInt8 := 0x88
def OP_RESERVED1 : UInt8 := 0x89
def OP_RESERVED2 : UInt8 := 0x8a
def OP_1ADD : UInt8 := 0x8b
def OP_1SUB : UInt8 := 0x8c
def OP_2MUL : UInt8 := 0x8d
def OP_2DIV : UInt8 := 0x8e
def OP_NEGATE : UInt8 := 0x8f
def OP_ABS : UInt8 := 0x90
def OP_NOT : UInt8 := 0x91
def OP_0NOTEQUAL : UInt8 := 0x92
def OP_ADD : UInt8 := 0x93
def OP_SUB : UInt8 := 0x94
def OP_MUL : UInt8 := 0x95
def OP_DIV : UInt8 := 0x96
def OP_MOD : UInt8 := 0x97
def OP_LSHIFT : UInt8 := 0x98
def OP_RSHIFT : UInt8 := 0x99
def OP_BOOLAND : UInt8 := 0x9a
def OP_BOOLOR : UInt8 := 0x9b
def OP_NUMEQUAL : UInt8 := 0x9c
def OP_NUMEQUALVERIFY : UInt8 := 0x9d
def OP_NUMNOTEQUAL : UInt8 := 0x9e
def OP_LESSTHAN : UInt8 := 0x9f
def OP_GREATERTHAN : UInt8 := 0xa0
def OP_LESSTHANOREQUAL : UInt8 := 0xa1
def OP_GREATERTHANOREQUAL : UInt8 := 0xa2
def OP_MIN : UInt8 := 0xa3
def OP_MAX : UInt8 := 0xa4
def OP_WITHIN : UInt8 := 0xa5
def OP_RIPEMD160 : UInt8 := 0xa6
def OP_SHA1 : UInt8 := 0xa7
def OP_SHA256 : UInt8 := 0xa8
def OP_HASH160 : UInt8 := 0xa9
def OP_HASH256 : UInt8 := 0xaa
def OP_CODESEPARATOR : UInt8 := 0xab
def OP_CHECKSIG : UInt8 := 0xac
def OP_CHECKSIGVERIFY : UInt8 := 0xad
def OP_CHECKMULTISIG : UInt8 := 0xae
def OP_CHECKMULTISIGVERIFY : UInt8 := 0xaf
def OP_NOP1 : UInt8 := 0xb0
def OP_CHECKLOCKTIMEVERIFY : UInt8 := 0xb1
def OP_CHECKSEQUENCEVERIFY : UInt8 := 0xb2
def OP_NOP4 : UInt8 := 0xb3
def OP_NOP5 : UInt8 := 0xb4
def OP_NOP6 : UInt8 := 0xb5
def OP_NOP7 : UInt8 := 0xb6
def OP_NOP8 : UInt8 := 0xb7
def OP_NOP9 : UInt8 := 0xb8
def OP_NOP10 : UInt8 := 0xb9
def OP_INVALIDOPCODE : UInt8 := 0xff

/-- `MAX_SCRIPT_ELEMENT_SIZE`: the largest push, in bytes. -/
def MAX_SCRIPT_ELEMENT_SIZE : Nat := 520
/-- `MAX_OPS_PER_SCRIPT`: the most non-push opcodes a script may execute. -/
def MAX_OPS_PER_SCRIPT : Nat := 201
/-- `MAX_PUBKEYS_PER_MULTISIG`. -/
def MAX_PUBKEYS_PER_MULTISIG : Nat := 20
/-- `MAX_SCRIPT_SIZE`: the largest script, in bytes. -/
def MAX_SCRIPT_SIZE : Nat := 10000

/-- What `GetOp2` returns and leaves: `fRet`, the iterator `pc`, `opcodeRet`, and the data of a
push in `*pvchRet`. -/
structure GetOpResult where
  fRet : Bool
  pc : Nat
  opcodeRet : UInt8
  vchRet : List UInt8
  deriving DecidableEq, Repr

namespace CScript

/-- `CScript::IsUnspendable()`: the script begins with `OP_RETURN` or is longer than
`MAX_SCRIPT_SIZE`. -/
def IsUnspendable (script : CScript) : Bool :=
  (0 < script.length && script.getD 0 0 == OP_RETURN) || MAX_SCRIPT_SIZE < script.length

/-- `ReadLE16(&pc[0])`. -/
def ReadLE16 (script : CScript) (pc : Nat) : Nat :=
  (script.getD pc 0).toNat + 256 * (script.getD (pc + 1) 0).toNat

/-- `ReadLE32(&pc[0])`. -/
def ReadLE32 (script : CScript) (pc : Nat) : Nat :=
  ReadLE16 script pc + 65536 * ReadLE16 script (pc + 2)

/-- `n` bytes of the script from `pc`: what `s.write(&pc[0], n)` or
`insert(end, pc, pc + n)` copies. -/
def slice (script : CScript) (pc n : Nat) : List UInt8 := (script.drop pc).take n

/-- The data of a push of `nSize` bytes at `pc`: `if ((unsigned int)(end() - pc) < nSize)
return false; if (pvchRet) pvchRet->assign(pc, pc + nSize); pc += nSize;`. -/
def pushData (script : CScript) (opcode : UInt8) (nSize pc : Nat) : GetOpResult :=
  if script.length - pc < nSize then ⟨false, pc, OP_INVALIDOPCODE, []⟩
  else ⟨true, pc + nSize, opcode, slice script pc nSize⟩

/-- `GetOp2(pc, opcodeRet, pvchRet)`; the data is empty but for a push that succeeds. -/
def GetOp2 (script : CScript) (pc : Nat) : GetOpResult :=
  if script.length ≤ pc then ⟨false, pc, OP_INVALIDOPCODE, []⟩
  else
    let opcode := script.getD pc 0
    let pc := pc + 1
    if opcode ≤ OP_PUSHDATA4 then
      if opcode < OP_PUSHDATA1 then pushData script opcode opcode.toNat pc
      else if opcode = OP_PUSHDATA1 then
        if script.length - pc < 1 then ⟨false, pc, OP_INVALIDOPCODE, []⟩
        else pushData script opcode (script.getD pc 0).toNat (pc + 1)
      else if opcode = OP_PUSHDATA2 then
        if script.length - pc < 2 then ⟨false, pc, OP_INVALIDOPCODE, []⟩
        else pushData script opcode (ReadLE16 script pc) (pc + 2)
      else
        if script.length - pc < 4 then ⟨false, pc, OP_INVALIDOPCODE, []⟩
        else pushData script opcode (ReadLE32 script pc) (pc + 4)
    else ⟨true, pc, opcode, []⟩

/-- `while (static_cast<size_t>(end() - pc) >= b.size() && std::equal(b.begin(), b.end(), pc))
{ pc = pc + b.size(); ++nFound; }`. -/
def skipCopies (script b : CScript) : Nat → Nat → Nat → Nat × Nat
  | 0, pc, nFound => (pc, nFound)
  | fuel + 1, pc, nFound =>
    if b.length ≤ script.length - pc ∧ slice script pc b.length = b then
      skipCopies script b fuel (pc + b.length) (nFound + 1)
    else (pc, nFound)

/-- The `do { … } while (GetOp(pc, opcode))` loop of `FindAndDelete`, from `pc2`, `pc`,
`result` and `nFound`; it returns `result`, `pc2` and `nFound` when `GetOp` fails. -/
def findAndDeleteLoop (script b : CScript) :
    Nat → Nat → Nat → CScript → Nat → CScript × Nat × Nat
  | 0, pc2, _, result, nFound => (result, pc2, nFound)
  | fuel + 1, pc2, pc, result, nFound =>
    let result := result ++ slice script pc2 (pc - pc2)
    let (pc, nFound) := skipCopies script b (script.length + 1) pc nFound
    let r := GetOp2 script pc
    if r.fRet then findAndDeleteLoop script b fuel pc r.pc result nFound
    else (result, pc, nFound)

/-- `FindAndDelete(b)`: the script after, and `nFound`. -/
def FindAndDelete (script b : CScript) : CScript × Nat :=
  if b = [] then (script, 0)
  else
    let (result, pc2, nFound) := findAndDeleteLoop script b (script.length + 1) 0 0 [] 0
    if 0 < nFound then (result ++ script.drop pc2, nFound) else (script, nFound)

/-! ### What `script.cpp` reads off a script -/

/-- `DecodeOP_N(opcode)`: `0` for `OP_0`, `n` for `OP_n`. -/
def DecodeOP_N (opcode : UInt8) : Nat :=
  if opcode = OP_0 then 0 else opcode.toNat - (OP_1.toNat - 1)

/-- `CScript() << b` for a byte vector: the shortest size field, then the bytes. -/
def pushVch (b : List UInt8) : CScript :=
  (if b.length < OP_PUSHDATA1.toNat then [UInt8.ofNat b.length]
    else if b.length ≤ 0xff then [OP_PUSHDATA1, UInt8.ofNat b.length]
    else if b.length ≤ 0xffff then OP_PUSHDATA2 :: leBytes b.length 2
    else OP_PUSHDATA4 :: leBytes b.length 4) ++ b

/-- `IsPayToScriptHash()`: `OP_HASH160 <20 bytes> OP_EQUAL`. -/
def IsPayToScriptHash (script : CScript) : Bool :=
  script.length == 23 && script.getD 0 0 == OP_HASH160 && script.getD 1 0 == 0x14 &&
    script.getD 22 0 == OP_EQUAL

/-- `IsWitnessProgram(version, program)`: a version opcode and one push of 2 to 40 bytes; the
version and the program when it is one. -/
def IsWitnessProgram (script : CScript) : Option (Nat × List UInt8) :=
  if script.length < 4 ∨ script.length > 42 then none
  else if script.getD 0 0 ≠ OP_0 ∧ (script.getD 0 0 < OP_1 ∨ script.getD 0 0 > OP_16) then none
  else if (script.getD 1 0).toNat + 2 = script.length then
    some (DecodeOP_N (script.getD 0 0), script.drop 2)
  else none

/-- A witness program starts with a version opcode, a pay-to-script-hash script with
`OP_HASH160`: no script is both. -/
theorem IsPayToScriptHash_of_IsWitnessProgram {script : CScript} {p : Nat × List UInt8}
    (h : IsWitnessProgram script = some p) : IsPayToScriptHash script = false := by
  unfold IsWitnessProgram at h
  split_ifs at h with hlen hver
  have hb : script.getD 0 0 ≠ OP_HASH160 := by
    intro hb
    rw [hb] at hver
    exact hver (by decide)
  unfold IsPayToScriptHash
  rw [beq_false_of_ne hb, Bool.and_false, Bool.false_and, Bool.false_and]

/-- The loop of `IsPushOnly(pc)`. -/
def pushOnlyLoop (script : CScript) : Nat → Nat → Bool
  | 0, _ => true
  | fuel + 1, pc =>
    if pc < script.length then
      let r := GetOp2 script pc
      if !r.fRet then false
      -- `OP_RESERVED` counts as a push here, though executing it fails
      else if r.opcodeRet > OP_16 then false
      else pushOnlyLoop script fuel r.pc
    else true

/-- `IsPushOnly()`. -/
def IsPushOnly (script : CScript) : Bool := pushOnlyLoop script (script.length + 1) 0

/-- What one pass of `GetSigOpCount(fAccurate)` adds for `opcode` after `lastOpcode`: one for
a `CHECKSIG`; for a `CHECKMULTISIG`, when accurate, the `n` of an `OP_n` just before it, and
else `MAX_PUBKEYS_PER_MULTISIG`. -/
def sigOpCost (fAccurate : Bool) (lastOpcode opcode : UInt8) : Nat :=
  if opcode = OP_CHECKSIG ∨ opcode = OP_CHECKSIGVERIFY then 1
  else if opcode = OP_CHECKMULTISIG ∨ opcode = OP_CHECKMULTISIGVERIFY then
    if fAccurate ∧ OP_1 ≤ lastOpcode ∧ lastOpcode ≤ OP_16 then DecodeOP_N lastOpcode
    else MAX_PUBKEYS_PER_MULTISIG
  else 0

/-- The loop of `GetSigOpCount(fAccurate)`, from `pc`, `lastOpcode` and the count `n`; it
stops at the first op `GetOp` cannot read. -/
def sigOpLoop (script : CScript) (fAccurate : Bool) : Nat → Nat → UInt8 → Nat → Nat
  | 0, _, _, n => n
  | fuel + 1, pc, lastOpcode, n =>
    if pc < script.length then
      let r := GetOp2 script pc
      if !r.fRet then n
      else
        sigOpLoop script fAccurate fuel r.pc r.opcodeRet
          (n + sigOpCost fAccurate lastOpcode r.opcodeRet)
    else n

/-- `GetSigOpCount(fAccurate)`. -/
def GetSigOpCount (script : CScript) (fAccurate : Bool) : Nat :=
  sigOpLoop script fAccurate (script.length + 1) 0 OP_INVALIDOPCODE 0

/-- The loop of `GetSigOpCount(scriptSig)`: the data of the last op, if every op is a push. -/
def lastPushLoop (scriptSig : CScript) : Nat → Nat → List UInt8 → Option (List UInt8)
  | 0, _, data => some data
  | fuel + 1, pc, data =>
    if pc < scriptSig.length then
      let r := GetOp2 scriptSig pc
      if !r.fRet then none
      else if r.opcodeRet > OP_16 then none
      else lastPushLoop scriptSig fuel r.pc r.vchRet
    else some data

/-- `GetSigOpCount(scriptSig)` of a `scriptPubKey`: for pay-to-script-hash, the accurate count
of the script the last push of `scriptSig` carries. -/
def GetSigOpCountP2SH (script scriptSig : CScript) : Nat :=
  if !IsPayToScriptHash script then GetSigOpCount script true
  else
    match lastPushLoop scriptSig (scriptSig.length + 1) 0 [] with
    | none => 0
    | some data => GetSigOpCount data true

end CScript

/-- `CScriptWitness`: the witness stack, its last element on top. -/
structure CScriptWitness where
  stack : List (List UInt8)
  deriving DecidableEq, Inhabited

/-- `CScriptWitness::IsNull()`. -/
def CScriptWitness.IsNull (w : CScriptWitness) : Bool := w.stack.isEmpty

end Unitus
