import Unitus.Script.Interpreter

/-!
# Script — `VerifyScript`

`VerifyScript` (`script/interpreter.cpp`) runs `scriptSig`, then `scriptPubKey` on the stack it
leaves, and needs a true top.  With `SCRIPT_VERIFY_WITNESS` a `scriptPubKey` that is a witness
program is checked against the witness (`VerifyWitnessProgram`); with `SCRIPT_VERIFY_P2SH` a
pay-to-script-hash `scriptPubKey` runs the script the last push of `scriptSig` carries, on the
stack `scriptSig` left, and that script may itself be a witness program.  `CLEANSTACK` then
needs one element left, and `WITNESS` a witness only where a program was checked.

The computations run in `EStateM ScriptError Nat`: the state counts the calls of
`checker.CheckSig`.  A witness pointer that is `NULL` is the empty witness.  The `assert`s on
the flags (`CLEANSTACK` needs `P2SH` and `WITNESS`, `WITNESS` needs `P2SH`) stop the program
where they fail; the model returns `SCRIPT_ERR_UNKNOWN_ERROR` there, and every result about
`VerifyScript` assumes flags that meet them.
-/

namespace Unitus

open CScript

/-- The flags `VerifyScript` asserts: `CLEANSTACK` only with `P2SH` and `WITNESS`, and `WITNESS`
only with `P2SH`. -/
def FlagsConsistent (flags : UInt32) : Prop :=
  (flags &&& SCRIPT_VERIFY_CLEANSTACK ≠ 0 →
      flags &&& SCRIPT_VERIFY_P2SH ≠ 0 ∧ flags &&& SCRIPT_VERIFY_WITNESS ≠ 0) ∧
    (flags &&& SCRIPT_VERIFY_WITNESS ≠ 0 → flags &&& SCRIPT_VERIFY_P2SH ≠ 0)

instance (flags : UInt32) : Decidable (FlagsConsistent flags) :=
  inferInstanceAs (Decidable (_ ∧ _))

/-- `stack.resize(1)` of a stack that is not empty: its bottom element. -/
def resize1 (stack : List valtype) : List valtype := stack.drop (stack.length - 1)

section

variable (crypto : Crypto) (checker : BaseSignatureChecker)

/-- The script `VerifyWitnessProgram` runs, and the stack it runs on: for version 0, the last
witness item, whose `SHA256` the 32-byte program must be, on the rest of the witness, or the
pay-to-pubkey-hash script of a 20-byte program on the witness; `none` for a higher version,
which passes, for future soft forks. -/
def WitnessProgramScript (witness : CScriptWitness) (witversion : Nat) (program : List UInt8)
    (flags : UInt32) : EStateM ScriptError Nat (Option (CScript × List valtype)) :=
  if witversion = 0 then
    if program.length = 32 then
      match witness.stack.getLast? with
      | none => throw .SCRIPT_ERR_WITNESS_PROGRAM_WITNESS_EMPTY
      | some scriptPubKey => do
        if (crypto.SHA256 scriptPubKey).data ≠ program then
          throw .SCRIPT_ERR_WITNESS_PROGRAM_MISMATCH
        pure (some (scriptPubKey, witness.stack.dropLast))
    else if program.length = 20 then do
      -- pay-to-pubkey-hash: signature and key in the witness
      if witness.stack.length ≠ 2 then throw .SCRIPT_ERR_WITNESS_PROGRAM_MISMATCH
      pure (some ([OP_DUP, OP_HASH160] ++ pushVch program ++ [OP_EQUALVERIFY, OP_CHECKSIG],
        witness.stack))
    else throw .SCRIPT_ERR_WITNESS_PROGRAM_WRONG_LENGTH
  else if flags &&& SCRIPT_VERIFY_DISCOURAGE_UPGRADABLE_WITNESS_PROGRAM ≠ 0 then
    throw .SCRIPT_ERR_DISCOURAGE_UPGRADABLE_WITNESS_PROGRAM
  else pure none

/-- `VerifyWitnessProgram(witness, witversion, program, flags, checker, serror)`. -/
def VerifyWitnessProgram (witness : CScriptWitness) (witversion : Nat) (program : List UInt8)
    (flags : UInt32) : EStateM ScriptError Nat Unit := do
  match ← WitnessProgramScript crypto witness witversion program flags with
  | none => pure ()
  | some (scriptPubKey, stack) =>
    if stack.any (·.length > MAX_SCRIPT_ELEMENT_SIZE) then throw .SCRIPT_ERR_PUSH_SIZE
    -- the witness stack has its top last
    let stack ← EvalScript crypto stack.reverse scriptPubKey flags checker .SIGVERSION_WITNESS_V0
    -- scripts inside a witness need a clean stack
    if stack.length ≠ 1 then throw .SCRIPT_ERR_EVAL_FALSE
    if !CastToBool (stack.headD []) then throw .SCRIPT_ERR_EVAL_FALSE

/-! ### The phases of `VerifyScript` -/

/-- `scriptSig` (push-only under `SIGPUSHONLY`), then `scriptPubKey` on the stack it leaves,
whose top must be true: the stack `scriptSig` leaves, which P2SH copies, and the one
`scriptPubKey` leaves. -/
def EvalScripts (scriptSig scriptPubKey : CScript) (flags : UInt32) :
    EStateM ScriptError Nat (List valtype × List valtype) := do
  if flags &&& SCRIPT_VERIFY_SIGPUSHONLY ≠ 0 ∧ !IsPushOnly scriptSig then
    throw .SCRIPT_ERR_SIG_PUSHONLY
  let stackSig ← EvalScript crypto [] scriptSig flags checker .SIGVERSION_BASE
  let stack ← EvalScript crypto stackSig scriptPubKey flags checker .SIGVERSION_BASE
  if stack.isEmpty then throw .SCRIPT_ERR_EVAL_FALSE
  if !CastToBool (stack.headD []) then throw .SCRIPT_ERR_EVAL_FALSE
  pure (stackSig, stack)

/-- Bare witness programs: the stack, and whether a witness program was checked. -/
def VerifyBareWitness (scriptSig scriptPubKey : CScript) (witness : CScriptWitness)
    (flags : UInt32) (stack : List valtype) : EStateM ScriptError Nat (List valtype × Bool) :=
  if flags &&& SCRIPT_VERIFY_WITNESS ≠ 0 then
    match IsWitnessProgram scriptPubKey with
    | some (witnessversion, witnessprogram) => do
      -- the scriptSig must be exactly empty, against malleability
      if scriptSig.length ≠ 0 then throw .SCRIPT_ERR_WITNESS_MALLEATED
      VerifyWitnessProgram crypto checker witness witnessversion witnessprogram flags
      -- a witness program's stack is not clean: the cleanstack check is bypassed
      pure (resize1 stack, true)
    | none => pure (stack, false)
  else pure (stack, false)

/-- Additional validation for spend-to-script-hash transactions: the redeem script, the last
push of `scriptSig` and so the top of `stackCopy`, runs on the rest of `stackCopy`, and may
itself be a witness program. -/
def VerifyP2SH (scriptSig scriptPubKey : CScript) (witness : CScriptWitness) (flags : UInt32)
    (stackCopy stack : List valtype) (hadWitness : Bool) :
    EStateM ScriptError Nat (List valtype × Bool) :=
  if flags &&& SCRIPT_VERIFY_P2SH ≠ 0 ∧ IsPayToScriptHash scriptPubKey then do
    if !IsPushOnly scriptSig then throw .SCRIPT_ERR_SIG_PUSHONLY
    match stackCopy with
    -- `assert(!stack.empty())`: `HASH160 <> EQUAL` has failed on an empty stack
    | [] => throw .SCRIPT_ERR_UNKNOWN_ERROR
    | pubKey2 :: stack => do
      let stack ← EvalScript crypto stack pubKey2 flags checker .SIGVERSION_BASE
      if stack.isEmpty then throw .SCRIPT_ERR_EVAL_FALSE
      if !CastToBool (stack.headD []) then throw .SCRIPT_ERR_EVAL_FALSE
      -- P2SH witness program
      if flags &&& SCRIPT_VERIFY_WITNESS ≠ 0 then
        match IsWitnessProgram pubKey2 with
        | some (witnessversion, witnessprogram) => do
          -- the scriptSig must be exactly one push of the redeem script
          if scriptSig ≠ pushVch pubKey2 then throw .SCRIPT_ERR_WITNESS_MALLEATED_P2SH
          VerifyWitnessProgram crypto checker witness witnessversion witnessprogram flags
          pure (resize1 stack, true)
        | none => pure (stack, hadWitness)
      else pure (stack, hadWitness)
  else pure (stack, hadWitness)

/-- The checks that end `VerifyScript`: the cleanstack check, which comes after the P2SH
evaluation whose inputs would remain, and a witness only where a program was checked. -/
def VerifyCleanStack (witness : CScriptWitness) (flags : UInt32) (stack : List valtype)
    (hadWitness : Bool) : EStateM ScriptError Nat Unit := do
  if flags &&& SCRIPT_VERIFY_CLEANSTACK ≠ 0 then
    if flags &&& SCRIPT_VERIFY_P2SH = 0 ∨ flags &&& SCRIPT_VERIFY_WITNESS = 0 then
      throw .SCRIPT_ERR_UNKNOWN_ERROR
    if stack.length ≠ 1 then throw .SCRIPT_ERR_CLEANSTACK
  if flags &&& SCRIPT_VERIFY_WITNESS ≠ 0 then
    if flags &&& SCRIPT_VERIFY_P2SH = 0 then throw .SCRIPT_ERR_UNKNOWN_ERROR
    if !hadWitness ∧ !witness.IsNull then throw .SCRIPT_ERR_WITNESS_UNEXPECTED

section Phases

variable {scriptSig scriptPubKey : CScript} {witness : CScriptWitness} {flags : UInt32}

theorem VerifyBareWitness_of_not_witness (h : flags &&& SCRIPT_VERIFY_WITNESS = 0)
    (stack : List valtype) :
    VerifyBareWitness crypto checker scriptSig scriptPubKey witness flags stack =
      pure (stack, false) := by
  rw [VerifyBareWitness, if_neg (not_not.mpr h)]

theorem VerifyBareWitness_of_not_program (h : IsWitnessProgram scriptPubKey = none)
    (stack : List valtype) :
    VerifyBareWitness crypto checker scriptSig scriptPubKey witness flags stack =
      pure (stack, false) := by
  unfold VerifyBareWitness
  rw [h]
  split_ifs <;> rfl

theorem VerifyP2SH_of_not_p2sh_flag (h : flags &&& SCRIPT_VERIFY_P2SH = 0)
    (stackCopy stack : List valtype) (hadWitness : Bool) :
    VerifyP2SH crypto checker scriptSig scriptPubKey witness flags stackCopy stack hadWitness =
      pure (stack, hadWitness) := by
  unfold VerifyP2SH
  rw [if_neg fun hc => hc.1 h]

theorem VerifyP2SH_of_not_p2sh (h : IsPayToScriptHash scriptPubKey = false)
    (stackCopy stack : List valtype) (hadWitness : Bool) :
    VerifyP2SH crypto checker scriptSig scriptPubKey witness flags stackCopy stack hadWitness =
      pure (stack, hadWitness) := by
  unfold VerifyP2SH
  rw [if_neg fun hc => Bool.false_ne_true (h ▸ hc.2)]

theorem VerifyCleanStack_of_not_witness (hC : flags &&& SCRIPT_VERIFY_CLEANSTACK = 0)
    (hW : flags &&& SCRIPT_VERIFY_WITNESS = 0) (stack : List valtype) (hadWitness : Bool) :
    VerifyCleanStack witness flags stack hadWitness = pure () := by
  simp [VerifyCleanStack, hC, hW]

end Phases

/-- `VerifyScript(scriptSig, scriptPubKey, witness, flags, checker, serror)`, phase after
phase. -/
def VerifyScript (scriptSig scriptPubKey : CScript) (witness : CScriptWitness) (flags : UInt32) :
    EStateM ScriptError Nat Unit := do
  let (stackSig, stack) ← EvalScripts crypto checker scriptSig scriptPubKey flags
  let stackCopy := if flags &&& SCRIPT_VERIFY_P2SH ≠ 0 then stackSig else []
  let (stack, hadWitness) ←
    VerifyBareWitness crypto checker scriptSig scriptPubKey witness flags stack
  let (stack, hadWitness) ←
    VerifyP2SH crypto checker scriptSig scriptPubKey witness flags stackCopy stack hadWitness
  VerifyCleanStack witness flags stack hadWitness

end

end Unitus
