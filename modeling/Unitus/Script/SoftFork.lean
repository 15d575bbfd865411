import Unitus.Lib.EStateM
import Unitus.Script.Verify

/-!
# Script — the verification flags as soft forks

A verification flag is a soft fork when a run that passes with it also passes without it: a
larger flag set `G ⊇ F` can only turn successes into failures.  Each flag the interpreter reads
adds an error exit (a minimal encoding, a signature encoding, `NULLFAIL`, `NULLDUMMY`,
`MINIMALIF`, the discouraged `NOP`s and witness versions), so under `G` each opcode, `EvalStep`,
the loop and `EvalScript` refine their runs under `F`: where `G` returns, `F` returns the same
stack with the same count of `CheckSig` calls (`EvalScript_refines`).

Two flags do more than add an exit.  `CHECKLOCKTIMEVERIFY` and `CHECKSEQUENCEVERIFY` turn a
`NOP2`/`NOP3` into a check, and a `NOP` that `F` discourages fails where `G`'s check may pass:
`VerifyScript_cltv_not_soft_fork` is such a pair.  Where `F` does not discourage them, or
enables them wherever `G` does, the refinement holds.  `P2SH` and `WITNESS` add evaluations
whose stack `CLEANSTACK` and the unexpected-witness check then read; `VerifyScript` under `G`
refines its run under `F` as to success, given that `F` meets `VerifyScript`'s assertions
(`VerifyScript_flags_soft_fork`).
-/

namespace Unitus

open CScript EStateM Std.Do

set_option mvcgen.warning false

/-! ### Flag sets -/

section Flags

variable {F G : UInt32}

/-- A flag of `F` is a flag of every `G ⊇ F`. -/
theorem flag_of_subset (hFG : F &&& G = F) {X : UInt32} (h : F &&& X ≠ 0) : G &&& X ≠ 0 := by
  intro hG
  apply h
  rw [← hFG, UInt32.and_assoc, hG, UInt32.and_zero]

theorem fRequireMinimal_of_subset (hFG : F &&& G = F) (h : fRequireMinimal F = true) :
    fRequireMinimal G = true := by
  simp only [fRequireMinimal, decide_eq_true_eq] at h ⊢
  exact flag_of_subset hFG h

end Flags

/-! ### Reading numbers and encodings -/

/-- Reading a number minimally refines reading it as it is. -/
theorem scriptNum_refines {b b' : Bool} (h : b = true → b' = true) (vch : valtype) (n : Nat) :
    Refines (scriptNum vch b' n) (scriptNum vch b n) := by
  intro s a s' hrun
  unfold scriptNum at hrun ⊢
  cases hv : CScriptNum.ofVch vch b' n with
  | error e =>
    rw [hv] at hrun
    cases hrun
  | ok v =>
    rw [hv] at hrun
    have hb : CScriptNum.ofVch vch b n = .ok v := by
      cases b
      · exact CScriptNum.ofVch_of_requireMinimal hv
      · rwa [h rfl] at hv
    rw [hb]
    exact hrun

theorem liftCheck_refines {c c' : Except ScriptError Unit} (h : c = .ok () → c' = .ok ()) :
    Refines (liftCheck c) (liftCheck c') := by
  intro s a s' hrun
  cases c with
  | error e => cases hrun
  | ok u => rw [h rfl]; exact hrun

theorem CheckSignatureEncoding_eq_ok (L : List UInt8 → Bool) (v : valtype) (flags : UInt32) :
    CheckSignatureEncoding L v flags = .ok () ↔
      v.length = 0 ∨
        (¬(flags &&& (SCRIPT_VERIFY_DERSIG ||| SCRIPT_VERIFY_LOW_S ||| SCRIPT_VERIFY_STRICTENC) ≠ 0 ∧
            IsValidSignatureEncoding v = false) ∧
          (flags &&& SCRIPT_VERIFY_LOW_S ≠ 0 → IsLowDERSignature L v = .ok ()) ∧
          ¬(flags &&& SCRIPT_VERIFY_STRICTENC ≠ 0 ∧ IsDefinedHashtypeSignature v = false)) := by
  unfold CheckSignatureEncoding
  by_cases h0 : v.length = 0
  · simp only [h0, if_true, true_or, iff_true]
    rfl
  · simp only [h0, if_false, false_or, Bool.not_eq_eq_eq_not, Bool.not_true]
    cases hl : IsLowDERSignature L v <;> split_ifs <;>
      simp_all [throw, throwThe, MonadExceptOf.throw, bind, Except.bind, pure, Except.pure]

theorem CheckPubKeyEncoding_eq_ok (v : valtype) (flags : UInt32) (sigversion : SigVersion) :
    CheckPubKeyEncoding v flags sigversion = .ok () ↔
      ¬(flags &&& SCRIPT_VERIFY_STRICTENC ≠ 0 ∧ IsCompressedOrUncompressedPubKey v = false) ∧
        ¬(flags &&& SCRIPT_VERIFY_WITNESS_PUBKEYTYPE ≠ 0 ∧
          sigversion = .SIGVERSION_WITNESS_V0 ∧ IsCompressedPubKey v = false) := by
  unfold CheckPubKeyEncoding
  simp only [Bool.not_eq_eq_eq_not, Bool.not_true]
  split_ifs <;> simp_all [throw, throwThe, MonadExceptOf.throw, bind, Except.bind, pure, Except.pure]

section Subset

variable {F G : UInt32} (hFG : F &&& G = F)
include hFG

theorem CheckSignatureEncoding_of_subset {L : List UInt8 → Bool} {v : valtype}
    (h : CheckSignatureEncoding L v G = .ok ()) : CheckSignatureEncoding L v F = .ok () := by
  rw [CheckSignatureEncoding_eq_ok] at h ⊢
  rcases h with h0 | ⟨hder, hlow, henc⟩
  · exact Or.inl h0
  · exact Or.inr ⟨fun h => hder ⟨flag_of_subset hFG h.1, h.2⟩,
      fun h => hlow (flag_of_subset hFG h), fun h => henc ⟨flag_of_subset hFG h.1, h.2⟩⟩

theorem CheckPubKeyEncoding_of_subset {v : valtype} {sigversion : SigVersion}
    (h : CheckPubKeyEncoding v G sigversion = .ok ()) : CheckPubKeyEncoding v F sigversion = .ok () := by
  rw [CheckPubKeyEncoding_eq_ok] at h ⊢
  obtain ⟨hstrict, hwit⟩ := h
  exact ⟨fun h => hstrict ⟨flag_of_subset hFG h.1, h.2⟩,
    fun h => hwit ⟨flag_of_subset hFG h.1, h.2⟩⟩

theorem scriptNum_refines_of_subset (vch : valtype) (n : Nat) :
    Refines (scriptNum vch (fRequireMinimal G) n) (scriptNum vch (fRequireMinimal F) n) :=
  scriptNum_refines (fRequireMinimal_of_subset hFG) vch n

end Subset

/-! ### The opcodes -/

/-- `OP_CHECKLOCKTIMEVERIFY` only reads the state. -/
theorem opCheckLockTimeVerify_readOnly (checker : BaseSignatureChecker) (flags : UInt32)
    (s₀ : EvalState) :
    ⦃fun s => ⌜s = s₀⌝⦄ opCheckLockTimeVerify checker flags
    ⦃post⟨fun _ s => ⌜s = s₀⌝, fun _ _ => ⌜True⌝⟩⦄ := by
  mvcgen [opCheckLockTimeVerify, requireStack, stacktop, scriptNum]

/-- `OP_CHECKSEQUENCEVERIFY` only reads the state. -/
theorem opCheckSequenceVerify_readOnly (checker : BaseSignatureChecker) (flags : UInt32)
    (s₀ : EvalState) :
    ⦃fun s => ⌜s = s₀⌝⦄ opCheckSequenceVerify checker flags
    ⦃post⟨fun _ s => ⌜s = s₀⌝, fun _ _ => ⌜True⌝⟩⦄ := by
  mvcgen [opCheckSequenceVerify, requireStack, stacktop, scriptNum]

section Subset

variable {F G : UInt32} (hFG : F &&& G = F)
include hFG

theorem opUpgradableNop_refines : Refines (opUpgradableNop G) (opUpgradableNop F) := by
  simp only [opUpgradableNop]
  exact Refines.guard (flag_of_subset hFG) _ _ (Refines.refl _)

/-- Where `F` discourages the upgradable `NOP`s, `G` enables `CHECKLOCKTIMEVERIFY` only if `F`
does: else `G` checks a lock time where `F` fails on `NOP2`. -/
theorem opCheckLockTimeVerify_refines
    (hcltv : F &&& SCRIPT_VERIFY_DISCOURAGE_UPGRADABLE_NOPS ≠ 0 →
      G &&& SCRIPT_VERIFY_CHECKLOCKTIMEVERIFY ≠ 0 → F &&& SCRIPT_VERIFY_CHECKLOCKTIMEVERIFY ≠ 0)
    (checker : BaseSignatureChecker) :
    Refines (opCheckLockTimeVerify checker G) (opCheckLockTimeVerify checker F) := by
  by_cases hF : F &&& SCRIPT_VERIFY_CHECKLOCKTIMEVERIFY = 0
  · by_cases hG : G &&& SCRIPT_VERIFY_CHECKLOCKTIMEVERIFY = 0
    · -- a `NOP2` for both
      simp only [opCheckLockTimeVerify, if_pos hF, if_pos hG]
      exact Refines.guard (flag_of_subset hFG) _ _ (Refines.refl _)
    · -- `G` checks the lock time and changes nothing; `F` has a `NOP2` it does not discourage
      have hD : ¬F &&& SCRIPT_VERIFY_DISCOURAGE_UPGRADABLE_NOPS ≠ 0 := fun hD => hcltv hD hG hF
      intro s a s' h
      have hs : s' = s := of_triple_ok (opCheckLockTimeVerify_readOnly checker G s) rfl h
      subst hs
      simp only [opCheckLockTimeVerify, if_pos hF, if_neg hD]
      rfl
  · have hG : ¬G &&& SCRIPT_VERIFY_CHECKLOCKTIMEVERIFY = 0 := flag_of_subset hFG hF
    simp only [opCheckLockTimeVerify, if_neg hF, if_neg hG, throw_bind]
    exact Refines.bind (Refines.refl _) fun _ => Refines.bind (Refines.refl _) fun v =>
      Refines.bind (scriptNum_refines_of_subset hFG v 5) fun _ => Refines.refl _

/-- `OP_CHECKSEQUENCEVERIFY`, as `OP_CHECKLOCKTIMEVERIFY`. -/
theorem opCheckSequenceVerify_refines
    (hcsv : F &&& SCRIPT_VERIFY_DISCOURAGE_UPGRADABLE_NOPS ≠ 0 →
      G &&& SCRIPT_VERIFY_CHECKSEQUENCEVERIFY ≠ 0 → F &&& SCRIPT_VERIFY_CHECKSEQUENCEVERIFY ≠ 0)
    (checker : BaseSignatureChecker) :
    Refines (opCheckSequenceVerify checker G) (opCheckSequenceVerify checker F) := by
  by_cases hF : F &&& SCRIPT_VERIFY_CHECKSEQUENCEVERIFY = 0
  · by_cases hG : G &&& SCRIPT_VERIFY_CHECKSEQUENCEVERIFY = 0
    · simp only [opCheckSequenceVerify, if_pos hF, if_pos hG]
      exact Refines.guard (flag_of_subset hFG) _ _ (Refines.refl _)
    · have hD : ¬F &&& SCRIPT_VERIFY_DISCOURAGE_UPGRADABLE_NOPS ≠ 0 := fun hD => hcsv hD hG hF
      intro s a s' h
      have hs : s' = s := of_triple_ok (opCheckSequenceVerify_readOnly checker G s) rfl h
      subst hs
      simp only [opCheckSequenceVerify, if_pos hF, if_neg hD]
      rfl
  · have hG : ¬G &&& SCRIPT_VERIFY_CHECKSEQUENCEVERIFY = 0 := flag_of_subset hFG hF
    simp only [opCheckSequenceVerify, if_neg hF, if_neg hG, throw_bind]
    exact Refines.bind (Refines.refl _) fun _ => Refines.bind (Refines.refl _) fun v =>
      Refines.bind (scriptNum_refines_of_subset hFG v 5) fun _ => Refines.refl _

/-- `MINIMALIF` only adds the two checks of the operand. -/
theorem opIf_refines (sigversion : SigVersion) (fExec : Bool) (opcode : UInt8) :
    Refines (opIf G sigversion fExec opcode) (opIf F sigversion fExec opcode) := by
  simp only [opIf, throw_bind]
  apply Refines.ite ?_ fun _ => Refines.refl _
  intro _
  refine Refines.bind (Refines.refl _) fun _ => ?_
  apply Refines.ite (fun _ => Refines.refl _)
  intro _
  refine Refines.bind (Refines.refl _) fun _ => ?_
  apply Refines.ite_of_imp
  · exact fun h => ⟨h.1, flag_of_subset hFG h.2⟩
  · exact Refines.guard_left _ (Refines.guard_left _ (Refines.refl _))

theorem opPickRoll_refines (opcode : UInt8) :
    Refines (opPickRoll G opcode) (opPickRoll F opcode) := by
  simp only [opPickRoll]
  exact Refines.bind (Refines.refl _) fun _ => Refines.bind (Refines.refl _) fun v =>
    Refines.bind (scriptNum_refines_of_subset hFG v 4) fun _ => Refines.refl _

theorem opNumeric1_refines (opcode : UInt8) :
    Refines (opNumeric1 G opcode) (opNumeric1 F opcode) := by
  simp only [opNumeric1]
  exact Refines.bind (Refines.refl _) fun _ => Refines.bind (Refines.refl _) fun v =>
    Refines.bind (scriptNum_refines_of_subset hFG v 4) fun _ => Refines.refl _

theorem opNumeric2_refines (opcode : UInt8) :
    Refines (opNumeric2 G opcode) (opNumeric2 F opcode) := by
  simp only [opNumeric2]
  exact Refines.bind (Refines.refl _) fun _ => Refines.bind (Refines.refl _) fun v₁ =>
    Refines.bind (scriptNum_refines_of_subset hFG v₁ 4) fun _ =>
    Refines.bind (Refines.refl _) fun v₂ =>
    Refines.bind (scriptNum_refines_of_subset hFG v₂ 4) fun _ => Refines.refl _

theorem opWithin_refines : Refines (opWithin G) (opWithin F) := by
  simp only [opWithin]
  exact Refines.bind (Refines.refl _) fun _ => Refines.bind (Refines.refl _) fun v₁ =>
    Refines.bind (scriptNum_refines_of_subset hFG v₁ 4) fun _ =>
    Refines.bind (Refines.refl _) fun v₂ =>
    Refines.bind (scriptNum_refines_of_subset hFG v₂ 4) fun _ =>
    Refines.bind (Refines.refl _) fun v₃ =>
    Refines.bind (scriptNum_refines_of_subset hFG v₃ 4) fun _ => Refines.refl _

theorem opCheckSig_refines (crypto : Crypto) (checker : BaseSignatureChecker) (script : CScript)
    (sigversion : SigVersion) (opcode : UInt8) :
    Refines (opCheckSig crypto checker script G sigversion opcode)
      (opCheckSig crypto checker script F sigversion opcode) := by
  simp only [opCheckSig, throw_bind]
  refine Refines.bind (Refines.refl _) fun _ => Refines.bind (Refines.refl _) fun _ =>
    Refines.bind (Refines.refl _) fun _ => Refines.bind (Refines.refl _) fun _ => ?_
  refine Refines.bind (liftCheck_refines (CheckSignatureEncoding_of_subset hFG)) fun _ =>
    Refines.bind (liftCheck_refines (CheckPubKeyEncoding_of_subset hFG)) fun _ =>
    Refines.bind (Refines.refl _) fun _ => Refines.guard ?_ _ _ (Refines.refl _)
  exact fun h => ⟨h.1, flag_of_subset hFG h.2.1, h.2.2⟩

theorem multisigLoop_refines (crypto : Crypto) (checker : BaseSignatureChecker)
    (sigversion : SigVersion) (scriptCode : CScript) :
    ∀ isig ikey nSigsCount nKeysCount,
      Refines (multisigLoop crypto checker G sigversion scriptCode isig ikey nSigsCount nKeysCount)
        (multisigLoop crypto checker F sigversion scriptCode isig ikey nSigsCount nKeysCount)
  | _, _, 0, _ => by
    simp only [multisigLoop]
    exact Refines.refl _
  | _, _, _ + 1, 0 => by
    simp only [multisigLoop]
    exact Refines.refl _
  | isig, ikey, nSigsCount + 1, nKeysCount + 1 => by
    simp only [multisigLoop]
    refine Refines.bind (Refines.refl _) fun _ => Refines.bind (Refines.refl _) fun _ => ?_
    exact Refines.bind (liftCheck_refines (CheckSignatureEncoding_of_subset hFG)) fun _ =>
      Refines.bind (liftCheck_refines (CheckPubKeyEncoding_of_subset hFG)) fun _ =>
      Refines.bind (Refines.refl _) fun _ => Refines.ite (fun _ => Refines.refl _) fun _ =>
      multisigLoop_refines crypto checker sigversion scriptCode _ _ _ nKeysCount

theorem cleanupLoop_refines (fSuccess : Bool) :
    ∀ n ikey2, Refines (cleanupLoop G fSuccess n ikey2) (cleanupLoop F fSuccess n ikey2)
  | 0, _ => Refines.refl _
  | n + 1, ikey2 => by
    simp only [cleanupLoop, throw_bind]
    refine Refines.bind (Refines.refl _) fun _ => Refines.guard ?_ _ _
      (Refines.bind (Refines.refl _) fun _ => cleanupLoop_refines fSuccess n (ikey2 - 1))
    exact fun h => ⟨h.1, flag_of_subset hFG h.2.1, h.2.2⟩

theorem opCheckMultiSig_refines (crypto : Crypto) (checker : BaseSignatureChecker)
    (script : CScript) (sigversion : SigVersion) (opcode : UInt8) :
    Refines (opCheckMultiSig crypto checker script G sigversion opcode)
      (opCheckMultiSig crypto checker script F sigversion opcode) := by
  simp only [opCheckMultiSig, throw_bind]
  -- the key count, then the opcode limit
  refine Refines.bind (Refines.refl _) fun _ => Refines.bind (Refines.refl _) fun v =>
    Refines.bind (scriptNum_refines_of_subset hFG v 4) fun _ =>
    Refines.ite (fun _ => Refines.refl _) fun _ => ?_
  refine Refines.bind (Refines.refl _) fun _ => Refines.bind (Refines.refl _) fun _ =>
    Refines.ite (fun _ => Refines.refl _) fun _ => ?_
  -- the signature count
  refine Refines.bind (Refines.refl _) fun _ => Refines.bind (Refines.refl _) fun v =>
    Refines.bind (scriptNum_refines_of_subset hFG v 4) fun _ =>
    Refines.ite (fun _ => Refines.refl _) fun _ => ?_
  -- the checks, the cleanup and the dummy element
  refine Refines.bind (Refines.refl _) fun _ => Refines.bind (Refines.refl _) fun _ =>
    Refines.bind (multisigLoop_refines hFG crypto checker sigversion _ _ _ _ _) fun _ =>
    Refines.bind (cleanupLoop_refines hFG _ _ _) fun _ => ?_
  refine Refines.bind (Refines.refl _) fun _ => Refines.bind (Refines.refl _) fun _ =>
    Refines.guard ?_ _ _ (Refines.refl _)
  exact fun h => ⟨flag_of_subset hFG h.1, h.2⟩

section Run

variable (hnop : F &&& SCRIPT_VERIFY_DISCOURAGE_UPGRADABLE_NOPS ≠ 0 →
    (G &&& SCRIPT_VERIFY_CHECKLOCKTIMEVERIFY ≠ 0 → F &&& SCRIPT_VERIFY_CHECKLOCKTIMEVERIFY ≠ 0) ∧
      (G &&& SCRIPT_VERIFY_CHECKSEQUENCEVERIFY ≠ 0 → F &&& SCRIPT_VERIFY_CHECKSEQUENCEVERIFY ≠ 0))
include hnop

variable (crypto : Crypto) (checker : BaseSignatureChecker) (script : CScript)
  (sigversion : SigVersion)

/-- Each opcode: the flags only add error exits. -/
theorem ExecOpcode_refines (fExec : Bool) (opcode : UInt8) :
    Refines (ExecOpcode crypto checker script G sigversion fExec opcode)
      (ExecOpcode crypto checker script F sigversion fExec opcode) := by
  unfold ExecOpcode
  -- one condition per group of the `switch`, none of them on the flags
  refine Refines.ite (fun _ => Refines.refl _) fun _ => ?_
  refine Refines.ite (fun _ => Refines.refl _) fun _ => ?_
  refine Refines.ite (fun _ => opCheckLockTimeVerify_refines hFG (fun hD => (hnop hD).1) checker)
    fun _ => ?_
  refine Refines.ite (fun _ => opCheckSequenceVerify_refines hFG (fun hD => (hnop hD).2) checker)
    fun _ => ?_
  refine Refines.ite (fun _ => opUpgradableNop_refines hFG) fun _ => ?_
  refine Refines.ite (fun _ => opIf_refines hFG sigversion fExec opcode) fun _ => ?_
  refine Refines.ite (fun _ => Refines.refl _) fun _ => ?_
  refine Refines.ite (fun _ => Refines.refl _) fun _ => ?_
  refine Refines.ite (fun _ => Refines.refl _) fun _ => ?_
  refine Refines.ite (fun _ => Refines.refl _) fun _ => ?_
  refine Refines.ite (fun _ => opPickRoll_refines hFG opcode) fun _ => ?_
  refine Refines.ite (fun _ => Refines.refl _) fun _ => ?_
  refine Refines.ite (fun _ => Refines.refl _) fun _ => ?_
  refine Refines.ite (fun _ => opNumeric1_refines hFG opcode) fun _ => ?_
  refine Refines.ite (fun _ => opNumeric2_refines hFG opcode) fun _ => ?_
  refine Refines.ite (fun _ => opWithin_refines hFG) fun _ => ?_
  refine Refines.ite (fun _ => Refines.refl _) fun _ => ?_
  refine Refines.ite (fun _ => Refines.refl _) fun _ => ?_
  refine Refines.ite (fun _ => opCheckSig_refines hFG crypto checker script sigversion opcode)
    fun _ => ?_
  exact Refines.ite (fun _ => opCheckMultiSig_refines hFG crypto checker script sigversion opcode)
    fun _ => Refines.refl _

theorem EvalStep_refines :
    Refines (EvalStep crypto checker script G sigversion)
      (EvalStep crypto checker script F sigversion) := by
  simp only [EvalStep, throw_bind]
  -- reading the op, its size and the opcode limit do not read the flags
  refine Refines.bind (Refines.refl _) fun _ => Refines.bind (Refines.refl _) fun _ =>
    Refines.ite (fun _ => Refines.refl _) fun _ => Refines.ite (fun _ => Refines.refl _) fun _ =>
    Refines.bind (Refines.refl _) fun _ => Refines.bind (Refines.refl _) fun _ =>
    Refines.ite (fun _ => Refines.refl _) fun _ => Refines.ite (fun _ => Refines.refl _) fun _ => ?_
  -- a push is checked for minimality, an op run
  refine Refines.ite (fun _ => Refines.guard ?_ _ _ (Refines.refl _)) fun _ =>
    Refines.ite (fun _ => Refines.bind (ExecOpcode_refines hFG hnop crypto checker script
      sigversion _ _) fun _ => Refines.refl _) fun _ => Refines.refl _
  exact fun h => ⟨fRequireMinimal_of_subset hFG h.1, h.2⟩

theorem EvalLoop_refines : ∀ fuel,
    Refines (EvalLoop crypto checker script G sigversion fuel)
      (EvalLoop crypto checker script F sigversion fuel)
  | 0 => Refines.refl _
  | fuel + 1 => by
    simp only [EvalLoop]
    exact Refines.bind (Refines.refl _) fun _ => Refines.ite (fun _ =>
      Refines.bind (EvalStep_refines hFG hnop crypto checker script sigversion) fun _ =>
        EvalLoop_refines fuel) fun _ => Refines.refl _

theorem EvalScriptBody_refines :
    Refines (EvalScriptBody crypto checker script G sigversion)
      (EvalScriptBody crypto checker script F sigversion) := by
  simp only [EvalScriptBody, throw_bind]
  exact Refines.ite (fun _ => Refines.refl _) fun _ =>
    Refines.bind (EvalLoop_refines hFG hnop crypto checker script sigversion _) fun _ =>
      Refines.refl _

theorem EvalScript_refines (stack : List valtype) :
    Refines (EvalScript crypto stack script G checker sigversion)
      (EvalScript crypto stack script F checker sigversion) := by
  intro n a n' h
  rw [EvalScript_run] at h ⊢
  cases hG : (EvalScriptBody crypto checker script G sigversion).run (EvalState.init stack n) with
  | ok u st =>
    rw [EvalScriptBody_refines hFG hnop crypto checker script sigversion _ u st hG]
    rw [hG] at h
    exact h
  | error e st =>
    rw [hG] at h
    cases h

theorem VerifyWitnessProgram_refines (witness : CScriptWitness) (witversion : Nat)
    (program : List UInt8) :
    Refines (VerifyWitnessProgram crypto checker witness witversion program G)
      (VerifyWitnessProgram crypto checker witness witversion program F) := by
  simp only [VerifyWitnessProgram, throw_bind]
  refine Refines.bind ?_ fun r => ?_
  · -- only a higher version reads the flags: `DISCOURAGE_UPGRADABLE_WITNESS_PROGRAM`
    simp only [WitnessProgramScript]
    exact Refines.ite (fun _ => Refines.refl _) fun _ =>
      Refines.guard (flag_of_subset hFG) _ _ (Refines.refl _)
  rcases r with _ | ⟨scriptPubKey, stack⟩
  · exact Refines.refl _
  · exact Refines.ite (fun _ => Refines.refl _) fun _ =>
      Refines.bind (EvalScript_refines hFG hnop crypto checker scriptPubKey _ _) fun _ =>
        Refines.refl _

end Run

end Subset

section Verify

variable {F G : UInt32} (hFG : F &&& G = F)
  (hnop : F &&& SCRIPT_VERIFY_DISCOURAGE_UPGRADABLE_NOPS ≠ 0 →
    (G &&& SCRIPT_VERIFY_CHECKLOCKTIMEVERIFY ≠ 0 → F &&& SCRIPT_VERIFY_CHECKLOCKTIMEVERIFY ≠ 0) ∧
      (G &&& SCRIPT_VERIFY_CHECKSEQUENCEVERIFY ≠ 0 → F &&& SCRIPT_VERIFY_CHECKSEQUENCEVERIFY ≠ 0))
include hFG hnop

variable (crypto : Crypto) (checker : BaseSignatureChecker) (scriptSig scriptPubKey : CScript)
  (witness : CScriptWitness)

/-! ### The phases of `VerifyScript` -/

theorem EvalScripts_refines :
    Refines (EvalScripts crypto checker scriptSig scriptPubKey G)
      (EvalScripts crypto checker scriptSig scriptPubKey F) := by
  simp only [EvalScripts, throw_bind]
  refine Refines.guard (fun h => ⟨flag_of_subset hFG h.1, h.2⟩) _ _ ?_
  exact Refines.bind (EvalScript_refines hFG hnop crypto checker scriptSig _ _) fun _ =>
    Refines.bind (EvalScript_refines hFG hnop crypto checker scriptPubKey _ _) fun _ =>
      Refines.refl _

theorem VerifyBareWitness_refines (hW : F &&& SCRIPT_VERIFY_WITNESS ≠ 0) (stack : List valtype) :
    Refines (VerifyBareWitness crypto checker scriptSig scriptPubKey witness G stack)
      (VerifyBareWitness crypto checker scriptSig scriptPubKey witness F stack) := by
  unfold VerifyBareWitness
  rw [if_pos hW, if_pos (flag_of_subset hFG hW)]
  cases IsWitnessProgram scriptPubKey with
  | none => exact Refines.refl _
  | some p =>
    simp only [throw_bind]
    exact Refines.ite (fun _ => Refines.refl _) fun _ =>
      Refines.bind (VerifyWitnessProgram_refines hFG hnop crypto checker _ _ _) fun _ =>
        Refines.refl _

/-- With `P2SH` and `WITNESS` in `F`, the P2SH phase takes the same branches under both. -/
theorem VerifyP2SH_refines (hP : F &&& SCRIPT_VERIFY_P2SH ≠ 0)
    (hW : F &&& SCRIPT_VERIFY_WITNESS ≠ 0) (stackCopy stack : List valtype) (hadWitness : Bool) :
    Refines
      (VerifyP2SH crypto checker scriptSig scriptPubKey witness G stackCopy stack hadWitness)
      (VerifyP2SH crypto checker scriptSig scriptPubKey witness F stackCopy stack hadWitness) := by
  have hPG := flag_of_subset hFG hP
  have hWG := flag_of_subset hFG hW
  simp only [VerifyP2SH, throw_bind, ne_eq, hP, hPG, hW, hWG, not_false_eq_true, true_and,
    if_true]
  refine Refines.ite (fun _ => ?_) fun _ => Refines.refl _
  refine Refines.ite (fun _ => Refines.refl _) fun _ => ?_
  rcases stackCopy with _ | ⟨pubKey2, stack⟩
  · exact Refines.refl _
  · refine Refines.bind (EvalScript_refines hFG hnop crypto checker pubKey2 _ _) fun _ =>
      Refines.ite (fun _ => Refines.refl _) fun _ => Refines.ite (fun _ => Refines.refl _) fun _ => ?_
    cases IsWitnessProgram pubKey2 with
    | none => exact Refines.refl _
    | some p =>
      exact Refines.ite (fun _ => Refines.refl _) fun _ =>
        Refines.bind (VerifyWitnessProgram_refines hFG hnop crypto checker _ _ _) fun _ =>
          Refines.refl _

/-- With `P2SH` in `F` but not `WITNESS`, `G` may go on to a P2SH witness program that `F` never
checks: the P2SH phase under `G` refines the one under `F` as to success. -/
theorem VerifyP2SH_refinesSuccess (hP : F &&& SCRIPT_VERIFY_P2SH ≠ 0)
    (hW : F &&& SCRIPT_VERIFY_WITNESS = 0) (stackCopy stack : List valtype) (hadWitness : Bool) :
    RefinesSuccess
      (VerifyP2SH crypto checker scriptSig scriptPubKey witness G stackCopy stack hadWitness)
      (VerifyP2SH crypto checker scriptSig scriptPubKey witness F stackCopy stack hadWitness) := by
  have hPG := flag_of_subset hFG hP
  simp only [VerifyP2SH, throw_bind, ne_eq, hP, hPG, hW, not_false_eq_true, not_true_eq_false,
    true_and, if_false]
  refine RefinesSuccess.ite (fun _ => ?_) fun _ => RefinesSuccess.of_refines (Refines.refl _)
  refine RefinesSuccess.ite (fun _ => RefinesSuccess.of_refines (Refines.refl _)) fun _ => ?_
  rcases stackCopy with _ | ⟨pubKey2, stack⟩
  · exact RefinesSuccess.of_refines (Refines.refl _)
  · exact RefinesSuccess.bind (EvalScript_refines hFG hnop crypto checker pubKey2 _ _) fun _ =>
      RefinesSuccess.ite (fun _ => RefinesSuccess.of_refines (Refines.refl _)) fun _ =>
        RefinesSuccess.ite (fun _ => RefinesSuccess.of_refines (Refines.refl _)) fun _ =>
          RefinesSuccess.pure_right _ _

omit hnop in
/-- With `P2SH` and `WITNESS` in `F`, no assertion fails and `CLEANSTACK` only adds an exit. -/
theorem VerifyCleanStack_refines (hP : F &&& SCRIPT_VERIFY_P2SH ≠ 0)
    (hW : F &&& SCRIPT_VERIFY_WITNESS ≠ 0) (stack : List valtype) (hadWitness : Bool) :
    Refines (VerifyCleanStack witness G stack hadWitness)
      (VerifyCleanStack witness F stack hadWitness) := by
  have hPG := flag_of_subset hFG hP
  have hWG := flag_of_subset hFG hW
  simp only [VerifyCleanStack, throw_bind, ne_eq, hP, hPG, hW, hWG, not_false_eq_true,
    or_self, if_true, if_false]
  exact Refines.ite_of_imp (flag_of_subset hFG) (Refines.guard_left _ (Refines.refl _))

/-! ### `VerifyScript` -/

/-- The three cases of `F`: without `P2SH` (and so, by its assertions, without `CLEANSTACK` and
`WITNESS`) `F` ends after the two evaluations; with `P2SH` but not `WITNESS` it ends after the
P2SH phase, which `G` runs on the same stack unless `G` checked a bare witness program, and a
witness program is no P2SH script; with both, every phase refines. -/
theorem VerifyScript_refinesSuccess (hF : FlagsConsistent F) :
    RefinesSuccess (VerifyScript crypto checker scriptSig scriptPubKey witness G)
      (VerifyScript crypto checker scriptSig scriptPubKey witness F) := by
  unfold VerifyScript
  refine RefinesSuccess.bind (EvalScripts_refines hFG hnop crypto checker scriptSig scriptPubKey)
    fun p => ?_
  obtain ⟨stackSig, stack⟩ := p
  by_cases hP : F &&& SCRIPT_VERIFY_P2SH = 0
  · have hW : F &&& SCRIPT_VERIFY_WITNESS = 0 := not_not.mp fun hW => hF.2 hW hP
    have hC : F &&& SCRIPT_VERIFY_CLEANSTACK = 0 := not_not.mp fun hC => (hF.1 hC).1 hP
    simp only [VerifyBareWitness_of_not_witness crypto checker hW, VerifyP2SH_of_not_p2sh_flag crypto checker hP,
      VerifyCleanStack_of_not_witness hC hW, pure_bind]
    exact RefinesSuccess.pure_right _ _
  have hPG := flag_of_subset hFG hP
  by_cases hW : F &&& SCRIPT_VERIFY_WITNESS = 0
  · have hC : F &&& SCRIPT_VERIFY_CLEANSTACK = 0 := not_not.mp fun hC => (hF.1 hC).2 hW
    simp only [VerifyBareWitness_of_not_witness crypto checker hW, VerifyCleanStack_of_not_witness hC hW,
      pure_bind, ne_eq, hP, hPG, not_false_eq_true, if_true]
    cases hwp : IsWitnessProgram scriptPubKey with
    | some _ =>
      -- `G` checked a bare witness program, which `F` does not run as a P2SH script
      simp only [VerifyP2SH_of_not_p2sh crypto checker (IsPayToScriptHash_of_IsWitnessProgram hwp), pure_bind]
      exact RefinesSuccess.pure_right _ _
    | none =>
      simp only [VerifyBareWitness_of_not_program crypto checker hwp, pure_bind]
      exact RefinesSuccess.bind_returns
        (VerifyP2SH_refinesSuccess hFG hnop crypto checker scriptSig scriptPubKey witness hP hW
          _ _ _) fun _ s => ⟨(), s, rfl⟩
  · simp only [ne_eq, hP, hPG, not_false_eq_true, if_true]
    exact RefinesSuccess.of_refines <|
      Refines.bind (VerifyBareWitness_refines hFG hnop crypto checker scriptSig scriptPubKey
        witness hW _) fun q => Refines.bind (VerifyP2SH_refines hFG hnop crypto checker scriptSig
        scriptPubKey witness hP hW _ _ _) fun r => VerifyCleanStack_refines hFG witness hP hW _ _

/-- **Verification flags as soft forks.**  Let `F ⊆ G` be flag sets, `F` meeting `VerifyScript`'s
assertions, and let `F` enable `CHECKLOCKTIMEVERIFY` and `CHECKSEQUENCEVERIFY` wherever `G` does
if it discourages the upgradable `NOP`s.  Where `VerifyScript` passes under `G`, it passes under
`F`. -/
theorem VerifyScript_flags_soft_fork (hF : FlagsConsistent F) {n n' : Nat}
    (h : (VerifyScript crypto checker scriptSig scriptPubKey witness G).run n = .ok () n') :
    ∃ n'', (VerifyScript crypto checker scriptSig scriptPubKey witness F).run n = .ok () n'' := by
  obtain ⟨_, n'', hF'⟩ :=
    VerifyScript_refinesSuccess hFG hnop crypto checker scriptSig scriptPubKey witness hF n () n' h
  exact ⟨n'', hF'⟩

end Verify

/-- `OP_1` passes under `P2SH`, `WITNESS` and `CLEANSTACK`, and so under `P2SH` alone. -/
theorem VerifyScript_flags_soft_fork_cleanstack :
    (VerifyScript ⟨fun _ => [], fun _ => [], fun _ => default, fun _ => true⟩
        ⟨fun _ _ _ _ => true, fun _ => true, fun _ => true⟩ [] [OP_1] ⟨[]⟩
        (SCRIPT_VERIFY_P2SH ||| SCRIPT_VERIFY_WITNESS ||| SCRIPT_VERIFY_CLEANSTACK)).run 0 =
      .ok () 0 ∧
    ∃ n'', (VerifyScript ⟨fun _ => [], fun _ => [], fun _ => default, fun _ => true⟩
        ⟨fun _ _ _ _ => true, fun _ => true, fun _ => true⟩ [] [OP_1] ⟨[]⟩
        SCRIPT_VERIFY_P2SH).run 0 = .ok () n'' :=
  ⟨rfl, @VerifyScript_flags_soft_fork SCRIPT_VERIFY_P2SH
    (SCRIPT_VERIFY_P2SH ||| SCRIPT_VERIFY_WITNESS ||| SCRIPT_VERIFY_CLEANSTACK) (by decide)
    (by decide) _ _ _ _ _ (by decide) 0 0 rfl⟩

/-- `CHECKLOCKTIMEVERIFY` is not a soft fork over `DISCOURAGE_UPGRADABLE_NOPS`: with `F` the
discouragement alone and `G` it and `CHECKLOCKTIMEVERIFY`, both consistent, `OP_1
OP_CHECKLOCKTIMEVERIFY` passes under `G` (lock time 1, which this checker accepts) and fails
under `F` on the discouraged `NOP2`. -/
theorem VerifyScript_cltv_not_soft_fork :
    SCRIPT_VERIFY_DISCOURAGE_UPGRADABLE_NOPS &&&
        (SCRIPT_VERIFY_DISCOURAGE_UPGRADABLE_NOPS ||| SCRIPT_VERIFY_CHECKLOCKTIMEVERIFY) =
      SCRIPT_VERIFY_DISCOURAGE_UPGRADABLE_NOPS ∧
    FlagsConsistent SCRIPT_VERIFY_DISCOURAGE_UPGRADABLE_NOPS ∧
    FlagsConsistent (SCRIPT_VERIFY_DISCOURAGE_UPGRADABLE_NOPS ||| SCRIPT_VERIFY_CHECKLOCKTIMEVERIFY) ∧
    (VerifyScript ⟨fun _ => [], fun _ => [], fun _ => default, fun _ => true⟩
        ⟨fun _ _ _ _ => true, fun _ => true, fun _ => true⟩ [] [OP_1, OP_CHECKLOCKTIMEVERIFY] ⟨[]⟩
        (SCRIPT_VERIFY_DISCOURAGE_UPGRADABLE_NOPS ||| SCRIPT_VERIFY_CHECKLOCKTIMEVERIFY)).run 0 =
      .ok () 0 ∧
    (VerifyScript ⟨fun _ => [], fun _ => [], fun _ => default, fun _ => true⟩
        ⟨fun _ _ _ _ => true, fun _ => true, fun _ => true⟩ [] [OP_1, OP_CHECKLOCKTIMEVERIFY] ⟨[]⟩
        SCRIPT_VERIFY_DISCOURAGE_UPGRADABLE_NOPS).run 0 =
      .error .SCRIPT_ERR_DISCOURAGE_UPGRADABLE_NOPS 0 :=
  ⟨by decide, by decide, by decide, rfl, rfl⟩

end Unitus
