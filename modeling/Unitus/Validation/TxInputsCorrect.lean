import Unitus.Validation.TxInputs
import Unitus.Lib.Except

/-!
# Validation — what `CheckTxInputs` accepts

Over a view whose unspent outputs are all in `MoneyRange`, the sums `CheckTxInputs` keeps cannot
overflow: each `nValueIn` it adds to is in range, and so is each output it adds.  For a
transaction that is not a coinbase and whose outputs `CheckTransaction` has already bounded,
`CheckTxInputs` then never aborts, and accepts exactly when every input is available, every
spent coinbase output is mature, the input sum is in range and covers the output sum; the fee
it accepts with is their difference (`CheckTxInputs_spec`).
-/

namespace Unitus

/-! ### The sums the checks are about -/

/-- The value an input spends: its output in the view, `0` without coins. -/
def spentValue (inputs : CoinsView) (prevout : COutPoint) : Int :=
  match inputs prevout.hash with
  | some coins => (coins.vout.getD prevout.n.toNat CTxOut.null).nValue
  | none => 0

/-- The input sum of a transaction. -/
def valueIn (inputs : CoinsView) (vin : List CTxIn) : Int :=
  (vin.map fun txin => spentValue inputs txin.prevout).sum

/-- The output sum of a transaction. -/
def valueOut (vout : List CTxOut) : Int := (vout.map CTxOut.nValue).sum

/-- Every unspent output in the view is in `MoneyRange`. -/
def UnspentInMoneyRange (inputs : CoinsView) : Prop :=
  ∀ hash coins, inputs hash = some coins →
    ∀ out ∈ coins.vout, out.IsNull = false → MoneyRange out.nValue = true

/-- An input's coins are in the view and its output is unspent. -/
def Available (inputs : CoinsView) (prevout : COutPoint) : Prop :=
  ∃ coins, inputs prevout.hash = some coins ∧ coins.IsAvailable prevout.n = true

/-- An input that spends a coinbase output spends it `COINBASE_MATURITY` blocks deep. -/
def Mature (inputs : CoinsView) (nSpendHeight : Int32) (prevout : COutPoint) : Prop :=
  ∀ coins, inputs prevout.hash = some coins → coins.IsCoinBase = true →
    COINBASE_MATURITY ≤ nSpendHeight - coins.nHeight

/-- What accepts a transaction's inputs: all available and mature, the input sum in range and
covering the output sum. -/
def InputsValid (inputs : CoinsView) (nSpendHeight : Int32) (tx : CTransaction) : Prop :=
  (∀ txin ∈ tx.vin, Available inputs txin.prevout) ∧
    (∀ txin ∈ tx.vin, Mature inputs nSpendHeight txin.prevout) ∧
    MoneyRange (valueIn inputs tx.vin) = true ∧ valueOut tx.vout ≤ valueIn inputs tx.vin

@[simp] theorem valueIn_nil (inputs : CoinsView) : valueIn inputs [] = 0 := rfl

@[simp] theorem valueIn_cons (inputs : CoinsView) (txin : CTxIn) (vin : List CTxIn) :
    valueIn inputs (txin :: vin) = spentValue inputs txin.prevout + valueIn inputs vin := by
  simp [valueIn]

@[simp] theorem valueOut_nil : valueOut [] = 0 := rfl

@[simp] theorem valueOut_cons (out : CTxOut) (vout : List CTxOut) :
    valueOut (out :: vout) = out.nValue + valueOut vout := by
  simp [valueOut]

/-! ### Amounts in range -/

/-- Two amounts in range add without overflow. -/
theorem addInt64_of_MoneyRange {a b : Int} (ha : 0 ≤ a ∧ a ≤ 10 ^ 16)
    (hb : 0 ≤ b ∧ b ≤ 10 ^ 16) : addInt64 a b = .ok (a + b) := by
  rw [addInt64, if_pos (by omega)]

/-- Two amounts in range subtract without overflow. -/
theorem subInt64_of_MoneyRange {a b : Int} (ha : 0 ≤ a ∧ a ≤ 10 ^ 16)
    (hb : 0 ≤ b ∧ b ≤ 10 ^ 16) : subInt64 a b = .ok (a - b) := by
  rw [subInt64, if_pos (by omega)]

/-! ### `GetValueOut` -/

theorem valueOut_nonneg : ∀ {vout : List CTxOut}, (∀ out ∈ vout, MoneyRange out.nValue = true) →
    0 ≤ valueOut vout
  | [], _ => le_rfl
  | out :: vout, h => by
    have hout := MoneyRange_iff.mp (h out List.mem_cons_self)
    have hrest := valueOut_nonneg fun o ho => h o (List.mem_cons_of_mem out ho)
    rw [valueOut_cons]
    omega

/-- The loop of `GetValueOut` over outputs in range, from a running sum whose final value is in
range, adds them up without throwing: every running sum lies between the start and the end. -/
theorem getValueOutLoop_eq : ∀ (vout : List CTxOut) (nValueOut : Int),
    (∀ out ∈ vout, MoneyRange out.nValue = true) → 0 ≤ nValueOut →
    MoneyRange (nValueOut + valueOut vout) = true →
    getValueOutLoop vout nValueOut = .ok (nValueOut + valueOut vout)
  | [], nValueOut, _, _, _ => by simp [getValueOutLoop]
  | out :: vout, nValueOut, h, hacc, htotal => by
    have hout := MoneyRange_iff.mp (h out List.mem_cons_self)
    have hall : ∀ o ∈ vout, MoneyRange o.nValue = true := fun o ho =>
      h o (List.mem_cons_of_mem out ho)
    have hrest := valueOut_nonneg hall
    rw [valueOut_cons, MoneyRange_iff] at htotal
    rw [valueOut_cons]
    have hsum : MoneyRange (nValueOut + out.nValue) = true := MoneyRange_iff.mpr (by omega)
    rw [getValueOutLoop, addInt64_of_MoneyRange (by omega) hout, Except.ok_bind,
      h out List.mem_cons_self, hsum, getValueOutLoop_eq vout _ hall (by omega)
        (MoneyRange_iff.mpr (by omega))]
    simp only [Bool.not_true, Bool.or_self, Bool.false_eq_true, ↓reduceIte]
    congr 1
    omega

/-- **`GetValueOut`** of a transaction whose outputs and their sum are in range is that sum. -/
theorem GetValueOut_eq {tx : CTransaction} (hout : ∀ out ∈ tx.vout, MoneyRange out.nValue = true)
    (htotal : MoneyRange (valueOut tx.vout) = true) : tx.GetValueOut = .ok (valueOut tx.vout) := by
  rw [CTransaction.GetValueOut, getValueOutLoop_eq tx.vout 0 hout le_rfl (by simpa using htotal),
    Int.zero_add]

/-! ### The loop over the inputs -/

section Loop

variable {inputs : CoinsView} {nSpendHeight : Int32}

/-- An available input has its coins and an unspent output at its index, whose value it
spends. -/
theorem Available.output {prevout : COutPoint} (h : Available inputs prevout) :
    ∃ coins out, inputs prevout.hash = some coins ∧ coins.vout[prevout.n.toNat]? = some out ∧
      out.IsNull = false ∧ spentValue inputs prevout = out.nValue := by
  obtain ⟨coins, hc, hav⟩ := h
  simp only [CCoins.IsAvailable, Bool.and_eq_true, decide_eq_true_eq, Bool.not_eq_true'] at hav
  obtain ⟨hlt, hnull⟩ := hav
  rw [List.getD_eq_getElem _ _ hlt] at hnull
  refine ⟨coins, coins.vout[prevout.n.toNat], hc, List.getElem?_eq_getElem hlt, hnull, ?_⟩
  simp only [spentValue, hc, List.getD_eq_getElem _ _ hlt]

/-- An available input spends an amount in range. -/
theorem Available.spentValue_range (hview : UnspentInMoneyRange inputs) {prevout : COutPoint}
    (h : Available inputs prevout) :
    0 ≤ spentValue inputs prevout ∧ spentValue inputs prevout ≤ 10 ^ 16 := by
  obtain ⟨coins, out, hc, hout, hnull, hval⟩ := h.output
  rw [hval]
  exact MoneyRange_iff.mp (hview _ coins hc out (List.mem_of_getElem? hout) hnull)

theorem valueIn_nonneg (hview : UnspentInMoneyRange inputs) :
    ∀ {vin : List CTxIn}, (∀ txin ∈ vin, Available inputs txin.prevout) → 0 ≤ valueIn inputs vin
  | [], _ => le_rfl
  | txin :: vin, hav => by
    have hv := (hav txin List.mem_cons_self).spentValue_range hview
    have hrest := valueIn_nonneg hview fun t ht => hav t (List.mem_cons_of_mem txin ht)
    rw [valueIn_cons]
    omega

/-- One pass of the loop over an input whose coins are there and whose spend is not a premature
coinbase spend: the range check, then the rest of the inputs. -/
theorem checkTxInputsLoop_cons {txin : CTxIn} {vin : List CTxIn} {nValueIn : Int}
    {coins : CCoins} {out : CTxOut} (hc : inputs txin.prevout.hash = some coins)
    (hout : coins.vout[txin.prevout.n.toNat]? = some out)
    (hmat : ¬(coins.IsCoinBase = true ∧ nSpendHeight - coins.nHeight < COINBASE_MATURITY))
    (hadd : addInt64 nValueIn out.nValue = .ok (nValueIn + out.nValue)) :
    checkTxInputsLoop inputs nSpendHeight (txin :: vin) nValueIn =
      if !MoneyRange out.nValue || !MoneyRange (nValueIn + out.nValue) then
        .error (.invalid 100 "bad-txns-inputvalues-outofrange")
      else checkTxInputsLoop inputs nSpendHeight vin (nValueIn + out.nValue) := by
  have hcond : (coins.IsCoinBase && decide (nSpendHeight - coins.nHeight < COINBASE_MATURITY)) =
      false := by
    simpa using hmat
  simp only [checkTxInputsLoop, hc, hcond, hout, hadd]
  rfl

/-- **The loop over the inputs.**  Over available inputs, from a running sum in range, the
loop either accepts, with every input mature and the final sum in range, and returns that sum;
or rejects, and then one of the two fails.  It never aborts. -/
theorem checkTxInputsLoop_spec (hview : UnspentInMoneyRange inputs) :
    ∀ (vin : List CTxIn) (nValueIn : Int), (∀ txin ∈ vin, Available inputs txin.prevout) →
      0 ≤ nValueIn ∧ nValueIn ≤ 10 ^ 16 →
      ((∀ txin ∈ vin, Mature inputs nSpendHeight txin.prevout) ∧
          MoneyRange (nValueIn + valueIn inputs vin) = true ∧
          checkTxInputsLoop inputs nSpendHeight vin nValueIn = .ok (nValueIn + valueIn inputs vin)) ∨
        (¬((∀ txin ∈ vin, Mature inputs nSpendHeight txin.prevout) ∧
            MoneyRange (nValueIn + valueIn inputs vin) = true) ∧
          ∃ nDoS strRejectReason, checkTxInputsLoop inputs nSpendHeight vin nValueIn =
            .error (.invalid nDoS strRejectReason))
  | [], nValueIn, _, hacc =>
    .inl ⟨by simp, by simpa [MoneyRange_iff] using hacc, by simp [checkTxInputsLoop]⟩
  | txin :: vin, nValueIn, hav, hacc => by
    have havs : ∀ t ∈ vin, Available inputs t.prevout := fun t ht =>
      hav t (List.mem_cons_of_mem txin ht)
    obtain ⟨coins, out, hc, hout, hnull, hval⟩ := (hav txin List.mem_cons_self).output
    have hv := MoneyRange_iff.mp (hview _ coins hc out (List.mem_of_getElem? hout) hnull)
    have hrest := valueIn_nonneg hview havs
    rw [valueIn_cons, hval]
    by_cases himm : coins.IsCoinBase = true ∧ nSpendHeight - coins.nHeight < COINBASE_MATURITY
    · -- a premature coinbase spend is rejected
      refine .inr ⟨fun h => ?_, 0, _, by simp [checkTxInputsLoop, hc, himm.1, himm.2]; rfl⟩
      exact Int32.not_le.mpr himm.2 (h.1 txin List.mem_cons_self coins hc himm.1)
    have hmat : Mature inputs nSpendHeight txin.prevout := fun c hc' hcb => by
      rw [hc, Option.some.injEq] at hc'
      subst hc'
      exact Int32.not_lt.mp fun h => himm ⟨hcb, h⟩
    rw [checkTxInputsLoop_cons hc hout himm (addInt64_of_MoneyRange hacc hv),
      MoneyRange_iff.mpr hv]
    by_cases hsum : MoneyRange (nValueIn + out.nValue) = true
    · -- the sum so far is in range: the rest of the loop decides
      rw [hsum, if_neg (by simp)]
      rcases checkTxInputsLoop_spec hview vin _ havs (MoneyRange_iff.mp hsum) with
        ⟨hm, hr, heq⟩ | ⟨hn, nDoS, r, heq⟩
      · refine .inl ⟨?_, by rwa [← Int.add_assoc], by rw [heq, Int.add_assoc]⟩
        exact List.forall_mem_cons.mpr ⟨hmat, hm⟩
      · refine .inr ⟨fun h => hn ⟨fun t ht => h.1 t (List.mem_cons_of_mem txin ht), ?_⟩,
          nDoS, r, heq⟩
        rw [Int.add_assoc]
        exact h.2
    · -- the sum so far is out of range, and the rest only adds to it
      rw [Bool.eq_false_iff.mpr hsum]
      refine .inr ⟨fun h => hsum (MoneyRange_iff.mpr ?_), 100, _, rfl⟩
      have := MoneyRange_iff.mp h.2
      omega

end Loop

/-! ### `CheckTxInputs` -/

theorem Available_iff {inputs : CoinsView} {prevout : COutPoint} :
    Available inputs prevout ↔
      (match inputs prevout.hash with
        | some coins => coins.IsAvailable prevout.n
        | none => false) = true := by
  unfold Available
  cases inputs prevout.hash <;> simp

/-- `HaveInputs` of a transaction that is not a coinbase: every input available. -/
theorem HaveInputs_iff {inputs : CoinsView} {tx : CTransaction} (hcb : tx.IsCoinBase = false) :
    HaveInputs inputs tx = true ↔ ∀ txin ∈ tx.vin, Available inputs txin.prevout := by
  simp only [HaveInputs, hcb, Bool.not_false, ↓reduceIte, List.all_eq_true]
  exact forall₂_congr fun txin _ => Available_iff.symm

/-- The outcomes of `CheckTxInputs` on a transaction that is not a coinbase, with its outputs
in range, over a view whose unspent outputs are in range: accepted with the fee `in - out`
exactly when the inputs are valid, rejected otherwise. -/
theorem CheckTxInputs_cases {inputs : CoinsView} {tx : CTransaction} {nSpendHeight : Int32}
    (hview : UnspentInMoneyRange inputs) (hcb : tx.IsCoinBase = false)
    (hout : ∀ out ∈ tx.vout, MoneyRange out.nValue = true)
    (htotal : MoneyRange (valueOut tx.vout) = true) :
    (InputsValid inputs nSpendHeight tx ∧
        CheckTxInputs tx inputs nSpendHeight = .valid (valueIn inputs tx.vin - valueOut tx.vout)) ∨
      (¬InputsValid inputs nSpendHeight tx ∧
        ∃ nDoS strRejectReason, CheckTxInputs tx inputs nSpendHeight = .invalid nDoS strRejectReason) := by
  by_cases hav : ∀ txin ∈ tx.vin, Available inputs txin.prevout
  swap
  · -- `HaveInputs` fails
    have hho : HaveInputs inputs tx = false := Bool.eq_false_iff.mpr (mt (HaveInputs_iff hcb).mp hav)
    refine .inr ⟨fun h => hav h.1, 0, "", ?_⟩
    rw [CheckTxInputs, hho]
    rfl
  have hho : HaveInputs inputs tx = true := (HaveInputs_iff hcb).mpr hav
  have hvout := MoneyRange_iff.mp htotal
  have hvout0 := valueOut_nonneg hout
  rcases @checkTxInputsLoop_spec inputs nSpendHeight hview tx.vin 0 hav (by norm_num) with
    ⟨hm, hr, hloop⟩ | ⟨hn, nDoS, r, hloop⟩
  · rw [Int.zero_add] at hr hloop
    have hvin := MoneyRange_iff.mp hr
    by_cases hcover : valueOut tx.vout ≤ valueIn inputs tx.vin
    · -- every check passes
      refine .inl ⟨⟨hav, hm, hr, hcover⟩, ?_⟩
      have hfee : MoneyRange (valueIn inputs tx.vin - valueOut tx.vout) = true :=
        MoneyRange_iff.mpr (by omega)
      simp only [CheckTxInputs, hho, Bool.not_true, Bool.false_eq_true, ↓reduceIte, hloop,
        GetValueOut_eq hout htotal, Except.ok_bind, Except.mapError_ok,
        subInt64_of_MoneyRange hvin hvout, addInt64_of_MoneyRange (a := 0) (by norm_num)
          (show 0 ≤ valueIn inputs tx.vin - valueOut tx.vout ∧ _ by omega), hfee,
        if_neg (show ¬valueIn inputs tx.vin < valueOut tx.vout by omega),
        if_neg (show ¬valueIn inputs tx.vin - valueOut tx.vout < 0 by omega), Int.zero_add]
      rfl
    · -- the inputs do not cover the outputs
      refine .inr ⟨fun h => hcover h.2.2.2, 100, "bad-txns-in-belowout", ?_⟩
      simp only [CheckTxInputs, hho, Bool.not_true, Bool.false_eq_true, ↓reduceIte, hloop,
        GetValueOut_eq hout htotal, Except.ok_bind, Except.mapError_ok,
        if_pos (show valueIn inputs tx.vin < valueOut tx.vout by omega)]
      rfl
  · -- the loop rejects
    refine .inr ⟨fun h => hn ⟨h.2.1, by rw [Int.zero_add]; exact h.2.2.1⟩, nDoS, r, ?_⟩
    simp only [CheckTxInputs, hho, Bool.not_true, Bool.false_eq_true, ↓reduceIte, hloop,
      Except.error_bind]

/-- **`CheckTxInputs`**, on a transaction that is not a coinbase and whose outputs are in
range with their sum, over a view whose unspent outputs are in range: it never aborts (no
signed overflow, failed `assert` or exception); it accepts exactly when every input is
available and mature, the input sum is in range and covers the output sum; and it accepts with
the fee `in - out`, which lies in `[0, MAX_MONEY]`. -/
theorem CheckTxInputs_spec {inputs : CoinsView} {tx : CTransaction} {nSpendHeight : Int32}
    (hview : UnspentInMoneyRange inputs) (hcb : tx.IsCoinBase = false)
    (hout : ∀ out ∈ tx.vout, MoneyRange out.nValue = true)
    (htotal : MoneyRange (valueOut tx.vout) = true) :
    (∀ what, CheckTxInputs tx inputs nSpendHeight ≠ .abort what) ∧
      ((∃ nFees, CheckTxInputs tx inputs nSpendHeight = .valid nFees) ↔
        InputsValid inputs nSpendHeight tx) ∧
      (∀ nFees, CheckTxInputs tx inputs nSpendHeight = .valid nFees →
        nFees = valueIn inputs tx.vin - valueOut tx.vout ∧ 0 ≤ nFees ∧ nFees ≤ MAX_MONEY) := by
  rcases @CheckTxInputs_cases inputs tx nSpendHeight hview hcb hout htotal with
    ⟨hvalid, heq⟩ | ⟨hinvalid, nDoS, r, heq⟩
  · -- accepted: the fee is the difference of two sums in range, the larger first
    have hvin := MoneyRange_iff.mp hvalid.2.2.1
    have hcover := hvalid.2.2.2
    refine ⟨fun what => by rw [heq]; exact TxInputsResult.noConfusion, ⟨fun _ => hvalid,
      fun _ => ⟨_, heq⟩⟩, fun nFees h => ?_⟩
    rw [heq, TxInputsResult.valid.injEq] at h
    subst h
    refine ⟨rfl, by omega, ?_⟩
    have := valueOut_nonneg hout
    simp only [MAX_MONEY, COIN]
    omega
  · refine ⟨fun what => by rw [heq]; exact TxInputsResult.noConfusion,
      ⟨fun hex => ?_, fun h => absurd h hinvalid⟩, fun nFees h => ?_⟩
    · obtain ⟨nFees, h⟩ := hex
      rw [heq] at h
      exact TxInputsResult.noConfusion h
    · rw [heq] at h
      exact TxInputsResult.noConfusion h

/-- A view that gives every txid one unspent output of an amount in range. -/
theorem UnspentInMoneyRange_single {v : Int} (hv : MoneyRange v = true) :
    UnspentInMoneyRange fun _ => some ⟨false, [⟨v, []⟩], 0, 1⟩ := by
  rintro hash coins hc out hout -
  cases hc
  rw [List.mem_singleton] at hout
  subst hout
  exact hv

theorem CheckTxInputs_spec_spend :
    let inputs : CoinsView := fun _ => some ⟨false, [⟨10, []⟩], 0, 1⟩
    let tx : CTransaction := ⟨1, [⟨⟨Uint256.zero, 0⟩, [], 0xffffffff, []⟩], [⟨4, []⟩], 0⟩
    UnspentInMoneyRange inputs ∧ tx.IsCoinBase = false ∧
      (∀ out ∈ tx.vout, MoneyRange out.nValue = true) ∧ MoneyRange (valueOut tx.vout) = true ∧
      ((∀ what, CheckTxInputs tx inputs 200 ≠ .abort what) ∧
        ((∃ nFees, CheckTxInputs tx inputs 200 = .valid nFees) ↔ InputsValid inputs 200 tx) ∧
        (∀ nFees, CheckTxInputs tx inputs 200 = .valid nFees →
          nFees = valueIn inputs tx.vin - valueOut tx.vout ∧ 0 ≤ nFees ∧ nFees ≤ MAX_MONEY)) := by
  intro inputs tx
  have hview : UnspentInMoneyRange inputs := UnspentInMoneyRange_single (by decide)
  have hcb : tx.IsCoinBase = false := by decide
  have hout : ∀ out ∈ tx.vout, MoneyRange out.nValue = true := by decide
  have htotal : MoneyRange (valueOut tx.vout) = true := by decide
  exact ⟨hview, hcb, hout, htotal, CheckTxInputs_spec hview hcb hout htotal⟩

/-- Why `CheckTxInputs_spec` leaves out the coinbase: `HaveInputs` lets a coinbase through, and its
one input spends the null outpoint, under whose hash a view holds no coins, so the loop fails
`assert(coins)`.  `CheckInputs` returns before it calls `CheckTxInputs` on a coinbase. -/
theorem CheckTxInputs_coinbase_aborts {inputs : CoinsView} {tx : CTransaction}
    {nSpendHeight : Int32} {txin : CTxIn} (hcb : tx.IsCoinBase = true) (hvin : tx.vin = [txin])
    (hnone : inputs txin.prevout.hash = none) :
    CheckTxInputs tx inputs nSpendHeight = .abort "assert(coins)" := by
  have hhave : HaveInputs inputs tx = true := by
    simp [HaveInputs, hcb]
  simp [CheckTxInputs, hhave, hvin, checkTxInputsLoop, hnone, bind, Except.bind, throw,
    throwThe, MonadExceptOf.throw]

/-- Outputs out of range, which `CheckTransaction` rejects before `CheckTxInputs` runs, make
`GetValueOut` throw, or overflow its running sum, although every input is available and mature,
the input sum is in range and covers the outputs' sum. -/
theorem CheckTxInputs_unbounded_outputs :
    let inputs : CoinsView := fun _ => some ⟨false, [⟨10, []⟩], 0, 1⟩
    let txin : CTxIn := ⟨⟨Uint256.zero, 0⟩, [], 0xffffffff, []⟩
    UnspentInMoneyRange inputs ∧ InputsValid inputs 200 ⟨1, [txin], [⟨-1, []⟩], 0⟩ ∧
      CheckTxInputs ⟨1, [txin], [⟨-1, []⟩], 0⟩ inputs 200 =
        .abort "GetValueOut: value out of range" ∧
      CheckTxInputs ⟨1, [txin], [⟨1, []⟩, ⟨2 ^ 63 - 1, []⟩], 0⟩ inputs 200 =
        .abort "signed overflow" := by
  intro inputs txin
  have hview : UnspentInMoneyRange inputs := UnspentInMoneyRange_single (by decide)
  refine ⟨hview, ⟨?_, ?_, by decide, by decide⟩, by decide, by decide⟩
  · simp only [List.mem_singleton, forall_eq]
    exact ⟨_, rfl, by decide⟩
  · simp only [List.mem_singleton, forall_eq]
    intro coins hc hcb
    cases hc
    cases hcb

end Unitus
