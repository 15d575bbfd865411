import Unitus.Script.SigHash

/-!
# Script — what `SerializeScriptCode` writes

The two passes of `SerializeScriptCode` and the loop of `FindAndDelete` all read the script with
`GetOp` from the start, so each is a fold over the same ops (`scanOps`): the ops `GetOp` reads,
and the position `stop` where the first `GetOp` that fails starts.  Against that scan:

* the first pass counts the separators among the ops (`countCodeSeparators_eq`);
* the second pass writes the bytes of the other ops, and then the bytes the failing `GetOp` read
  from `stop` to where it left `pc` (`writeCodeSegments_spec`);
* `FindAndDelete` keeps the bytes of the other ops, and then everything from `stop` on
  (`FindAndDelete_codeSeparator`).

Both announce the same length, so the script code `SerializeScriptCode` writes is the reference's
exactly when the failing `GetOp` leaves `pc` at the end (`SerializeScriptCode_eq_iff`).  A final
push whose data runs past the end stops `pc` before it, and the stream is then shorter than its
length field says.
-/

namespace Unitus

namespace CScript

variable {script : CScript}

/-! ### `GetOp2` -/

theorem GetOp2_of_length_le {pc : Nat} (h : script.length ≤ pc) :
    GetOp2 script pc = ⟨false, pc, OP_INVALIDOPCODE, []⟩ := by
  rw [GetOp2, if_pos h]

/-- From inside the script, `GetOp2` moves `pc` forward and not past the end. -/
theorem GetOp2_pc_bounds {pc : Nat} (h : pc < script.length) :
    pc < (GetOp2 script pc).pc ∧ (GetOp2 script pc).pc ≤ script.length := by
  unfold GetOp2 pushData
  rw [if_neg (Nat.not_le.mpr h)]
  dsimp only
  split_ifs <;> simp only <;> omega

theorem GetOp2_le_pc (script : CScript) (pc : Nat) : pc ≤ (GetOp2 script pc).pc := by
  rcases Nat.lt_or_ge pc script.length with h | h
  · exact (GetOp2_pc_bounds h).1.le
  · rw [GetOp2_of_length_le h]

theorem GetOp2_pc_le {pc : Nat} (h : pc ≤ script.length) : (GetOp2 script pc).pc ≤ script.length := by
  rcases Nat.lt_or_ge pc script.length with h' | h'
  · exact (GetOp2_pc_bounds h').2
  · rwa [GetOp2_of_length_le h']

theorem lt_length_of_GetOp2 {pc : Nat} (hr : (GetOp2 script pc).fRet = true) : pc < script.length := by
  by_contra h
  rw [GetOp2_of_length_le (Nat.not_lt.mp h)] at hr
  cases hr

/-- A successful `GetOp2` returns the opcode byte at `pc`. -/
theorem GetOp2_opcodeRet {pc : Nat} (hr : (GetOp2 script pc).fRet = true) :
    (GetOp2 script pc).opcodeRet = script.getD pc 0 := by
  have hlt := lt_length_of_GetOp2 hr
  unfold GetOp2 pushData at hr ⊢
  rw [if_neg (Nat.not_le.mpr hlt)] at hr ⊢
  dsimp only at hr ⊢
  split_ifs at hr ⊢ <;> rfl

/-- An `OP_CODESEPARATOR` is one byte. -/
theorem GetOp2_of_codeSeparator {pc : Nat} (h : pc < script.length)
    (hs : script.getD pc 0 = OP_CODESEPARATOR) :
    GetOp2 script pc = ⟨true, pc + 1, OP_CODESEPARATOR, []⟩ := by
  rw [GetOp2, if_neg (Nat.not_le.mpr h), hs, if_neg (by decide)]

theorem GetOp2_codeSeparator {pc : Nat} (hr : (GetOp2 script pc).fRet = true)
    (hs : (GetOp2 script pc).opcodeRet = OP_CODESEPARATOR) : (GetOp2 script pc).pc = pc + 1 := by
  rw [GetOp2_opcodeRet hr] at hs
  rw [GetOp2_of_codeSeparator (lt_length_of_GetOp2 hr) hs]

/-! ### Slices -/

theorem slice_append {a b c : Nat} (hab : a ≤ b) (hbc : b ≤ c) :
    slice script a (b - a) ++ slice script b (c - b) = slice script a (c - a) := by
  simp only [slice]
  rw [show c - a = (b - a) + (c - b) by omega, List.take_add, List.drop_drop,
    Nat.add_sub_cancel' hab]

@[simp] theorem slice_zero (a : Nat) : slice script a 0 = [] := by simp [slice]

@[simp] theorem length_slice (a n : Nat) :
    (slice script a n).length = min n (script.length - a) := by
  simp [slice]

/-- A copy of `[OP_CODESEPARATOR]` at `pc` is the separator byte there. -/
theorem slice_one_eq {a : Nat} {x : UInt8} (h : a < script.length) :
    slice script a 1 = [x] ↔ script.getD a 0 = x := by
  rw [slice, List.drop_eq_getElem_cons h, List.take_succ_cons, List.take_zero,
    List.getD_eq_getElem _ _ h, List.cons.injEq, and_iff_left rfl]

/-! ### The ops `GetOp` reads -/

/-- The ops `GetOp` reads from `pc` in at most `fuel` passes, each with where it starts and
what `GetOp2` returned, and where the pass that fails (or the last pass) starts. -/
def scanOps (script : CScript) : Nat → Nat → List (Nat × GetOpResult) × Nat
  | 0, pc => ([], pc)
  | fuel + 1, pc =>
    let r := GetOp2 script pc
    if r.fRet then
      let rest := scanOps script fuel r.pc
      ((pc, r) :: rest.1, rest.2)
    else ([], pc)

/-- The bytes of the ops other than separators. -/
def keptBytes (script : CScript) (ops : List (Nat × GetOpResult)) : List UInt8 :=
  ops.flatMap fun op =>
    if op.2.opcodeRet = OP_CODESEPARATOR then [] else slice script op.1 (op.2.pc - op.1)

/-- The number of separators among the ops. -/
def nSeparators (ops : List (Nat × GetOpResult)) : Nat :=
  (ops.filter fun op => op.2.opcodeRet = OP_CODESEPARATOR).length

@[simp] theorem keptBytes_nil : keptBytes script [] = [] := rfl

@[simp] theorem nSeparators_nil : nSeparators [] = 0 := rfl

theorem keptBytes_cons (op : Nat × GetOpResult) (ops : List (Nat × GetOpResult)) :
    keptBytes script (op :: ops) =
      (if op.2.opcodeRet = OP_CODESEPARATOR then [] else slice script op.1 (op.2.pc - op.1)) ++
        keptBytes script ops := rfl

theorem nSeparators_cons (op : Nat × GetOpResult) (ops : List (Nat × GetOpResult)) :
    nSeparators (op :: ops) =
      (if op.2.opcodeRet = OP_CODESEPARATOR then 1 else 0) + nSeparators ops := by
  by_cases hs : op.2.opcodeRet = OP_CODESEPARATOR
  · simp [nSeparators, hs, Nat.add_comm]
  · simp [nSeparators, hs]

theorem scanOps_of_fRet {pc : Nat} {fuel : Nat} (hr : (GetOp2 script pc).fRet = true) :
    scanOps script (fuel + 1) pc =
      ((pc, GetOp2 script pc) :: (scanOps script fuel (GetOp2 script pc).pc).1,
        (scanOps script fuel (GetOp2 script pc).pc).2) := by
  rw [scanOps, if_pos hr]

theorem scanOps_of_not_fRet {pc : Nat} {fuel : Nat} (hr : (GetOp2 script pc).fRet = false) :
    scanOps script (fuel + 1) pc = ([], pc) := by
  rw [scanOps, if_neg (by simp [hr])]

/-- With a pass for each byte left and one more, the scan ends at a failing `GetOp`, and more
passes change nothing. -/
theorem scanOps_fuel : ∀ f₁ f₂ (pc : Nat), script.length - pc < f₁ → script.length - pc < f₂ →
    scanOps script f₁ pc = scanOps script f₂ pc
  | 0, _, _, h, _ => absurd h (Nat.not_lt_zero _)
  | _, 0, _, _, h => absurd h (Nat.not_lt_zero _)
  | f₁ + 1, f₂ + 1, pc, h₁, h₂ => by
    by_cases hr : (GetOp2 script pc).fRet = true
    · obtain ⟨hlt, hle⟩ := GetOp2_pc_bounds (lt_length_of_GetOp2 hr)
      rw [scanOps_of_fRet hr, scanOps_of_fRet hr,
        scanOps_fuel f₁ f₂ _ (by omega) (by omega)]
    · rw [Bool.not_eq_true] at hr
      rw [scanOps_of_not_fRet hr, scanOps_of_not_fRet hr]

theorem scanOps_stop_fails : ∀ fuel (pc : Nat), script.length - pc < fuel →
    (GetOp2 script (scanOps script fuel pc).2).fRet = false
  | 0, _, h => absurd h (Nat.not_lt_zero _)
  | fuel + 1, pc, h => by
    by_cases hr : (GetOp2 script pc).fRet = true
    · obtain ⟨hlt, hle⟩ := GetOp2_pc_bounds (lt_length_of_GetOp2 hr)
      rw [scanOps_of_fRet hr]
      exact scanOps_stop_fails fuel _ (by omega)
    · rw [Bool.not_eq_true] at hr
      rwa [scanOps_of_not_fRet hr]

/-- The ops are contiguous from `pc` to `stop`: the kept bytes and the separators make up that
stretch. -/
theorem scanOps_bounds : ∀ fuel (pc : Nat), pc ≤ script.length →
    pc ≤ (scanOps script fuel pc).2 ∧ (scanOps script fuel pc).2 ≤ script.length ∧
      (keptBytes script (scanOps script fuel pc).1).length +
        nSeparators (scanOps script fuel pc).1 = (scanOps script fuel pc).2 - pc
  | 0, _, h => by simpa [scanOps] using h
  | fuel + 1, pc, h => by
    by_cases hr : (GetOp2 script pc).fRet = true
    · obtain ⟨hlt, hle⟩ := GetOp2_pc_bounds (lt_length_of_GetOp2 hr)
      obtain ⟨ih₁, ih₂, ih₃⟩ := scanOps_bounds fuel _ hle
      rw [scanOps_of_fRet hr]
      dsimp only
      refine ⟨by omega, ih₂, ?_⟩
      rw [keptBytes_cons, nSeparators_cons, List.length_append]
      dsimp only
      by_cases hs : (GetOp2 script pc).opcodeRet = OP_CODESEPARATOR
      · -- a separator is one byte, and counted
        have h1 := GetOp2_codeSeparator hr hs
        rw [if_pos hs, if_pos hs, List.length_nil]
        omega
      · rw [if_neg hs, if_neg hs, length_slice]
        omega
    · rw [Bool.not_eq_true] at hr
      simpa [scanOps_of_not_fRet hr] using h

/-- With no separator among the ops, the kept bytes are the whole stretch. -/
theorem keptBytes_of_nSeparators_eq_zero : ∀ fuel (pc : Nat), pc ≤ script.length →
    nSeparators (scanOps script fuel pc).1 = 0 →
      keptBytes script (scanOps script fuel pc).1 =
        slice script pc ((scanOps script fuel pc).2 - pc)
  | 0, _, _, _ => by simp [scanOps]
  | fuel + 1, pc, h, hsep => by
    by_cases hr : (GetOp2 script pc).fRet = true
    · obtain ⟨hlt, hle⟩ := GetOp2_pc_bounds (lt_length_of_GetOp2 hr)
      rw [scanOps_of_fRet hr] at hsep ⊢
      rw [nSeparators_cons] at hsep
      have hs : (GetOp2 script pc).opcodeRet ≠ OP_CODESEPARATOR := fun hs => by
        rw [if_pos hs] at hsep
        omega
      rw [if_neg hs, Nat.zero_add] at hsep
      have hstop := (scanOps_bounds fuel _ hle).1
      rw [keptBytes_cons, if_neg hs, keptBytes_of_nSeparators_eq_zero fuel _ hle hsep,
        slice_append hlt.le hstop]
    · rw [Bool.not_eq_true] at hr
      simp [scanOps_of_not_fRet hr]

/-! ### `FindAndDelete(CScript(OP_CODESEPARATOR))` -/

/-- The ops `GetOp` reads from `pc` to the end, with a pass for each byte. -/
def ops (script : CScript) (pc : Nat) : List (Nat × GetOpResult) × Nat :=
  scanOps script (script.length + 1) pc

theorem ops_of_fRet {pc : Nat} (hr : (GetOp2 script pc).fRet = true) :
    ops script pc = ((pc, GetOp2 script pc) :: (ops script (GetOp2 script pc).pc).1,
      (ops script (GetOp2 script pc).pc).2) := by
  obtain ⟨hlt, hle⟩ := GetOp2_pc_bounds (lt_length_of_GetOp2 hr)
  rw [ops, scanOps_of_fRet hr, ops,
    scanOps_fuel script.length (script.length + 1) _ (by omega) (by omega)]

theorem ops_of_not_fRet {pc : Nat} (hr : (GetOp2 script pc).fRet = false) : ops script pc = ([], pc) :=
  scanOps_of_not_fRet hr

/-- Skipping the separator bytes at `pc` skips separator ops: the rest of the scan is the scan
from where the skipping stops, at a byte that is not a separator. -/
theorem skipCopies_spec : ∀ fuel (pc n : Nat), pc ≤ script.length → script.length - pc < fuel →
    let sk := skipCopies script [OP_CODESEPARATOR] fuel pc n
    pc ≤ sk.1 ∧ sk.1 ≤ script.length ∧ sk.2 = n + (sk.1 - pc) ∧
      keptBytes script (ops script pc).1 = keptBytes script (ops script sk.1).1 ∧
      nSeparators (ops script pc).1 = (sk.1 - pc) + nSeparators (ops script sk.1).1 ∧
      (ops script pc).2 = (ops script sk.1).2 ∧
      ¬ (sk.1 < script.length ∧ script.getD sk.1 0 = OP_CODESEPARATOR)
  | 0, _, _, _, h => absurd h (Nat.not_lt_zero _)
  | fuel + 1, pc, n, h, hf => by
    by_cases hsep : pc < script.length ∧ script.getD pc 0 = OP_CODESEPARATOR
    · -- a separator: skipped, and read by `GetOp` as one op
      have hcopy : [OP_CODESEPARATOR].length ≤ script.length - pc ∧
          slice script pc [OP_CODESEPARATOR].length = [OP_CODESEPARATOR] :=
        ⟨by simp; omega, (slice_one_eq hsep.1).mpr hsep.2⟩
      have hr := GetOp2_of_codeSeparator hsep.1 hsep.2
      have hops : ops script pc = ((pc, ⟨true, pc + 1, OP_CODESEPARATOR, []⟩) ::
          (ops script (pc + 1)).1, (ops script (pc + 1)).2) := by
        rw [ops_of_fRet (by rw [hr]), hr]
      obtain ⟨ih₁, ih₂, ih₃, ih₄, ih₅, ih₆, ih₇⟩ :=
        skipCopies_spec fuel (pc + 1) (n + 1) hsep.1 (by omega)
      rw [skipCopies, if_pos hcopy, List.length_singleton]
      refine ⟨by omega, ih₂, by omega, ?_, ?_, by simp only [hops, ih₆], ih₇⟩
      · simp only [hops, keptBytes_cons]
        rw [if_pos trivial, List.nil_append, ih₄]
      · simp only [hops, nSeparators_cons]
        rw [if_pos trivial, ih₅]
        omega
    · -- no separator: the skipping stops here
      have hcopy : ¬ ([OP_CODESEPARATOR].length ≤ script.length - pc ∧
          slice script pc [OP_CODESEPARATOR].length = [OP_CODESEPARATOR]) := by
        rintro ⟨hle, hs⟩
        simp only [List.length_singleton] at hle hs
        exact hsep ⟨by omega, (slice_one_eq (by omega)).mp hs⟩
      rw [skipCopies, if_neg hcopy]
      dsimp only
      exact ⟨le_rfl, h, by omega, rfl, by omega, rfl, hsep⟩

/-- The loop of `FindAndDelete(CScript(OP_CODESEPARATOR))`: from `pc` on it adds the kept bytes,
ends with `pc2` at `stop`, and counts the separators. -/
theorem findAndDeleteLoop_spec : ∀ fuel pc2 (pc : Nat) (result : CScript) nFound,
    pc2 ≤ pc → pc ≤ script.length → script.length - pc < fuel →
    let f := findAndDeleteLoop script [OP_CODESEPARATOR] fuel pc2 pc result nFound
    f.1 = result ++ slice script pc2 (pc - pc2) ++ keptBytes script (ops script pc).1 ∧
      f.2.1 = (ops script pc).2 ∧ f.2.2 = nFound + nSeparators (ops script pc).1
  | 0, _, _, _, _, _, _, h => absurd h (Nat.not_lt_zero _)
  | fuel + 1, pc2, pc, result, nFound, h2, h, hf => by
    obtain ⟨hs₁, hs₂, hs₃, hs₄, hs₅, hs₆, hs₇⟩ :=
      skipCopies_spec (script.length + 1) pc nFound h (by omega)
    simp only [findAndDeleteLoop]
    generalize hsk : skipCopies script [OP_CODESEPARATOR] (script.length + 1) pc nFound = sk
      at hs₁ hs₂ hs₃ hs₄ hs₅ hs₆ hs₇
    obtain ⟨pc', n'⟩ := sk
    simp only at hs₁ hs₂ hs₃ hs₄ hs₅ hs₆ hs₇ ⊢
    by_cases hr : (GetOp2 script pc').fRet = true
    · -- a non-separator op: its bytes are added on the next pass
      obtain ⟨hlt, hle⟩ := GetOp2_pc_bounds (lt_length_of_GetOp2 hr)
      have hns : (GetOp2 script pc').opcodeRet ≠ OP_CODESEPARATOR := by
        rw [GetOp2_opcodeRet hr]
        exact fun he => hs₇ ⟨lt_length_of_GetOp2 hr, he⟩
      obtain ⟨ih₁, ih₂, ih₃⟩ := findAndDeleteLoop_spec fuel pc' _ (result ++ slice script pc2 (pc - pc2))
        n' hlt.le hle (by omega)
      rw [if_pos hr]
      refine ⟨?_, by rw [ih₂, hs₆, ops_of_fRet hr], ?_⟩
      · rw [ih₁, hs₄, ops_of_fRet hr]
        simp [keptBytes, hns]
      · rw [ih₃, hs₃, hs₅, ops_of_fRet hr]
        simp only [nSeparators, List.filter_cons, hns, decide_false]
        simp
        omega
    · rw [Bool.not_eq_true] at hr
      rw [if_neg (by simp [hr])]
      rw [hs₄, hs₅, hs₆, ops_of_not_fRet hr]
      simp [hs₃]

/-- **`FindAndDelete(CScript(OP_CODESEPARATOR))`** keeps the bytes of the ops other than
separators, and everything from where the first failing `GetOp` starts. -/
theorem FindAndDelete_codeSeparator (script : CScript) :
    (FindAndDelete script [OP_CODESEPARATOR]).1 =
      keptBytes script (ops script 0).1 ++ script.drop (ops script 0).2 := by
  obtain ⟨h₁, h₂, h₃⟩ := @findAndDeleteLoop_spec script
    (script.length + 1) 0 0 [] 0 le_rfl (Nat.zero_le _) (by omega)
  simp only [FindAndDelete, List.cons_ne_nil, if_false]
  generalize hf : findAndDeleteLoop script [OP_CODESEPARATOR] (script.length + 1) 0 0 [] 0 = f
    at h₁ h₂ h₃
  obtain ⟨result, pc2, nFound⟩ := f
  simp only at h₁ h₂ h₃ ⊢
  split_ifs with hfound
  · simp [h₁, h₂]
  · -- no separator: nothing was deleted, and the kept bytes are the stretch up to `stop`
    have hsep : nSeparators (ops script 0).1 = 0 := by omega
    rw [ops, keptBytes_of_nSeparators_eq_zero _ _ (Nat.zero_le _) hsep, ← ops]
    simp [slice]

/-- Where the first `GetOp` that fails leaves `pc`. -/
def failPc (script : CScript) : Nat := (GetOp2 script (ops script 0).2).pc

theorem serScript_FindAndDelete (script : CScript) :
    serScript (FindAndDelete script [OP_CODESEPARATOR]).1 =
      WriteCompactSize (script.length - nSeparators (ops script 0).1) ++
        keptBytes script (ops script 0).1 ++ script.drop (ops script 0).2 := by
  obtain ⟨-, hstop, hlen⟩ := @scanOps_bounds script (script.length + 1) 0 (Nat.zero_le _)
  rw [← ops] at hstop hlen
  rw [FindAndDelete_codeSeparator, serScript, List.length_append, List.length_drop,
    List.append_assoc]
  congr 2
  omega

end CScript

open CScript

/-! ### The two passes of `SerializeScriptCode` -/

variable {script : CScript}

/-- The first pass counts the separators among the ops. -/
theorem countCodeSeparators_eq : ∀ fuel it n,
    countCodeSeparators script fuel it n = n + nSeparators (scanOps script fuel it).1
  | 0, _, n => by simp [countCodeSeparators, scanOps]
  | fuel + 1, it, n => by
    by_cases hr : (GetOp2 script it).fRet = true
    · rw [countCodeSeparators, if_pos hr, scanOps_of_fRet hr, countCodeSeparators_eq fuel,
        nSeparators_cons]
      dsimp only
      split_ifs <;> omega
    · rw [Bool.not_eq_true] at hr
      rw [countCodeSeparators, if_neg (by simp [hr]), scanOps_of_not_fRet hr]
      rfl

/-- The second pass: what it has written, with the bytes from `itBegin` to where the scan
stops, is what it had, the bytes from `itBegin` to `it`, and the kept bytes of the ops after
`it`; and, given the passes, it ends with `it` where the failing `GetOp` leaves it. -/
theorem writeCodeSegments_spec : ∀ fuel itBegin it (out : List UInt8),
    itBegin ≤ it → it ≤ script.length →
    let w := writeCodeSegments script fuel itBegin it out
    let sc := scanOps script fuel it
    w.2.1 ≤ sc.2 ∧ (script.length - it < fuel → w.2.2 = (GetOp2 script sc.2).pc) ∧
      w.1 ++ slice script w.2.1 (sc.2 - w.2.1) =
        out ++ slice script itBegin (it - itBegin) ++ keptBytes script sc.1
  | 0, itBegin, it, out, h₁, _ =>
    ⟨h₁, fun h => absurd h (Nat.not_lt_zero _), by simp [writeCodeSegments, scanOps]⟩
  | fuel + 1, itBegin, it, out, h₁, h₂ => by
    by_cases hr : (GetOp2 script it).fRet = true
    · obtain ⟨hlt, hle⟩ := GetOp2_pc_bounds (lt_length_of_GetOp2 hr)
      rw [writeCodeSegments, scanOps_of_fRet hr]
      dsimp only
      rw [if_pos hr, keptBytes_cons]
      by_cases hs : (GetOp2 script it).opcodeRet = OP_CODESEPARATOR
      · -- a separator: the bytes before it are written, and `itBegin` moves after it
        have hpc := GetOp2_codeSeparator hr hs
        obtain ⟨ih₁, ih₂, ih₃⟩ := writeCodeSegments_spec fuel (GetOp2 script it).pc
          (GetOp2 script it).pc (out ++ slice script itBegin ((GetOp2 script it).pc - itBegin - 1))
          le_rfl hle
        rw [if_pos hs, if_pos hs]
        refine ⟨ih₁, fun h => ih₂ (by omega), ?_⟩
        rw [ih₃, Nat.sub_self, slice_zero, List.append_nil, List.nil_append,
          show (GetOp2 script it).pc - itBegin - 1 = it - itBegin by omega]
      · -- another op: its bytes join the stretch from `itBegin`
        obtain ⟨ih₁, ih₂, ih₃⟩ := writeCodeSegments_spec fuel itBegin (GetOp2 script it).pc out
          (by omega) hle
        rw [if_neg hs, if_neg hs]
        refine ⟨ih₁, fun h => ih₂ (by omega), ?_⟩
        rw [ih₃, List.append_assoc, List.append_assoc, ← List.append_assoc
          (slice script itBegin (it - itBegin)), slice_append h₁ hlt.le]
    · rw [Bool.not_eq_true] at hr
      rw [writeCodeSegments, scanOps_of_not_fRet hr]
      dsimp only
      rw [if_neg (by simp [hr])]
      exact ⟨h₁, fun _ => rfl, by simp⟩

/-- **What `SerializeScriptCode` writes**: the length without the separators, the bytes of the
other ops, and the bytes the failing `GetOp` read. -/
theorem SerializeScriptCode_eq (t : CTransactionSignatureSerializer) :
    t.SerializeScriptCode =
      WriteCompactSize (t.scriptCode.length - nSeparators (ops t.scriptCode 0).1) ++
        keptBytes t.scriptCode (ops t.scriptCode 0).1 ++
          slice t.scriptCode (ops t.scriptCode 0).2 (failPc t.scriptCode - (ops t.scriptCode 0).2) := by
  obtain ⟨-, hstop, -⟩ := @scanOps_bounds t.scriptCode (t.scriptCode.length + 1) 0
    (Nat.zero_le _)
  obtain ⟨h₁, h₂, h₃⟩ := @writeCodeSegments_spec t.scriptCode
    (t.scriptCode.length + 1) 0 0 [] le_rfl (Nat.zero_le _)
  rw [← ops] at hstop h₁ h₂ h₃
  have hfail : (ops t.scriptCode 0).2 ≤ failPc t.scriptCode := GetOp2_le_pc _ _
  have hfail' : failPc t.scriptCode ≤ t.scriptCode.length := GetOp2_pc_le hstop
  have hcount : countCodeSeparators t.scriptCode (t.scriptCode.length + 1) 0 0 =
      nSeparators (ops t.scriptCode 0).1 := by
    rw [countCodeSeparators_eq, Nat.zero_add, ops]
  simp only [CTransactionSignatureSerializer.SerializeScriptCode, hcount]
  generalize hw : writeCodeSegments t.scriptCode (t.scriptCode.length + 1) 0 0 [] = w at h₁ h₂ h₃
  obtain ⟨out, itBegin, it⟩ := w
  dsimp only at h₁ h₂ h₃ ⊢
  simp only [Nat.sub_self, slice_zero, List.nil_append] at h₃
  rw [h₂ (by omega), ← failPc, List.append_assoc, List.append_assoc]
  congr 1
  split_ifs with hend
  · -- the stretch from `itBegin` runs through `stop` to where the failing `GetOp` stopped
    rw [← slice_append h₁ hfail, ← List.append_assoc, h₃]
  · -- `itBegin` is at the end, and so are `stop` and the failing `GetOp`
    rw [not_not] at hend
    have hs : (ops t.scriptCode 0).2 = t.scriptCode.length := by omega
    rw [hs, hend, Nat.sub_self, slice_zero, List.append_nil] at h₃
    rw [← h₃, hs, show failPc t.scriptCode - t.scriptCode.length = 0 by omega, slice_zero]

/-- **The script code is the reference's exactly when `GetOp` reads to the end.**  Both
announce the length without separators and write the kept bytes; `SerializeScriptCode` then
writes what the failing `GetOp` read, `FindAndDelete` keeps the rest of the script. -/
theorem SerializeScriptCode_eq_iff (t : CTransactionSignatureSerializer) :
    t.SerializeScriptCode = serScript (FindAndDelete t.scriptCode [OP_CODESEPARATOR]).1 ↔
      failPc t.scriptCode = t.scriptCode.length := by
  obtain ⟨-, hstop, -⟩ := @scanOps_bounds t.scriptCode (t.scriptCode.length + 1) 0
    (Nat.zero_le _)
  rw [← ops] at hstop
  have hfail : (ops t.scriptCode 0).2 ≤ failPc t.scriptCode := GetOp2_le_pc _ _
  have hfail' : failPc t.scriptCode ≤ t.scriptCode.length := GetOp2_pc_le hstop
  rw [SerializeScriptCode_eq, serScript_FindAndDelete, List.append_cancel_left_eq, slice,
    List.take_eq_self_iff, List.length_drop]
  omega

example : (CTransactionSignatureSerializer.ofHashType default [0x02, 0xAA] 0 1).SerializeScriptCode =
      [2, 2] ∧
    serScript (FindAndDelete [0x02, 0xAA] [OP_CODESEPARATOR]).1 = [2, 2, 0xAA] := by
  decide

/-- `SerializeScriptCode` writes as many bytes fewer than the reference as the script has after
where the failing `GetOp` stopped. -/
theorem length_SerializeScriptCode (t : CTransactionSignatureSerializer) :
    t.SerializeScriptCode.length + (t.scriptCode.length - failPc t.scriptCode) =
      (serScript (FindAndDelete t.scriptCode [OP_CODESEPARATOR]).1).length := by
  obtain ⟨-, hstop, -⟩ := @scanOps_bounds t.scriptCode (t.scriptCode.length + 1) 0
    (Nat.zero_le _)
  rw [← ops] at hstop
  have hfail : (ops t.scriptCode 0).2 ≤ failPc t.scriptCode := GetOp2_le_pc _ _
  have hfail' : failPc t.scriptCode ≤ t.scriptCode.length := GetOp2_pc_le hstop
  rw [SerializeScriptCode_eq, serScript_FindAndDelete]
  simp only [List.length_append, length_slice, List.length_drop]
  omega

end Unitus
