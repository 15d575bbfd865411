import Unitus.Script.SigHashCorrect

/-!
# Script — `FindAndDelete` against the in-place loop

Before it copied kept stretches into a new script, `FindAndDelete(b)` erased the copies of `b`
from the script itself:

    do {
        while (end() - pc >= b.size() && memcmp(&pc[0], &b[0], b.size()) == 0) {
            pc = erase(pc, pc + b.size()); ++nFound;
        }
    } while (GetOp(pc, opcode));

`FindAndDeleteInPlace` is that loop, the reference `FindAndDelete` is checked against.  After an
erasure `GetOp` reads on over bytes the erased copy was followed by, so the two loops read the
same ops: the copying loop at a position `pc` of the original script, the in-place loop at a
position `p` of the erased one, with the same bytes from there on.  `GetOp2` reads only those
bytes (`GetOp2_drop`), and the two loops go in step with the bytes before `p` being the kept
stretches (`findAndDeleteInPlaceLoop_simulates`).

Every erasure takes `b.size()` bytes off the script and counts one, and a script nothing was
erased from is the script it was (`Erased`); so the script `FindAndDelete` returns is shorter by
`nFound * b.size()`, and is the script itself when `nFound` is `0`.
-/

namespace Unitus

/-- What `GetOp2` returns for a read `k` bytes further on: the same, with `pc` moved by `k`. -/
def GetOpResult.shift (r : GetOpResult) (k : Nat) : GetOpResult := { r with pc := k + r.pc }

namespace CScript

/-! ### The in-place `FindAndDelete` -/

/-- `erase(pc, pc + n)`: the script without the `n` bytes at `pc`. -/
def erase (script : CScript) (pc n : Nat) : CScript := script.take pc ++ script.drop (pc + n)

/-- The inner loop of the in-place `FindAndDelete`: `while (end() - pc >= b.size() &&
memcmp(&pc[0], &b[0], b.size()) == 0) { pc = erase(pc, pc + b.size()); ++nFound; }`. -/
def eraseCopies (b : CScript) : Nat → CScript → Nat → Nat → CScript × Nat
  | 0, script, _, nFound => (script, nFound)
  | fuel + 1, script, pc, nFound =>
    if b.length ≤ script.length - pc ∧ slice script pc b.length = b then
      eraseCopies b fuel (erase script pc b.length) pc (nFound + 1)
    else (script, nFound)

/-- The `do { … } while (GetOp(pc, opcode))` loop of the in-place `FindAndDelete`, on the script
as erased so far. -/
def findAndDeleteInPlaceLoop (b : CScript) : Nat → CScript → Nat → Nat → CScript × Nat
  | 0, script, _, nFound => (script, nFound)
  | fuel + 1, script, pc, nFound =>
    let (script, nFound) := eraseCopies b (script.length + 1) script pc nFound
    let r := GetOp2 script pc
    if r.fRet then findAndDeleteInPlaceLoop b fuel script r.pc nFound else (script, nFound)

/-- The in-place `FindAndDelete(b)`: the script after, and `nFound`. -/
def FindAndDeleteInPlace (script b : CScript) : CScript × Nat :=
  if b = [] then (script, 0) else findAndDeleteInPlaceLoop b (script.length + 1) script 0 0

/-! ### Erasing copies -/

/-- `script'` with count `n'` is `script` with count `n` after erasing copies of `b`: each one
counted, and `b.size()` bytes shorter; nothing counted, nothing changed. -/
def Erased (b script : CScript) (n : Nat) (script' : CScript) (n' : Nat) : Prop :=
  n ≤ n' ∧ script'.length + (n' - n) * b.length = script.length ∧ (n' = n → script' = script)

theorem Erased.refl (b script : CScript) (n : Nat) : Erased b script n script n :=
  ⟨le_rfl, by simp, fun _ => rfl⟩

theorem Erased.trans {b s₁ s₂ s₃ : CScript} {n₁ n₂ n₃ : Nat} (h₁ : Erased b s₁ n₁ s₂ n₂)
    (h₂ : Erased b s₂ n₂ s₃ n₃) : Erased b s₁ n₁ s₃ n₃ := by
  obtain ⟨hle₁, hlen₁, heq₁⟩ := h₁
  obtain ⟨hle₂, hlen₂, heq₂⟩ := h₂
  have hsplit : n₃ - n₁ = (n₃ - n₂) + (n₂ - n₁) := by omega
  refine ⟨le_trans hle₁ hle₂, ?_, fun h => ?_⟩
  · rw [hsplit, Nat.add_mul]
    omega
  · -- nothing was counted in either part
    rw [heq₂ (by omega), heq₁ (by omega)]

theorem length_erase {script : CScript} {pc n : Nat} (h : n ≤ script.length - pc) :
    (erase script pc n).length = script.length - n := by
  simp only [erase, List.length_append, List.length_take, List.length_drop]
  omega

/-- One erasure is one counted copy. -/
theorem erased_erase {b script : CScript} {pc : Nat} (n : Nat) (h : b.length ≤ script.length - pc) :
    Erased b script n (erase script pc b.length) (n + 1) := by
  refine ⟨Nat.le_succ n, ?_, fun h' => absurd h' (Nat.succ_ne_self n)⟩
  rw [length_erase h, Nat.add_sub_cancel_left, Nat.one_mul]
  omega

theorem eraseCopies_erased (b : CScript) : ∀ fuel (script : CScript) (pc n : Nat),
    Erased b script n (eraseCopies b fuel script pc n).1 (eraseCopies b fuel script pc n).2
  | 0, script, _, n => Erased.refl b script n
  | fuel + 1, script, pc, n => by
    rw [eraseCopies]
    split_ifs with hcopy
    · exact (erased_erase n hcopy.1).trans (eraseCopies_erased b fuel _ pc (n + 1))
    · exact Erased.refl b script n

/-- The in-place loop erases copies and does nothing else to the script. -/
theorem findAndDeleteInPlaceLoop_erased (b : CScript) : ∀ fuel (script : CScript) (pc n : Nat),
    Erased b script n (findAndDeleteInPlaceLoop b fuel script pc n).1
      (findAndDeleteInPlaceLoop b fuel script pc n).2
  | 0, script, _, n => Erased.refl b script n
  | fuel + 1, script, pc, n => by
    have he := eraseCopies_erased b (script.length + 1) script pc n
    simp only [findAndDeleteInPlaceLoop]
    generalize eraseCopies b (script.length + 1) script pc n = er at he
    obtain ⟨script', n'⟩ := er
    dsimp only at he ⊢
    split_ifs
    · exact he.trans (findAndDeleteInPlaceLoop_erased b fuel script' _ n')
    · exact he

/-! ### `GetOp2` reads only what follows `pc` -/

theorem getD_drop (script : CScript) (pc i : Nat) :
    (script.drop pc).getD i 0 = script.getD (pc + i) 0 := by
  simp [List.getD_eq_getElem?_getD]

theorem slice_drop (script : CScript) (pc i n : Nat) :
    slice (script.drop pc) i n = slice script (pc + i) n := by
  simp [slice, List.drop_drop]

theorem ReadLE16_drop (script : CScript) (pc i : Nat) :
    ReadLE16 (script.drop pc) i = ReadLE16 script (pc + i) := by
  simp only [ReadLE16, getD_drop, Nat.add_assoc]

theorem ReadLE32_drop (script : CScript) (pc i : Nat) :
    ReadLE32 (script.drop pc) i = ReadLE32 script (pc + i) := by
  simp only [ReadLE32, ReadLE16_drop, Nat.add_assoc]

theorem pushData_drop (script : CScript) (opcode : UInt8) (nSize pc q : Nat) :
    (pushData (script.drop pc) opcode nSize q).shift pc = pushData script opcode nSize (pc + q) := by
  unfold pushData
  rw [List.length_drop, slice_drop, Nat.sub_sub]
  split_ifs <;> simp [GetOpResult.shift, Nat.add_assoc]

/-- `GetOp2` at `pc + q` is `GetOp2` of the script from `pc` on, at `q`, moved by `pc`. -/
theorem GetOp2_drop (script : CScript) (pc q : Nat) :
    (GetOp2 (script.drop pc) q).shift pc = GetOp2 script (pc + q) := by
  have hlen : ∀ k, script.length - pc - (q + k) = script.length - (pc + q + k) := by
    intro k
    omega
  unfold GetOp2
  simp only [List.length_drop, hlen, getD_drop]
  by_cases h : script.length ≤ pc + q
  · rw [if_pos h, if_pos (by omega)]
    rfl
  · rw [if_neg h, if_neg (by omega)]
    -- the reads agree branch by branch; a push reads its data at the shifted position
    split_ifs <;> first
      | rfl
      | simp only [pushData_drop, ReadLE16_drop, ReadLE32_drop, ← Nat.add_assoc]

/-- Two scripts with the same bytes from `p` and from `pc` on: `GetOp2` reads the same op at
both, moving each position by as much. -/
theorem GetOp2_eq_of_drop_eq {script s : CScript} {pc p : Nat} (h : s.drop p = script.drop pc) :
    (GetOp2 s p).fRet = (GetOp2 script pc).fRet ∧
      (GetOp2 s p).pc - p = (GetOp2 script pc).pc - pc ∧ p ≤ (GetOp2 s p).pc := by
  have hs := GetOp2_drop s p 0
  have ht := GetOp2_drop script pc 0
  rw [h, Nat.add_zero] at hs
  rw [Nat.add_zero] at ht
  rw [← hs, ← ht]
  simp [GetOpResult.shift]

/-! ### The in-place loop runs to its end

Each erasure shortens the script after `p`, and each `GetOp` moves `p` forward, so a fuel above
the bytes left after `p` is never used up: any two such fuels give the same result. -/

theorem eraseCopies_fuel {b : CScript} (hb : b ≠ []) : ∀ fuel fuel' (script : CScript) (pc n : Nat),
    script.length - pc < fuel → script.length - pc < fuel' →
    eraseCopies b fuel script pc n = eraseCopies b fuel' script pc n
  | 0, _, _, _, _, hf, _ => absurd hf (Nat.not_lt_zero _)
  | _ + 1, 0, _, _, _, _, hf' => absurd hf' (Nat.not_lt_zero _)
  | fuel + 1, fuel' + 1, script, pc, n, hf, hf' => by
    have hb1 : 0 < b.length := List.length_pos_iff.mpr hb
    rw [eraseCopies, eraseCopies]
    split_ifs with hcopy
    · -- the erasure takes `b.size()` bytes after `pc`
      have hlen := length_erase hcopy.1
      exact eraseCopies_fuel hb fuel fuel' _ pc (n + 1) (by omega) (by omega)
    · rfl

theorem findAndDeleteInPlaceLoop_fuel {b : CScript} (hb : b ≠ []) :
    ∀ fuel fuel' (script : CScript) (pc n : Nat),
    script.length - pc < fuel → script.length - pc < fuel' →
    findAndDeleteInPlaceLoop b fuel script pc n = findAndDeleteInPlaceLoop b fuel' script pc n
  | 0, _, _, _, _, hf, _ => absurd hf (Nat.not_lt_zero _)
  | _ + 1, 0, _, _, _, _, hf' => absurd hf' (Nat.not_lt_zero _)
  | fuel + 1, fuel' + 1, script, pc, n, hf, hf' => by
    have he := eraseCopies_erased b (script.length + 1) script pc n
    simp only [findAndDeleteInPlaceLoop]
    generalize eraseCopies b (script.length + 1) script pc n = er at he
    obtain ⟨script', n'⟩ := er
    dsimp only at he ⊢
    obtain ⟨-, hlen, -⟩ := he
    split_ifs with hr
    · -- `GetOp` moved `pc` forward within the erased script
      have hstep := GetOp2_pc_bounds (lt_length_of_GetOp2 hr)
      have hshorter : script'.length ≤ script.length := by omega
      exact findAndDeleteInPlaceLoop_fuel hb fuel fuel' _ _ n' (by omega) (by omega)
    · rfl

/-! ### The two loops in step -/

section Simulation

variable {script b : CScript}

theorem slice_eq_of_drop_eq {s : CScript} {pc p : Nat} (h : s.drop p = script.drop pc) (n : Nat) :
    slice s p n = slice script pc n := by
  rw [slice, slice, h]

theorem length_sub_eq_of_drop_eq {s : CScript} {pc p : Nat} (h : s.drop p = script.drop pc) :
    s.length - p = script.length - pc := by
  rw [← List.length_drop, ← List.length_drop, h]

theorem skipCopies_le_length : ∀ fuel (pc nFound : Nat), pc ≤ script.length →
    (skipCopies script b fuel pc nFound).1 ≤ script.length
  | 0, _, _, h => h
  | fuel + 1, pc, nFound, h => by
    rw [skipCopies]
    split_ifs with hcopy
    · exact skipCopies_le_length fuel _ _ (by omega)
    · exact h

/-- The inner loops in step: skipping the copies at `pc` of the script and erasing them at `p`
of the erased one count the same, keep the bytes before `p`, and leave the same bytes after. -/
theorem eraseCopies_simulates (hb : b ≠ []) : ∀ fuel fuel' (s : CScript) (pc p nFound : Nat),
    s.drop p = script.drop pc → script.length - pc < fuel → script.length - pc < fuel' →
    (eraseCopies b fuel' s p nFound).2 = (skipCopies script b fuel pc nFound).2 ∧
      (eraseCopies b fuel' s p nFound).1.take p = s.take p ∧
      (eraseCopies b fuel' s p nFound).1.drop p = script.drop (skipCopies script b fuel pc nFound).1
  | 0, _, _, _, _, _, _, hf, _ => absurd hf (Nat.not_lt_zero _)
  | _ + 1, 0, _, _, _, _, _, _, hf' => absurd hf' (Nat.not_lt_zero _)
  | fuel + 1, fuel' + 1, s, pc, p, nFound, h, hf, hf' => by
    have hlen := length_sub_eq_of_drop_eq h
    have hb1 : 0 < b.length := List.length_pos_iff.mpr hb
    rw [eraseCopies, skipCopies, slice_eq_of_drop_eq h, hlen]
    split_ifs with hcopy
    · -- a copy at `pc`: skipped in the script, erased from the erased one
      have hp : p ≤ s.length := by omega
      have htake : (erase s p b.length).take p = s.take p :=
        List.take_left' (by simp; omega)
      have hdrop : (erase s p b.length).drop p = script.drop (pc + b.length) := by
        rw [erase, List.drop_left' (by simp; omega), ← List.drop_drop, h, List.drop_drop]
      obtain ⟨ih₁, ih₂, ih₃⟩ := eraseCopies_simulates hb fuel fuel' (erase s p b.length)
        (pc + b.length) p (nFound + 1) hdrop (by omega) (by omega)
      exact ⟨ih₁, ih₂.trans htake, ih₃⟩
    · exact ⟨rfl, rfl, h⟩

/-- The outer loops in step: from `pc` of the script, with `result` kept and `pc2` the start of
the stretch not yet copied, and from `p` of the erased script, whose bytes before `p` are the
kept ones and after `p` those of the script after `pc`, the in-place loop ends with the script
the copying loop builds. -/
theorem findAndDeleteInPlaceLoop_simulates (hb : b ≠ []) :
    ∀ fuel (pc2 pc : Nat) (result : CScript) (nFound : Nat) (s : CScript) (p : Nat),
    pc2 ≤ pc → pc ≤ script.length →
    s.take p = result ++ slice script pc2 (pc - pc2) → s.drop p = script.drop pc →
    findAndDeleteInPlaceLoop b fuel s p nFound =
      ((findAndDeleteLoop script b fuel pc2 pc result nFound).1 ++
        script.drop (findAndDeleteLoop script b fuel pc2 pc result nFound).2.1,
        (findAndDeleteLoop script b fuel pc2 pc result nFound).2.2)
  | 0, pc2, pc, result, nFound, s, p, h2, hpc, htake, hdrop => by
    -- out of fuel together: the erased script is the kept bytes and the rest from `pc2`
    rw [findAndDeleteInPlaceLoop, findAndDeleteLoop]
    dsimp only
    have hrest : script.drop pc = (script.drop pc2).drop (pc - pc2) := by
      rw [List.drop_drop, Nat.add_sub_cancel' h2]
    rw [← List.take_append_drop p s, htake, hdrop, List.append_assoc, slice, hrest,
      List.take_append_drop]
  | fuel + 1, pc2, pc, result, nFound, s, p, h2, hpc, htake, hdrop => by
    have hlen := length_sub_eq_of_drop_eq hdrop
    obtain ⟨he₁, he₂, he₃⟩ := eraseCopies_simulates hb (script.length + 1) (s.length + 1) s pc p
      nFound hdrop (by omega) (by omega)
    have hsk := skipCopies_le_length (b := b) (script.length + 1) pc nFound hpc
    simp only [findAndDeleteInPlaceLoop, findAndDeleteLoop]
    generalize eraseCopies b (s.length + 1) s p nFound = er at he₁ he₂ he₃
    generalize skipCopies script b (script.length + 1) pc nFound = sk at he₁ he₂ he₃ hsk
    obtain ⟨s', n'⟩ := er
    obtain ⟨pc', n⟩ := sk
    dsimp only at he₁ he₂ he₃ hsk ⊢
    subst he₁
    have hkept : s'.take p = result ++ slice script pc2 (pc - pc2) := he₂.trans htake
    obtain ⟨hfRet, hpc', hle⟩ := GetOp2_eq_of_drop_eq he₃
    rw [hfRet]
    split_ifs with hr
    · -- `GetOp` reads the same op in both: the stretch it read is kept
      have hstep := GetOp2_pc_bounds (lt_length_of_GetOp2 hr)
      have hk : (GetOp2 s' p).pc = p + ((GetOp2 script pc').pc - pc') := by omega
      refine findAndDeleteInPlaceLoop_simulates hb fuel pc' _ _ n' s' _ hstep.1.le hstep.2 ?_ ?_
      · rw [hk, List.take_add, hkept, he₃]
        rfl
      · rw [hk, ← List.drop_drop, he₃, List.drop_drop, Nat.add_sub_cancel' hstep.1.le]
    · rw [← List.take_append_drop p s', hkept, he₃]

end Simulation

/-! ### `FindAndDelete` -/

/-- **`FindAndDelete(b)` is the in-place loop.**  Copying the kept stretches returns the script
and the count the loop that erases the copies in place returns; so the script is shorter by
`nFound * b.size()`, and the script itself when `nFound` is `0`. -/
theorem FindAndDelete_eq_FindAndDeleteInPlace (script b : CScript) :
    FindAndDelete script b = FindAndDeleteInPlace script b ∧
      ((FindAndDelete script b).2 = 0 → (FindAndDelete script b).1 = script) ∧
      (FindAndDelete script b).1.length + (FindAndDelete script b).2 * b.length =
        script.length := by
  by_cases hb : b = []
  · simp [FindAndDelete, FindAndDeleteInPlace, hb]
  have hsim := @findAndDeleteInPlaceLoop_simulates script b hb (script.length + 1)
    0 0 [] 0 script 0 le_rfl (Nat.zero_le _) (by simp) (by simp)
  have herased := findAndDeleteInPlaceLoop_erased b (script.length + 1) script 0 0
  have hinplace : FindAndDeleteInPlace script b =
      findAndDeleteInPlaceLoop b (script.length + 1) script 0 0 := if_neg hb
  have href : FindAndDelete script b = FindAndDeleteInPlace script b := by
    rw [hinplace, hsim]
    rw [hsim] at herased
    simp only [FindAndDelete, if_neg hb]
    generalize findAndDeleteLoop script b (script.length + 1) 0 0 [] 0 = f at herased ⊢
    obtain ⟨result, pc2, nFound⟩ := f
    dsimp only at herased ⊢
    split_ifs with hfound
    · rfl
    · -- nothing found: the in-place loop left the script as it was
      rw [herased.2.2 (by omega)]
  rw [← hinplace, ← href] at herased
  obtain ⟨-, hlen, hsame⟩ := herased
  refine ⟨href, fun h => hsame (by rw [h]), ?_⟩
  simpa using hlen

end CScript

end Unitus
