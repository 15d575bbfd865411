import Unitus.Chain.CChain

/-!
# Chain — `CChain` holds the chain of its tip

The invariant of `CChain` is that its vector is the chain of a tip `t`: the entry at height `h`
is `t`'s block at `h` (`chainOf`).  `SetTip(p)` for a block of a block tree, from any vector of
that form, leaves the chain of `p` (`SetTip_vChain`): its loop stops only at an entry that holds
`p`'s block at that height, and the entries below such an entry hold `p`'s blocks too
(`Agrees`, `setTipLoop_eq`).  So the invariant holds after every sequence of `SetTip` calls
(`run_SetTip`), and over it:

* `get_eq_GetAncestor`: `chain[h]` is the tip's ancestor at `h`, `NULL` outside `[0, Height()]`;
* `Contains_iff`: a block is on the chain iff it is the tip or one of its ancestors;
* `FindFork_spec`: `FindFork(q)` is the highest block of `q`'s chain that is on the chain;
* `getLocatorLoop_eq`: `GetLocator` visits its start's ancestors at the heights of
  `locatorHeights`, the same walk on numbers.  Below height `2^30 + 10` that walk goes down
  strictly to the genesis (`locatorHeights_ok`); from there the doubling of `nStep` passes
  `INT_MAX` first (`locatorHeights_overflow`), as `GetLocator_tall_chain_overflows` shows on a
  chain of that height.

The main result, **`CChain_SetTip_spec`**, assembles these for the chain after any sequence of
`SetTip` calls.
-/

namespace Unitus

namespace CChain

/-! ### The chain of a tip -/

/-- The vector of a chain with tip `t`: at index `h`, `t`'s block at height `h`. -/
def chainOf (t : BlockPtr) : List BlockPtr :=
  (List.range t.length).map fun h => parentAt t (h + 1)

@[simp] theorem length_chainOf (t : BlockPtr) : (chainOf t).length = t.length := by
  simp [chainOf]

theorem getD_chainOf (t : BlockPtr) (h : Nat) :
    (chainOf t).getD h [] = if h < t.length then parentAt t (h + 1) else [] := by
  split
  · simp [chainOf, List.getD_eq_getElem?_getD, *]
  · exact List.getD_eq_default _ _ (by simp; omega)

theorem parentAt_cons {b : CBlockIndex} {rest : BlockPtr} {h : Nat} (hh : h ≤ rest.length) :
    parentAt (b :: rest) h = parentAt rest h := by
  simp only [parentAt, List.length_cons]
  rw [show rest.length + 1 - h = (rest.length - h) + 1 by omega, List.drop_succ_cons]

theorem chainOf_cons (b : CBlockIndex) (rest : BlockPtr) :
    chainOf (b :: rest) = chainOf rest ++ [b :: rest] := by
  rw [chainOf, List.length_cons, List.range_succ, List.map_append, chainOf]
  congr 1
  · refine List.map_congr_left fun h hh => parentAt_cons ?_
    have := List.mem_range.mp hh
    omega
  · simp [parentAt]

/-- A suffix of `t` is `t`'s block at its own height. -/
theorem eq_parentAt_of_suffix {q t : BlockPtr} (h : q <:+ t) : q = parentAt t q.length :=
  List.suffix_iff_eq_drop.mp h

/-- The part of a chain up to height `h` is a block at height `h` and its ancestors. -/
theorem parentAt_eq_cons {s : BlockPtr} (hs : ChainHeights s) {h : Nat} (hh : h < s.length) :
    ∃ b rest, parentAt s (h + 1) = b :: rest ∧ b.nHeight = h := by
  have hlen : (parentAt s (h + 1)).length = h + 1 := length_parentAt hh
  have hchain : ChainHeights (parentAt s (h + 1)) := hs.suffix (parentAt_suffix s (h + 1))
  cases hp : parentAt s (h + 1) with
  | nil => simp [hp] at hlen
  | cons b rest =>
    rw [hp] at hlen hchain
    simp only [List.length_cons, Nat.add_right_cancel_iff] at hlen
    exact ⟨b, rest, rfl, by rw [hchain.1, hlen]⟩

theorem Tip_eq {c : CChain} {t : BlockPtr} (hc : c.vChain = chainOf t) : c.Tip = t := by
  cases t with
  | nil => simp [Tip, hc, chainOf]
  | cons b rest => rw [Tip, hc, chainOf_cons, List.getLastD_concat]

theorem Height_eq {c : CChain} {t : BlockPtr} (hc : c.vChain = chainOf t) :
    c.Height = t.length - 1 := by
  simp [Height, hc]

/-! ### `SetTip` -/

/-- Where `SetTip`'s loop may stop on its way down `q`: an entry that holds `q`'s block at its
height has `q`'s blocks at every height below it. -/
def Agrees (vChain : List BlockPtr) (q : BlockPtr) : Prop :=
  ∀ h < q.length, vChain.getD h [] = parentAt q (h + 1) →
    ∀ h' < h, vChain.getD h' [] = parentAt q (h' + 1)

theorem eq_chainOf_append {v : List BlockPtr} {q : BlockPtr} (hlen : q.length ≤ v.length)
    (hv : ∀ h < q.length, v.getD h [] = parentAt q (h + 1)) :
    v = chainOf q ++ v.drop q.length := by
  conv_lhs => rw [← List.take_append_drop q.length v]
  congr 1
  refine List.ext_getElem (by simp; omega) fun h h₁ h₂ => ?_
  have hget := hv h (by simpa using h₂)
  rw [List.getD_eq_getElem?_getD, List.getElem?_eq_getElem (by simp at h₁; omega)] at hget
  simpa [chainOf] using hget

theorem drop_set_self {v : List BlockPtr} {m : Nat} (hm : m < v.length) (a : BlockPtr) :
    (v.set m a).drop m = a :: v.drop (m + 1) := by
  rw [List.set_eq_take_append_cons_drop, if_pos hm, List.drop_left' (by simp; omega)]

theorem getD_set_of_lt {v : List BlockPtr} {m k : Nat} (hk : k < m) (a : BlockPtr) :
    (v.set m a).getD k [] = v.getD k [] := by
  simp [List.getD_eq_getElem?_getD, Nat.ne_of_gt hk]

/-- Storing `q`'s block at its height keeps `Agrees` for the rest of the walk. -/
theorem Agrees.set {v : List BlockPtr} {b : CBlockIndex} {rest : BlockPtr}
    (hagree : Agrees v (b :: rest)) : Agrees (v.set rest.length (b :: rest)) rest := by
  intro h hh hv h' hh'
  rw [getD_set_of_lt hh] at hv
  rw [getD_set_of_lt (by omega), ← parentAt_cons (b := b) (by omega)]
  exact hagree h (by simp; omega) (by rw [hv, parentAt_cons (by omega)]) h' hh'

/-- The loop of `SetTip` down a chain `q`, from a vector where it may stop safely, leaves `q`'s
chain below the entries it does not reach. -/
theorem setTipLoop_eq : ∀ {q : BlockPtr}, ChainHeights q → ∀ {v : List BlockPtr},
    q.length ≤ v.length → Agrees v q → setTipLoop q v = chainOf q ++ v.drop q.length
  | [], _, v, _, _ => by simp [setTipLoop, chainOf]
  | b :: rest, hq, v, hlen, hagree => by
    have hb : b.nHeight.toNat = rest.length := by rw [hq.1]; simp
    have htop : parentAt (b :: rest) (rest.length + 1) = b :: rest := by simp [parentAt]
    simp only [List.length_cons] at hlen
    unfold setTipLoop
    rw [hb]
    by_cases hv : v.getD rest.length [] = b :: rest
    · -- the loop stops: the entries below already hold `q`'s chain
      simp only [hv, bne_self_eq_false, Bool.false_eq_true, if_false]
      refine eq_chainOf_append (by simpa using hlen) fun h hh => ?_
      rcases Nat.lt_or_ge h rest.length with hh' | hh'
      · exact hagree rest.length (by simp) (by rw [hv, htop]) h hh'
      · rw [show h = rest.length by simp at hh; omega, hv, htop]
    · rw [if_pos (by simpa using hv), setTipLoop_eq hq.2 (by simp; omega) hagree.set,
        drop_set_self (by omega), chainOf_cons, List.append_assoc]
      rfl

/-- `std::vector::resize` keeps the entries below the new size and pads with `NULL`. -/
theorem getD_resize_chainOf (t : BlockPtr) (n h : Nat) :
    (resize (chainOf t) n).getD h [] =
      if h < n ∧ h < t.length then parentAt t (h + 1) else [] := by
  simp only [resize, List.getD_eq_getElem?_getD, List.getElem?_append, List.length_take,
    length_chainOf, List.getElem?_take, List.getElem?_replicate]
  by_cases hin : h < n ∧ h < t.length
  · rw [if_pos (by omega), if_pos hin.1, if_pos hin, ← List.getD_eq_getElem?_getD, getD_chainOf,
      if_pos hin.2]
  · rw [if_neg hin]
    split
    · rw [if_pos (by omega), ← List.getD_eq_getElem?_getD, getD_chainOf, if_neg (by omega)]
    · split <;> rfl

theorem length_resize (v : List BlockPtr) (n : Nat) : (resize v n).length = n := by
  simp [resize]
  omega

/-- A resized chain of any tip is a vector where `SetTip`'s loop may stop safely. -/
theorem agrees_resize (t q : BlockPtr) (n : Nat) : Agrees (resize (chainOf t) n) q := by
  intro h hh hv h' hh'
  rw [getD_resize_chainOf] at hv ⊢
  have hlen : (parentAt q (h + 1)).length = h + 1 := length_parentAt hh
  split at hv
  · -- the entry at `h` is `t`'s block, so `t` and `q` agree up to `h`
    rename_i hin
    rw [if_pos ⟨by omega, by omega⟩, ← parentAt_parentAt (by omega) hin.2, hv,
      parentAt_parentAt (by omega) (by omega)]
  · -- a `NULL` entry is never a block
    rw [← hv] at hlen
    simp at hlen

/-- **Step.** `SetTip(p)` for a chain `p`, from the chain of any tip, leaves the chain of `p`. -/
theorem SetTip_vChain {c : CChain} {t : BlockPtr} (hc : c.vChain = chainOf t) {p : BlockPtr}
    (hp : ChainHeights p) : (c.SetTip p).vChain = chainOf p := by
  cases p with
  | nil => rfl
  | cons b rest =>
    have hn : (b.nHeight + 1).toNat = (b :: rest).length := by
      rw [hp.1]
      simp
    simp only [SetTip]
    rw [hc, hn, setTipLoop_eq hp (by rw [length_resize]) (agrees_resize t _ _),
      List.drop_eq_nil_of_le (by rw [length_resize]), List.append_nil]

/-- **Run.** After any sequence of `SetTip` calls for chains, from the chain of a tip, the
vector is the chain of a tip. -/
theorem run_SetTip : ∀ (tips : List BlockPtr) {c : CChain} {t : BlockPtr}, ChainHeights t →
    c.vChain = chainOf t → (∀ p ∈ tips, ChainHeights p) →
    ∃ t', ChainHeights t' ∧ (tips.foldl SetTip c).vChain = chainOf t'
  | [], _, t, ht, hc, _ => ⟨t, ht, hc⟩
  | p :: tips, _, _, _, hc, hps =>
    have hp : ChainHeights p := hps p List.mem_cons_self
    run_SetTip tips hp (SetTip_vChain hc hp) fun q hq => hps q (List.mem_cons_of_mem p hq)

/-! ### The locator's heights -/

/-- The heights `GetLocator`'s walk visits from height `h`, with `k` hashes before it and the
step `nStep`: the loop of `getLocatorLoop` on numbers. -/
def locatorHeights : Nat → Nat → Nat → Nat → Except String (List Nat)
  | 0, _, _, _ => .error "getLocatorLoop: out of fuel"
  | fuel + 1, k, nStep, h =>
    if h = 0 then .ok [0]
    else if k + 1 > 10 then
      if (nStep : Int) * 2 > INT_MAX then .error "GetLocator: nStep *= 2 overflows int"
      else (h :: ·) <$> locatorHeights fuel (k + 1) (nStep * 2) (h - nStep)
    else (h :: ·) <$> locatorHeights fuel (k + 1) nStep (h - nStep)

/-- Heights from `h`, strictly decreasing, down to the genesis. -/
structure LocatorFrom (h : Nat) (hs : List Nat) : Prop where
  head : hs.head? = some h
  decreasing : hs.IsChain (· > ·)
  last : hs.getLast? = some 0

theorem LocatorFrom.zero : LocatorFrom 0 [0] := ⟨rfl, List.isChain_singleton 0, rfl⟩

theorem LocatorFrom.cons {h h' : Nat} {hs : List Nat} (hlt : h' < h) (H : LocatorFrom h' hs) :
    LocatorFrom h (h :: hs) := by
  obtain ⟨hhead, hdec, hlast⟩ := H
  cases hs with
  | nil => simp at hhead
  | cons x hs =>
    obtain rfl : x = h' := by simpa using hhead
    exact ⟨rfl, List.isChain_cons_cons.mpr ⟨hlt, hdec⟩, by rwa [List.getLast?_cons_cons]⟩

/-- Every height of the walk is at most the first. -/
theorem LocatorFrom.le {h : Nat} {hs : List Nat} (H : LocatorFrom h hs) :
    ∀ x ∈ hs, x ≤ h := by
  obtain ⟨hhead, hdec, -⟩ := H
  cases hs with
  | nil => simp at hhead
  | cons y hs =>
    obtain rfl : y = h := by simpa using hhead
    intro x hx
    rcases List.mem_cons.mp hx with rfl | hx
    · exact le_refl _
    · exact (List.rel_of_pairwise_cons (List.isChain_iff_pairwise.mp hdec) hx).le

/-- Below height `2^30 + 10` the walk goes down to the genesis.  The invariant: the step is `1`
for the first ten hashes, and the height, the hashes up to ten and the step stay within
`2^30 + 10`, so the step never reaches `2^30` above the genesis. -/
theorem locatorHeights_ok : ∀ (fuel k nStep h : Nat), h < fuel → 1 ≤ nStep →
    (k < 10 → nStep = 1) → (h = 0 ∨ h + min k 10 + nStep ≤ 2 ^ 30 + 10) →
    ∃ hs, locatorHeights fuel k nStep h = .ok hs ∧ LocatorFrom h hs
  | 0, _, _, _, hfuel, _, _, _ => absurd hfuel (Nat.not_lt_zero _)
  | fuel + 1, k, nStep, h, hfuel, hstep, hone, hinv => by
    unfold locatorHeights
    by_cases h0 : h = 0
    · subst h0
      exact ⟨[0], rfl, .zero⟩
    · rw [if_neg h0]
      by_cases hk : k + 1 > 10
      · -- past ten hashes the step doubles, and stays below `2^30`
        rw [if_pos hk, if_neg (by unfold INT_MAX; omega)]
        obtain ⟨hs, hrun, hfrom⟩ := locatorHeights_ok fuel (k + 1) (nStep * 2) (h - nStep)
          (by omega) (by omega) (by omega) (by omega)
        exact ⟨h :: hs, by rw [hrun]; rfl, hfrom.cons (by omega)⟩
      · rw [if_neg hk]
        have h1 : nStep = 1 := hone (by omega)
        obtain ⟨hs, hrun, hfrom⟩ := locatorHeights_ok fuel (k + 1) nStep (h - nStep)
          (by omega) hstep (fun _ => h1) (by omega)
        exact ⟨h :: hs, by rw [hrun]; rfl, hfrom.cons (by omega)⟩

/-- From height `2^30 + 10` the walk is still above the genesis at its forty-first hash, where
`nStep` doubles to `2^31`.  The invariant: after `k` hashes the step is `2^(k - 10)` and the walk
has come down `min k 10 + 2^(k - 10) - 1` heights, with no stop at the genesis. -/
theorem locatorHeights_overflow {H : Nat} (hH : 2 ^ 30 + 10 ≤ H) :
    ∀ (fuel k nStep h : Nat), nStep = 2 ^ (k - 10) → k ≤ 40 → 41 ≤ fuel + k →
      h + min k 10 + nStep = H + 1 →
      locatorHeights fuel k nStep h = .error "GetLocator: nStep *= 2 overflows int"
  | 0, _, _, _, _, hk, hfuel, _ => absurd hfuel (by omega)
  | fuel + 1, k, nStep, h, hpow, hk, hfuel, hinv => by
    have hle : nStep ≤ 2 ^ 30 := hpow ▸ Nat.pow_le_pow_right (by norm_num) (by omega)
    unfold locatorHeights
    rw [if_neg (by omega)]
    by_cases hk10 : k + 1 > 10
    · rw [if_pos hk10]
      by_cases h40 : k = 40
      · -- the forty-first hash: the step doubles to `2^31`
        subst h40
        rw [if_pos (by rw [hpow]; unfold INT_MAX; norm_num)]
      · have hle' : nStep ≤ 2 ^ 29 := hpow ▸ Nat.pow_le_pow_right (by norm_num) (by omega)
        have hdouble : nStep * 2 = 2 ^ (k + 1 - 10) := by
          rw [hpow, show k + 1 - 10 = (k - 10) + 1 by omega, pow_succ]
        rw [if_neg (by unfold INT_MAX; omega), locatorHeights_overflow hH fuel (k + 1) _ _ hdouble
          (by omega) (by omega) (by omega)]
        rfl
    · rw [if_neg hk10]
      have hone : nStep = 2 ^ (k + 1 - 10) := by
        rw [hpow, show k - 10 = 0 by omega, show k + 1 - 10 = 0 by omega]
      have h1 : nStep = 1 := by rw [hone, show k + 1 - 10 = 0 by omega]; rfl
      rw [locatorHeights_overflow hH fuel (k + 1) _ _ hone (by omega) (by omega) (by omega)]
      rfl

/-! ### Reading the chain -/

section Queries

variable {c : CChain} {t : BlockPtr} (hc : c.vChain = chainOf t) (ht : ChainHeights t)
include hc ht

/-- `chain[n]` is the tip's ancestor at height `n`, `NULL` outside the chain. -/
theorem get_eq_GetAncestor (n : Int) : c.get n = GetAncestor t n := by
  rw [GetAncestor_of_chainHeights ht, get, hc, length_chainOf]
  by_cases hneg : n < 0
  · rw [if_pos (.inl hneg), if_pos (by omega), show (n + 1).toNat = 0 by omega, parentAt_zero]
  · by_cases hlt : n < t.length
    · rw [if_neg (by omega), if_pos hlt, getD_chainOf, if_pos (by omega)]
      congr 1
      omega
    · rw [if_pos (.inr (by omega)), if_neg hlt]

/-- A block is on the chain iff it is the tip or an ancestor of the tip. -/
theorem Contains_iff {q : BlockPtr} (hq : ChainHeights q) :
    c.Contains q = true ↔ q ≠ [] ∧ q <:+ t := by
  cases q with
  | nil => simp [Contains]
  | cons b rest =>
    have hb : b.nHeight = rest.length := hq.1
    simp only [Contains, beq_iff_eq, get_eq_GetAncestor hc ht, ne_eq, reduceCtorEq,
      not_false_eq_true, true_and]
    constructor
    · intro h
      rw [← h]
      exact GetAncestor_suffix t _
    · intro h
      have hle := h.length_le
      simp only [List.length_cons] at hle
      rw [GetAncestor_of_chainHeights ht, if_pos (by omega), hb,
        show ((rest.length : Int) + 1).toNat = (b :: rest).length by simp]
      exact (eq_parentAt_of_suffix h).symm

/-- The walk of `FindFork` down `q` stops at the highest block of `q`'s chain on the chain. -/
theorem findForkLoop_spec : ∀ {q : BlockPtr}, ChainHeights q →
    c.findForkLoop q <:+ q ∧ c.findForkLoop q <:+ t ∧
      ∀ r, r <:+ q → r <:+ t → r <:+ c.findForkLoop q
  | [], _ => by simp [findForkLoop]
  | b :: rest, hq => by
    unfold findForkLoop
    split
    · rename_i hin
      exact ⟨List.suffix_refl _, ((Contains_iff hc ht hq).mp hin).2, fun r hr _ => hr⟩
    · rename_i hout
      obtain ⟨h₁, h₂, h₃⟩ := findForkLoop_spec hq.2
      refine ⟨h₁.trans (List.suffix_cons b rest), h₂, fun r hr hrt => ?_⟩
      rcases List.suffix_cons_iff.mp hr with rfl | hr
      · exact absurd ((Contains_iff hc ht hq).mpr ⟨List.cons_ne_nil _ _, hrt⟩) hout
      · exact h₃ r hr hrt

omit ht in
/-- `FindFork` starts its walk at a block of `q`'s chain above every block `q` shares with the
chain: `q` itself, or `q`'s block at the chain's height. -/
theorem FindFork_eq {b : CBlockIndex} {rest : BlockPtr} (hq : ChainHeights (b :: rest)) :
    ∃ q', c.FindFork (b :: rest) = c.findForkLoop q' ∧ q' <:+ b :: rest ∧
      ∀ r, r <:+ b :: rest → r <:+ t → r <:+ q' := by
  by_cases hgt : b.nHeight > c.Height
  · have hlt : t.length < (b :: rest).length := by
      rw [Height_eq hc, hq.1] at hgt
      simp only [List.length_cons]
      omega
    have hstart : GetAncestor (b :: rest) c.Height = parentAt (b :: rest) t.length := by
      rw [GetAncestor_of_chainHeights hq, Height_eq hc, if_pos (by omega)]
      congr 1
      omega
    refine ⟨parentAt (b :: rest) t.length, by rw [FindFork, if_pos hgt, hstart],
      parentAt_suffix _ _, fun r hr hrt => List.suffix_of_suffix_length_le hr
        (parentAt_suffix _ _) ?_⟩
    rw [length_parentAt hlt.le]
    exact hrt.length_le
  · exact ⟨b :: rest, by rw [FindFork, if_neg hgt], List.suffix_refl _, fun r hr _ => hr⟩

/-- `FindFork(q)` is the highest block that is `q` or an ancestor of `q` and on the chain. -/
theorem FindFork_spec {q : BlockPtr} (hq : ChainHeights q) :
    c.FindFork q <:+ q ∧ c.FindFork q <:+ t ∧
      ∀ r, r <:+ q → r <:+ t → r <:+ c.FindFork q := by
  cases q with
  | nil => simp [FindFork]
  | cons b rest =>
    obtain ⟨q', hfind, hq', hcommon⟩ := FindFork_eq hc hq
    obtain ⟨h₁, h₂, h₃⟩ := findForkLoop_spec hc ht (hq.suffix hq')
    rw [hfind]
    exact ⟨h₁.trans hq', h₂, fun r hr hrt => h₃ r (hcommon r hr hrt) hrt⟩

/-- The next block of `GetLocator`'s walk, read from the chain or through the skip list, is the
same: the block's ancestor at the height asked for. -/
theorem next_eq {p : BlockPtr} (hp : ChainHeights p) {n : Nat} (hn : n < p.length) :
    (if c.Contains p then c.get n else GetAncestor p n) = parentAt p (n + 1) := by
  have hanc : GetAncestor p n = parentAt p (n + 1) := by
    rw [GetAncestor_of_chainHeights hp, if_pos (by omega), Int.toNat_natCast_add_one]
  split
  · rename_i hin
    have hsuf := ((Contains_iff hc ht hp).mp hin).2
    have hle := hsuf.length_le
    calc c.get n = parentAt t (n + 1) := by
          rw [get_eq_GetAncestor hc ht, GetAncestor_of_chainHeights ht, if_pos (by omega),
            Int.toNat_natCast_add_one]
      _ = parentAt (parentAt t p.length) (n + 1) := (parentAt_parentAt (by omega) hle).symm
      _ = parentAt p (n + 1) := by rw [← eq_parentAt_of_suffix hsuf]
  · exact hanc

/-- **Refinement.** `GetLocator`'s walk from `s`'s block at height `h` hashes `s`'s blocks at the
heights `locatorHeights` visits, and fails where it fails. -/
theorem getLocatorLoop_eq {s : BlockPtr} (hs : ChainHeights s)
    (GetBlockHash : BlockPtr → Uint256) :
    ∀ (fuel nStep h : Nat) (vHave : List Uint256), h < s.length → 1 ≤ nStep →
      c.getLocatorLoop GetBlockHash fuel nStep (parentAt s (h + 1)) vHave =
        (fun hs => vHave ++ hs.map fun h => GetBlockHash (parentAt s (h + 1))) <$>
          locatorHeights fuel vHave.length nStep h := by
  intro fuel
  induction fuel with
  | zero =>
    intro nStep h vHave hh _
    obtain ⟨b, rest, hbr, -⟩ := parentAt_eq_cons hs hh
    rw [hbr]
    rfl
  | succ fuel ih =>
    intro nStep h vHave hh hstep
    obtain ⟨b, rest, hbr, hb⟩ := parentAt_eq_cons hs hh
    rw [hbr]
    simp only [getLocatorLoop, hb, Nat.cast_eq_zero, List.length_append, List.length_singleton]
    unfold locatorHeights
    by_cases h0 : h = 0
    · subst h0
      rw [if_pos rfl, if_pos rfl, ← hbr]
      rfl
    · -- the next block is `s`'s at height `h - nStep`, from the chain or the skip list
      have hmax : max ((h : Int) - nStep) 0 = ((h - nStep : Nat) : Int) := by omega
      have hnext := next_eq hc ht (hs.suffix (parentAt_suffix s (h + 1)))
        (n := h - nStep) (by rw [length_parentAt hh]; omega)
      rw [if_neg h0, if_neg h0, hmax, ← hbr, hnext, parentAt_parentAt (by omega) hh]
      by_cases hk : vHave.length + 1 > 10
      · rw [if_pos hk, if_pos hk]
        by_cases hov : (nStep : Int) * 2 > INT_MAX
        · rw [if_pos hov, if_pos hov]
          rfl
        · rw [if_neg hov, if_neg hov,
            show (nStep : Int) * 2 = ((nStep * 2 : Nat) : Int) by push_cast; rfl,
            ih _ _ _ (by omega) (by omega), Functor.map_map]
          simp
      · rw [if_neg hk, if_neg hk, ih _ _ _ (by omega) hstep, Functor.map_map]
        simp

/-- `GetLocator(q)` from its start `s`, `q` or the tip: the hashes of `s`'s blocks at the heights
`locatorHeights` visits from `s`'s height. -/
theorem GetLocator_eq {q s : BlockPtr} (hstart : (if q = [] then t else q) = s)
    (hs : ChainHeights s) (hne : s ≠ []) (GetBlockHash : BlockPtr → Uint256) :
    c.GetLocator GetBlockHash q =
      (fun hs => hs.map fun h => GetBlockHash (parentAt s (h + 1))) <$>
        locatorHeights s.length 0 1 (s.length - 1) := by
  have hpos : 0 < s.length := List.length_pos_iff.mpr hne
  have hloop := getLocatorLoop_eq hc ht hs GetBlockHash s.length 1 (s.length - 1) [] (by omega)
    le_rfl
  rw [Nat.sub_add_cancel hpos, parentAt_length] at hloop
  simp only [Nat.cast_one, List.length_nil, List.nil_append] at hloop
  simp only [GetLocator, Tip_eq hc, hstart]
  exact hloop

/-- Below height `2^30 + 10`, `GetLocator(q)` hashes blocks of its start's chain, from the start
down to the genesis with strictly decreasing heights. -/
theorem GetLocator_spec {q s : BlockPtr} (hstart : (if q = [] then t else q) = s)
    (hs : ChainHeights s) (hne : s ≠ []) (hlow : s.length ≤ 2 ^ 30 + 10)
    (GetBlockHash : BlockPtr → Uint256) :
    ∃ ps : List BlockPtr, c.GetLocator GetBlockHash q = .ok (ps.map GetBlockHash) ∧
      ps.head? = some s ∧ (∀ r ∈ ps, r <:+ s) ∧
      ps.Pairwise (fun r r' => r'.length < r.length) ∧ ps.getLast? = some (GetAncestor s 0) := by
  have hpos : 0 < s.length := List.length_pos_iff.mpr hne
  obtain ⟨hs', hrun, hfrom⟩ := locatorHeights_ok s.length 0 1 (s.length - 1) (by omega) le_rfl
    (fun _ => rfl) (by omega)
  have hlen : ∀ x ∈ hs', (parentAt s (x + 1)).length = x + 1 := fun x hx =>
    length_parentAt (by have := hfrom.le x hx; omega)
  refine ⟨hs'.map fun h => parentAt s (h + 1), ?_, ?_, ?_, ?_, ?_⟩
  · rw [GetLocator_eq hc ht hstart hs hne GetBlockHash, hrun, List.map_map]
    rfl
  · rw [List.head?_map, hfrom.head, Option.map_some, Nat.sub_add_cancel hpos, parentAt_length]
  · simp only [List.mem_map]
    rintro r ⟨h, -, rfl⟩
    exact parentAt_suffix s _
  · rw [List.pairwise_map]
    refine (List.isChain_iff_pairwise.mp hfrom.decreasing).imp_of_mem fun ha hb hab => ?_
    rw [hlen _ ha, hlen _ hb]
    omega
  · rw [List.getLast?_map, hfrom.last, GetAncestor_of_chainHeights hs, if_pos (by omega)]
    rfl

/-- From height `2^30 + 10`, `GetLocator` overflows `nStep`. -/
theorem GetLocator_overflow {q s : BlockPtr} (hstart : (if q = [] then t else q) = s)
    (hs : ChainHeights s) (hhigh : 2 ^ 30 + 11 ≤ s.length) (GetBlockHash : BlockPtr → Uint256) :
    c.GetLocator GetBlockHash q = .error "GetLocator: nStep *= 2 overflows int" := by
  have hne : s ≠ [] := by
    rintro rfl
    simp at hhigh
  rw [GetLocator_eq hc ht hstart hs hne GetBlockHash,
    locatorHeights_overflow (H := s.length - 1) (by omega) s.length 0 1 (s.length - 1) rfl
      (by omega) (by omega) (by omega)]
  rfl

end Queries

/-! ### After any sequence of `SetTip` calls -/

/-- After any sequence of `SetTip` calls for blocks of a block tree, and `SetTip(p)`: the chain's
height is `p`'s, `chain[h]` is `p`'s ancestor at `h`, a block is on the chain iff it is `p` or an
ancestor of `p`, `FindFork(q)` is the highest block of `q`'s chain on the chain, and below height
`2^30 + 10` `GetLocator(q)` hashes blocks of its start's chain, from the start (`q`, or the tip)
down to the genesis with strictly decreasing heights. -/
theorem CChain_SetTip_spec (GetBlockHash : BlockPtr → Uint256) (tips : List BlockPtr)
    (htips : ∀ tip ∈ tips, ChainHeights tip) (b : CBlockIndex) (rest : BlockPtr)
    (hp : ChainHeights (b :: rest)) :
    let chain := (tips.foldl SetTip ⟨[]⟩).SetTip (b :: rest)
    chain.Height = b.nHeight ∧
    (∀ h : Int, chain.get h = GetAncestor (b :: rest) h) ∧
    (∀ q, ChainHeights q → (chain.Contains q = true ↔ q ≠ [] ∧ q <:+ b :: rest)) ∧
    (∀ q, ChainHeights q → chain.FindFork q <:+ q ∧ chain.FindFork q <:+ b :: rest ∧
      ∀ r, r <:+ q → r <:+ b :: rest → r <:+ chain.FindFork q) ∧
    (∀ q, ChainHeights q →
      let start := if q = [] then b :: rest else q
      start.length ≤ 2 ^ 30 + 10 →
      ∃ ps : List BlockPtr, chain.GetLocator GetBlockHash q = .ok (ps.map GetBlockHash) ∧
        ps.head? = some start ∧ (∀ r ∈ ps, r <:+ start) ∧
        ps.Pairwise (fun r r' => r'.length < r.length) ∧
        ps.getLast? = some (GetAncestor start 0)) := by
  intro chain
  obtain ⟨t₀, -, hc₀⟩ := run_SetTip tips (c := ⟨[]⟩) (t := []) trivial rfl htips
  have hc : chain.vChain = chainOf (b :: rest) := SetTip_vChain hc₀ hp
  refine ⟨?_, get_eq_GetAncestor hc hp, fun q hq => Contains_iff hc hp hq,
    fun q hq => FindFork_spec hc hp hq, fun q hq => ?_⟩
  · rw [Height_eq hc, hp.1]
    simp
  · -- the start is `q`, or the tip for `NULL`
    intro start hlow
    have hs : ChainHeights start := by
      by_cases hq0 : q = []
      · simpa only [start, if_pos hq0] using hp
      · simpa only [start, if_neg hq0] using hq
    have hne : start ≠ [] := by
      by_cases hq0 : q = []
      · simp only [start, if_pos hq0, ne_eq, reduceCtorEq, not_false_eq_true]
      · simpa only [start, if_neg hq0] using hq0
    exact GetLocator_spec hc hp rfl hs hne hlow GetBlockHash

/-- Two chains of three blocks that part above the genesis. -/
def forkA : BlockPtr :=
  [⟨Uint256.replicate 0xA2, 2, 0, 0, 20⟩, ⟨Uint256.replicate 0xA1, 1, 0, 0, 10⟩,
    ⟨Uint256.zero, 0, 0, 0, 0⟩]

/-- The other branch: its blocks at heights `1` and `2` have `forkA`'s fields but other
hashes, so they are other blocks. -/
def forkB : BlockPtr :=
  [⟨Uint256.replicate 0xB2, 2, 0, 0, 20⟩, ⟨Uint256.replicate 0xB1, 1, 0, 0, 10⟩,
    ⟨Uint256.zero, 0, 0, 0, 0⟩]

theorem CChain_SetTip_spec_reorg :
    (∀ tip ∈ [forkA], ChainHeights tip) ∧ ChainHeights forkB ∧
      (([forkA].foldl SetTip ⟨[]⟩).SetTip forkB).Height = 2 :=
  ⟨by decide, by decide,
    (CChain_SetTip_spec (fun _ => Uint256.zero) [forkA] (by decide)
      ⟨Uint256.replicate 0xB2, 2, 0, 0, 20⟩
      [⟨Uint256.replicate 0xB1, 1, 0, 0, 10⟩, ⟨Uint256.zero, 0, 0, 0, 0⟩] (by decide)).1⟩

/-- A chain of `n` blocks, at heights `n - 1` down to `0`. -/
def tallChain : Nat → BlockPtr
  | 0 => []
  | n + 1 => ⟨Uint256.zero, n, 0, 0, 0⟩ :: tallChain n

theorem length_tallChain : ∀ n, (tallChain n).length = n
  | 0 => rfl
  | n + 1 => by simp [tallChain, length_tallChain n]

theorem chainHeights_tallChain : ∀ n, ChainHeights (tallChain n)
  | 0 => trivial
  | n + 1 => ⟨by simp [length_tallChain], chainHeights_tallChain n⟩

/-- On a chain whose tip is at height `2^30 + 10`, `GetLocator()` doubles `nStep` past
`INT_MAX` at its forty-first hash, whatever the block hashes (here all `0`). -/
theorem GetLocator_tall_chain_overflows :
    ChainHeights (tallChain (2 ^ 30 + 11)) ∧
      ((⟨[]⟩ : CChain).SetTip (tallChain (2 ^ 30 + 11))).GetLocator (fun _ => default) [] =
        .error "GetLocator: nStep *= 2 overflows int" := by
  have ht := chainHeights_tallChain (2 ^ 30 + 11)
  refine ⟨ht, GetLocator_overflow (SetTip_vChain (t := []) rfl ht) ht (if_pos rfl) ht ?_
    (fun _ => default)⟩
  rw [length_tallChain]

end CChain

end Unitus
