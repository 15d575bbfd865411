import Unitus.Consensus.VersionBits

/-!
# Consensus — the version bits cache against the recursive definition

The uncached definition of the BIP9 state: `THRESHOLD_DEFINED` for `NULL`, and for the last block
of a period the `switch` of `GetStateFor` applied to the state of the period before.
`GetStateFor` computes it, with a cache holding only its values before and after, for any
positive period, whenever the deployment times out no earlier than it starts and the median time
past does not decrease down the chain (as the block time rule `nTime > GetMedianTimePast()` of the
parent makes it).  Both conditions are needed: the start-time shortcut of the backward walk
answers `THRESHOLD_DEFINED` for a block before the start time without looking further down, which
is the recursive state only if no earlier block had left it.
-/

namespace Unitus

open Memo ThresholdState

/-- The successor states BIP9 allows from one period to the next: each state but `LOCKED_IN`
may stay, `DEFINED` may start or fail, `STARTED` may lock in or fail, `LOCKED_IN` activates. -/
inductive ThresholdState.Successor : ThresholdState → ThresholdState → Prop
  | stay (s : ThresholdState) (h : s ≠ THRESHOLD_LOCKED_IN) : Successor s s
  | start : Successor THRESHOLD_DEFINED THRESHOLD_STARTED
  | failDefined : Successor THRESHOLD_DEFINED THRESHOLD_FAILED
  | failStarted : Successor THRESHOLD_STARTED THRESHOLD_FAILED
  | lockIn : Successor THRESHOLD_STARTED THRESHOLD_LOCKED_IN
  | activate : Successor THRESHOLD_LOCKED_IN THRESHOLD_ACTIVE

/-- Nothing leads back to `THRESHOLD_DEFINED`. -/
theorem ThresholdState.Successor.eq_defined {s : ThresholdState}
    (h : Successor s THRESHOLD_DEFINED) : s = THRESHOLD_DEFINED := by
  cases h
  rfl

/-- The median time past does not decrease from a block to its child, all the way down. -/
def MedianTimeMonotone : BlockPtr → Prop
  | [] => True
  | b :: rest => (rest ≠ [] → GetMedianTimePast rest ≤ GetMedianTimePast (b :: rest)) ∧
      MedianTimeMonotone rest

instance MedianTimeMonotone.decidable : (p : BlockPtr) → Decidable (MedianTimeMonotone p)
  | [] => isTrue trivial
  | b :: rest =>
    have := MedianTimeMonotone.decidable rest
    inferInstanceAs (Decidable ((rest ≠ [] → GetMedianTimePast rest ≤ GetMedianTimePast (b :: rest)) ∧
      MedianTimeMonotone rest))

theorem MedianTimeMonotone.suffix {p q : BlockPtr} (h : MedianTimeMonotone p) (hq : q <:+ p) :
    MedianTimeMonotone q := by
  induction p with
  | nil => rwa [List.suffix_nil.mp hq]
  | cons b rest ih =>
    rcases List.suffix_cons_iff.mp hq with rfl | hq
    · exact h
    · exact ih h.2 hq

/-- Down a chain whose median time does not decrease, an ancestor's is at most the block's. -/
theorem MedianTimeMonotone.le_of_suffix {p q : BlockPtr} (h : MedianTimeMonotone p)
    (hq : q <:+ p) (hne : q ≠ []) : GetMedianTimePast q ≤ GetMedianTimePast p := by
  induction p with
  | nil => exact absurd (List.suffix_nil.mp hq) hne
  | cons b rest ih =>
    rcases List.suffix_cons_iff.mp hq with rfl | hq
    · exact le_refl _
    · have hrest : rest ≠ [] := fun h' => hne (List.suffix_nil.mp (h' ▸ hq))
      exact (ih h.2 hq).trans (h.1 hrest)

namespace AbstractThresholdConditionChecker

variable (c : AbstractThresholdConditionChecker)

/-! ## The recursive definition -/

/-- The uncached recursive definition, at most `depth` periods deep. -/
def stateRecDepth : Nat → BlockPtr → ThresholdState
  | 0, _ => THRESHOLD_DEFINED
  | _ + 1, [] => THRESHOLD_DEFINED
  | depth + 1, b :: rest =>
    c.nextState (stateRecDepth depth (c.periodBefore (b :: rest))) (b :: rest)

/-- The uncached recursive definition of the state of the block after the period ending at `p`:
as deep as the chain has blocks, which is every period of it when the period is positive. -/
def stateRec (p : BlockPtr) : ThresholdState := c.stateRecDepth p.length p

/-- The state of the block after `pindexPrev`: that of its period. -/
def stateFor (pindexPrev : BlockPtr) : ThresholdState := c.stateRec (c.periodStart pindexPrev)

section Positive

variable {c} (hP : 0 < c.Period)
include hP

/-- With a positive period the period before is further down the chain. -/
theorem length_periodBefore_lt (b : CBlockIndex) (rest : BlockPtr) :
    (c.periodBefore (b :: rest)).length < (b :: rest).length := by
  simp only [periodBefore, GetAncestor]
  split
  · simp
  · rw [List.length_drop]
    have hk : 0 < (b.nHeight - (b.nHeight - c.Period)).toNat := by omega
    simp only [List.length_cons]
    omega

theorem stateRecDepth_stable :
    ∀ (d₁ d₂ : Nat) (p : BlockPtr), p.length ≤ d₁ → p.length ≤ d₂ →
      c.stateRecDepth d₁ p = c.stateRecDepth d₂ p := by
  intro d₁
  -- both depths reach past the end of the chain, which the recursion reaches first
  induction d₁ with
  | zero =>
    intro d₂ p h₁ _
    cases p with
    | nil => cases d₂ <;> rfl
    | cons b rest => simp at h₁
  | succ d ih =>
    intro d₂ p h₁ h₂
    cases p with
    | nil => cases d₂ <;> rfl
    | cons b rest =>
      obtain ⟨e, rfl⟩ : ∃ e, d₂ = e + 1 := ⟨d₂ - 1, by simp at h₂; omega⟩
      have hlt := length_periodBefore_lt hP b rest
      simp only [List.length_cons] at h₁ h₂ hlt
      simp only [stateRecDepth]
      rw [ih e _ (by omega) (by omega)]

/-- **The recursion.**  The state after a period's last block is the `switch` of `GetStateFor`
from the state of the period before. -/
theorem stateRec_cons (b : CBlockIndex) (rest : BlockPtr) :
    c.stateRec (b :: rest) = c.nextState (c.stateRec (c.periodBefore (b :: rest))) (b :: rest) := by
  have hlt := length_periodBefore_lt hP b rest
  rw [stateRec, List.length_cons, stateRecDepth, stateRec,
    stateRecDepth_stable hP _ _ _ (by simp at hlt; omega) (le_refl _)]

end Positive

@[simp] theorem stateRec_nil : c.stateRec [] = THRESHOLD_DEFINED := rfl

theorem periodBefore_suffix (q : BlockPtr) : c.periodBefore q <:+ q := by
  cases q with
  | nil => exact List.suffix_refl _
  | cons b rest => exact GetAncestor_suffix (b :: rest) _

theorem periodStart_suffix (q : BlockPtr) : c.periodStart q <:+ q := by
  cases q with
  | nil => exact List.suffix_refl _
  | cons b rest => exact GetAncestor_suffix (b :: rest) _

/-- Every turn of the `switch` moves to a successor state. -/
theorem nextState_successor (s : ThresholdState) (q : BlockPtr) :
    Successor s (c.nextState s q) := by
  cases s with
  | THRESHOLD_DEFINED =>
    simp only [nextState]
    split_ifs
    · exact .failDefined
    · exact .start
    · exact .stay _ (by decide)
  | THRESHOLD_STARTED =>
    simp only [nextState]
    split_ifs
    · exact .failStarted
    · exact .lockIn
    · exact .stay _ (by decide)
  | THRESHOLD_LOCKED_IN => exact .activate
  | THRESHOLD_ACTIVE => exact .stay _ (by decide)
  | THRESHOLD_FAILED => exact .stay _ (by decide)

/-! ## The cache computes the recursive definition -/

/-- `seg` climbs the chain from `known` a period at a time: each entry is a period's last block,
and the period before it ends at the entry before. -/
def Linked : BlockPtr → List BlockPtr → Prop
  | _, [] => True
  | known, x :: xs => x ≠ [] ∧ c.periodBefore x = known ∧ Linked x xs

/-- A sequence of `GetStateFor` calls sharing one cache, in any order and on any forks, as the
calls a checker answers share its `ThresholdConditionCache`: the states answered, and the cache
left. -/
def getStatesFor : List BlockPtr → ThresholdConditionCache →
    Option (List ThresholdState × ThresholdConditionCache)
  | [], cache => some ([], cache)
  | p :: ps, cache =>
    match c.GetStateFor p cache with
    | none => none
    | some (state, cache) =>
      match getStatesFor ps cache with
      | none => none
      | some (states, cache) => some (state :: states, cache)

section Walks

variable {c} (hP : 0 < c.Period) (hT : c.BeginTime ≤ c.EndTime)

include hP hT in
/-- **The start-time shortcut is sound.**  On a chain whose median time past does not decrease, a
period that ends before the start time is still `THRESHOLD_DEFINED`: no period below it can have
left that state, and `DEFINED` fails only at the timeout, which is no earlier. -/
theorem stateRec_of_lt_BeginTime :
    ∀ (n : Nat) (q : BlockPtr), q.length ≤ n → MedianTimeMonotone q →
      GetMedianTimePast q < c.BeginTime → c.stateRec q = THRESHOLD_DEFINED := by
  intro n
  -- on a bound of the chain's length, which each period before shortens
  induction n with
  | zero =>
    intro q hq _ _
    rw [List.length_eq_zero_iff.mp (Nat.le_zero.mp hq), stateRec_nil]
  | succ n ih =>
    intro q hq hmono hlt
    cases q with
    | nil => rfl
    | cons b rest =>
      have hbefore : c.stateRec (c.periodBefore (b :: rest)) = THRESHOLD_DEFINED := by
        by_cases hnil : c.periodBefore (b :: rest) = []
        · rw [hnil, stateRec_nil]
        · have hsuf := c.periodBefore_suffix (b :: rest)
          have hshorter := length_periodBefore_lt hP b rest
          have hle := hmono.le_of_suffix hsuf hnil
          simp only [List.length_cons] at hq hshorter
          exact ih _ (by omega) (hmono.suffix hsuf) (by omega)
      rw [stateRec_cons hP, hbefore]
      simp only [nextState, ge_iff_le]
      rw [if_neg (by omega), if_neg (by omega)]

include hP in
/-- The forward walk over a segment that climbs from `known` computes the state of its top. -/
theorem walkForward_spec :
    ∀ (seg : List BlockPtr) (known : BlockPtr) (cache : ThresholdConditionCache),
      c.Linked known seg → Sound c.stateRec cache →
      (c.walkForward (c.stateRec known) seg cache).1 = c.stateRec (seg.getLastD known) ∧
        Sound c.stateRec (c.walkForward (c.stateRec known) seg cache).2 := by
  intro seg
  induction seg with
  | nil => exact fun _ _ _ hc => ⟨rfl, hc⟩
  | cons x xs ih =>
    intro known cache hlink hc
    obtain ⟨hx, hpb, hrest⟩ := hlink
    obtain ⟨b, rest, rfl⟩ := List.exists_cons_of_ne_nil hx
    -- each turn of the `switch` is one unrolling of the recursion
    have hstep : c.nextState (c.stateRec known) (b :: rest) = c.stateRec (b :: rest) := by
      rw [stateRec_cons hP, hpb]
    have hc' : Sound c.stateRec (cache.insert (b :: rest) (c.stateRec (b :: rest))) :=
      hc.insert rfl
    simp only [walkForward, hstep, List.getLastD_cons]
    exact ih (b :: rest) _ hrest hc'

include hP hT in
/-- The backward walk from `q`, with `vs` climbing from `q`, stops at a block whose state the cache
then holds, and the segment it returns climbs from there to the top of `vs`. -/
theorem walkBack_spec :
    ∀ (fuel : Nat) (q : BlockPtr) (vs : List BlockPtr) (cache : ThresholdConditionCache),
      q.length < fuel → MedianTimeMonotone q → c.Linked q vs → Sound c.stateRec cache →
      ∃ seg known cache', c.walkBack fuel q vs cache = some (seg, known, cache') ∧
        cache' known = some (c.stateRec known) ∧ Sound c.stateRec cache' ∧
        c.Linked known seg ∧ seg.getLastD known = vs.getLastD q := by
  intro fuel
  -- on the fuel, which is more than the length of the chain left below
  induction fuel with
  | zero => exact fun _ _ _ hq => absurd hq (Nat.not_lt_zero _)
  | succ fuel ih =>
    intro q vs cache hq hmono hlink hc
    cases hq' : cache q with
    | some v =>
      -- a cache hit: the state is known
      have hv : v = c.stateRec q := hc.eq hq'
      subst hv
      exact ⟨vs, q, cache, by simp [walkBack, hq'], hq', hc, hlink, rfl⟩
    | none =>
      cases q with
      | nil =>
        refine ⟨vs, [], cache.insert [] THRESHOLD_DEFINED, by simp [walkBack, hq'], ?_,
          hc.insert rfl, hlink, rfl⟩
        rw [Cache.insert_self, stateRec_nil]
      | cons b rest =>
        by_cases hlt : GetMedianTimePast (b :: rest) < c.BeginTime
        · -- the start-time shortcut
          have hdef := stateRec_of_lt_BeginTime hP hT _ _ (le_refl _) hmono hlt
          refine ⟨vs, b :: rest, cache.insert (b :: rest) THRESHOLD_DEFINED,
            by simp [walkBack, hq', hlt], ?_, hc.insert hdef.symm, hlink, rfl⟩
          rw [Cache.insert_self, hdef]
        · -- one period down, with the block remembered for the forward walk
          have hshorter := length_periodBefore_lt hP b rest
          obtain ⟨seg, known, cache', hwalk, hknown, hc', hlink', hlast⟩ :=
            ih (c.periodBefore (b :: rest)) ((b :: rest) :: vs) cache (by omega)
              (hmono.suffix (c.periodBefore_suffix _)) ⟨List.cons_ne_nil _ _, rfl, hlink⟩ hc
          refine ⟨seg, known, cache', ?_, hknown, hc', hlink', by rw [hlast, List.getLastD_cons]⟩
          simp only [walkBack, hq', Option.isSome_none, Bool.false_eq_true, if_false, hlt]
          exact hwalk

include hP hT in
/-- `GetStateFor` answers the recursive state, and leaves a cache that still holds only
recursive states. -/
theorem GetStateFor_spec (p : BlockPtr) (cache : ThresholdConditionCache)
    (hmono : MedianTimeMonotone p) (hc : Sound c.stateRec cache) :
    ∃ cache', c.GetStateFor p cache = some (c.stateFor p, cache') ∧ Sound c.stateRec cache' := by
  obtain ⟨seg, known, cache₁, hwalk, hknown, hc₁, hlink, hlast⟩ :=
    walkBack_spec hP hT _ (c.periodStart p) [] cache (Nat.lt_succ_self _)
      (hmono.suffix (c.periodStart_suffix p)) trivial hc
  obtain ⟨hstate, hc₂⟩ := walkForward_spec hP seg known cache₁ hlink hc₁
  rw [List.getLastD_nil] at hlast
  rw [hlast] at hstate
  refine ⟨_, ?_, hc₂⟩
  simp only [GetStateFor, hwalk, hknown, stateFor, ← hstate]

include hP hT in
/-- Along any sequence of calls, each answers the recursive state: the cache each call leaves is
one the next call may start from. -/
theorem getStatesFor_spec :
    ∀ (ps : List BlockPtr) (cache : ThresholdConditionCache), (∀ p ∈ ps, MedianTimeMonotone p) →
      Sound c.stateRec cache →
      ∃ cache', c.getStatesFor ps cache = some (ps.map c.stateFor, cache') ∧
        Sound c.stateRec cache' := by
  intro ps
  induction ps with
  | nil => exact fun cache _ hc => ⟨cache, rfl, hc⟩
  | cons p ps ih =>
    intro cache hmono hc
    obtain ⟨cache₁, hget, hc₁⟩ := GetStateFor_spec hP hT p cache (hmono p List.mem_cons_self) hc
    obtain ⟨cache₂, hrest, hc₂⟩ :=
      ih cache₁ (fun q hq => hmono q (List.mem_cons_of_mem p hq)) hc₁
    exact ⟨cache₂, by simp only [getStatesFor, hget, hrest, List.map_cons], hc₂⟩

end Walks

/-! ## Periods along a chain -/

/-- `r` is the first height of the earliest period of the current run: every block of the chain
from height `r` up to the block after `p` is in the state of that block, the block at height
`r - 1`, if there is one, is not, and `r` begins a period. -/
def SinceHeight (p : BlockPtr) (r : Nat) : Prop :=
  r ≤ p.length ∧ c.Period.toNat ∣ r ∧
    (∀ h, r ≤ h → h ≤ p.length → c.stateFor (parentAt p h) = c.stateFor p) ∧
    (0 < r → c.stateFor (parentAt p (r - 1)) ≠ c.stateFor p)

section Chain

variable {c} (hP : 0 < c.Period)

include hP in
/-- On a chain, the period before ends `Period` blocks further down. -/
theorem periodBefore_of_chainHeights {q : BlockPtr} (hq : ChainHeights q) :
    c.periodBefore q = parentAt q (q.length - c.Period.toNat) := by
  cases q with
  | nil => simp [periodBefore, parentAt]
  | cons b rest =>
    have hb : b.nHeight = rest.length := hq.1
    simp only [periodBefore]
    rw [GetAncestor_of_chainHeights hq, if_pos (by simp only [List.length_cons]; omega)]
    congr 1
    simp only [List.length_cons]
    omega

include hP in
/-- On a chain, the period of the block after `q` follows the largest multiple of `Period` blocks
in `q`'s chain: `(nHeight + 1) % nPeriod` of non-negative numbers is the remainder. -/
theorem periodStart_of_chainHeights {q : BlockPtr} (hq : ChainHeights q) :
    c.periodStart q = parentAt q (c.Period.toNat * (q.length / c.Period.toNat)) := by
  cases q with
  | nil => simp [periodStart, parentAt]
  | cons b rest =>
    have hb : b.nHeight = rest.length := hq.1
    have hmod : (b.nHeight + 1).tmod c.Period =
        (((rest.length + 1) % c.Period.toNat : Nat) : Int) := by
      rw [Int.ofNat_tmod, hb, Int.toNat_of_nonneg (Int.le_of_lt hP)]
      push_cast
      rfl
    have hdiv := Nat.div_add_mod (rest.length + 1) c.Period.toNat
    simp only [periodStart]
    rw [hmod, GetAncestor_of_chainHeights hq, if_pos (by simp only [List.length_cons]; omega)]
    congr 1
    simp only [List.length_cons]
    omega

variable {p : BlockPtr} (hp : ChainHeights p)

include hP hp in
theorem periodStart_parentAt {h : Nat} (hh : h ≤ p.length) :
    c.periodStart (parentAt p h) = parentAt p (c.Period.toNat * (h / c.Period.toNat)) := by
  rw [periodStart_of_chainHeights hP (hp.suffix (parentAt_suffix p h)), length_parentAt hh,
    parentAt_parentAt (Nat.mul_div_le h _) hh]

include hP hp in
theorem periodBefore_parentAt {n : Nat} (hn : n ≤ p.length) :
    c.periodBefore (parentAt p n) = parentAt p (n - c.Period.toNat) := by
  rw [periodBefore_of_chainHeights hP (hp.suffix (parentAt_suffix p n)), length_parentAt hn,
    parentAt_parentAt (Nat.sub_le n _) hn]

include hP hp in
/-- The state of the block at height `h` is that after the last block of the period before. -/
theorem stateFor_parentAt {h : Nat} (hh : h ≤ p.length) :
    c.stateFor (parentAt p h) =
      c.stateRec (parentAt p (c.Period.toNat * (h / c.Period.toNat))) := by
  rw [stateFor, periodStart_parentAt hP hp hh]

include hP hp in
/-- Every block of the `k`-th period has the state after the last block of the period before. -/
theorem stateFor_parentAt_of_mem_period {h k : Nat} (hh : h ≤ p.length)
    (hlo : c.Period.toNat * k ≤ h) (hhi : h < c.Period.toNat * (k + 1)) :
    c.stateFor (parentAt p h) = c.stateRec (parentAt p (c.Period.toNat * k)) := by
  rw [stateFor_parentAt hP hp hh,
    Nat.div_eq_of_lt_le (by rwa [Nat.mul_comm]) (by rwa [Nat.mul_comm])]

include hP hp in
/-- One period up the chain is one turn of the `switch`. -/
theorem stateRec_parentAt_succ {m : Nat} (hm : c.Period.toNat * (m + 1) ≤ p.length) :
    c.stateRec (parentAt p (c.Period.toNat * (m + 1))) =
      c.nextState (c.stateRec (parentAt p (c.Period.toNat * m)))
        (parentAt p (c.Period.toNat * (m + 1))) := by
  have hpos : 0 < (parentAt p (c.Period.toNat * (m + 1))).length := by
    rw [length_parentAt hm]
    exact Nat.mul_pos (by omega) (Nat.succ_pos m)
  obtain ⟨b, rest, hq⟩ := List.exists_cons_of_ne_nil (List.ne_nil_of_length_pos hpos)
  rw [hq, stateRec_cons hP, ← hq, periodBefore_parentAt hP hp hm, Nat.mul_add_one,
    Nat.add_sub_cancel]

include hP hp in
/-- From one block to the next the state stays within a period, and at the first block of a
period it takes one turn of the `switch`. -/
theorem stateFor_parentAt_succ {h : Nat} (hh : h + 1 ≤ p.length) :
    c.stateFor (parentAt p (h + 1)) =
      if c.Period.toNat ∣ h + 1 then
        c.nextState (c.stateFor (parentAt p h)) (parentAt p (h + 1))
      else c.stateFor (parentAt p h) := by
  rw [stateFor_parentAt hP hp hh, stateFor_parentAt hP hp (by omega)]
  split_ifs with hdvd
  · -- a new period: the quotient moves up by one, to `h + 1` itself
    have hdiv := Nat.succ_div_of_dvd hdvd
    have hback : c.Period.toNat * (h / c.Period.toNat + 1) = h + 1 := by
      rw [← hdiv, Nat.mul_div_cancel' hdvd]
    rw [hdiv, stateRec_parentAt_succ hP hp (by rw [hback]; exact hh), hback]
  · rw [Nat.succ_div_of_not_dvd hdvd]

include hP hp in
/-- Below a `THRESHOLD_DEFINED` block of a chain every block is `THRESHOLD_DEFINED`. -/
theorem stateFor_parentAt_of_defined :
    ∀ (k h : Nat), h + k ≤ p.length →
      c.stateFor (parentAt p (h + k)) = THRESHOLD_DEFINED →
      c.stateFor (parentAt p h) = THRESHOLD_DEFINED := by
  intro k
  -- down the `k` blocks in between, one at a time
  induction k with
  | zero => exact fun _ _ hdef => hdef
  | succ k ih =>
    intro h hk hdef
    apply ih h (by omega)
    have hstep := stateFor_parentAt_succ hP hp (h := h + k) (by omega)
    rw [← Nat.add_assoc] at hdef
    rw [hdef] at hstep
    split_ifs at hstep
    · exact (hstep ▸ c.nextState_successor _ _).eq_defined
    · exact hstep.symm

variable (hT : c.BeginTime ≤ c.EndTime)

include hP hp hT in
/-- The loop of `GetStateSinceHeightFor`, from the last block of the `m`-th period when every
block from there up has the state `stateFor p`, finds where that run began. -/
theorem sinceLoop_spec (hmono : MedianTimeMonotone p) (hs : c.stateFor p ≠ THRESHOLD_DEFINED) :
    ∀ (fuel m : Nat) (b : CBlockIndex) (rest : BlockPtr) (cache : ThresholdConditionCache),
      parentAt p (c.Period.toNat * m) = b :: rest → c.Period.toNat * m ≤ p.length → m ≤ fuel →
      Sound c.stateRec cache →
      (∀ h, c.Period.toNat * m ≤ h → h ≤ p.length →
        c.stateFor (parentAt p h) = c.stateFor p) →
      ∃ (r : Nat) (cache' : ThresholdConditionCache),
        c.sinceLoop (c.stateFor p) fuel b rest cache = some ((r : Int), cache') ∧
          Sound c.stateRec cache' ∧ c.SinceHeight p r := by
  intro fuel
  -- on the fuel, at least the number of periods left below
  induction fuel with
  | zero =>
    intro m b rest cache hq _ hm
    rw [Nat.le_zero.mp hm, Nat.mul_zero, parentAt_zero] at hq
    cases hq
  | succ fuel ih =>
    intro m b rest cache hq hm hfuel hc hrun
    obtain ⟨k, rfl⟩ : ∃ k, m = k + 1 := by
      refine ⟨m - 1, ?_⟩
      rcases Nat.eq_zero_or_pos m with h0 | h0
      · rw [h0, Nat.mul_zero, parentAt_zero] at hq
        cases hq
      · omega
    have hP1 : 1 ≤ c.Period.toNat := by omega
    rw [Nat.mul_add_one] at hq hm hrun
    -- `pindexPrev->nHeight + 1` is the first height of the period after `b`
    have hheight : b.nHeight + 1 = ((c.Period.toNat * k + c.Period.toNat : Nat) : Int) := by
      have hlen := length_parentAt hm
      rw [hq, List.length_cons] at hlen
      have hchain : ChainHeights (b :: rest) := hp.suffix (hq ▸ parentAt_suffix p _)
      have hb : b.nHeight = rest.length := hchain.1
      omega
    have hbefore : c.periodBefore (b :: rest) = parentAt p (c.Period.toNat * k) := by
      rw [← hq, periodBefore_parentAt hP hp hm, Nat.add_sub_cancel]
    -- the block just below the candidate start has the state of the period before
    have hbelow : c.stateFor (parentAt p (c.Period.toNat * k + c.Period.toNat - 1)) =
        c.stateRec (parentAt p (c.Period.toNat * k)) :=
      stateFor_parentAt_of_mem_period hP hp (by omega) (by omega) (by rw [Nat.mul_add_one]; omega)
    have hdvd : c.Period.toNat ∣ c.Period.toNat * k + c.Period.toNat := ⟨k + 1, Nat.mul_add_one _ _⟩
    cases hk : parentAt p (c.Period.toNat * k) with
    | nil =>
      -- the run reaches the first period, which is `DEFINED`
      refine ⟨c.Period.toNat * k + c.Period.toNat, cache, ?_, hc, hm, hdvd, hrun, fun _ => ?_⟩
      · simp only [sinceLoop, hbefore, hk, hheight]
      · rw [hbelow, hk, stateRec_nil]
        exact Ne.symm hs
    | cons q qs =>
      obtain ⟨cache₁, hget, hc₁⟩ := GetStateFor_spec hP hT (q :: qs) cache
        (hmono.suffix (hk ▸ parentAt_suffix p _)) hc
      have hstate : c.stateFor (q :: qs) = c.stateRec (parentAt p (c.Period.toNat * k)) := by
        rw [← hk, stateFor_parentAt_of_mem_period hP hp (by omega) (le_refl _)
          (by rw [Nat.mul_add_one]; omega)]
      by_cases heq : c.stateRec (parentAt p (c.Period.toNat * k)) = c.stateFor p
      · -- the period before is in the run too: one period down
        obtain ⟨r, cache', hloop, hc', hr⟩ := ih k q qs cache₁ hk (by omega) (by omega) hc₁
          (fun h hlo hhi => by
            by_cases hup : c.Period.toNat * k + c.Period.toNat ≤ h
            · exact hrun h hup hhi
            · rw [stateFor_parentAt_of_mem_period hP hp hhi hlo (by rw [Nat.mul_add_one]; omega),
                heq])
        refine ⟨r, cache', ?_, hc', hr⟩
        simp only [sinceLoop, hbefore, hk, hget, hstate, hk ▸ heq, if_true]
        exact hloop
      · -- the period before is not: the run begins after `b`
        refine ⟨c.Period.toNat * k + c.Period.toNat, cache₁, ?_, hc₁, hm, hdvd, hrun, fun _ => ?_⟩
        · simp only [sinceLoop, hbefore, hk, hget, hstate, hk ▸ heq, if_false, hheight]
        · rw [hbelow]
          exact heq

include hP hp hT in
/-- `GetStateSinceHeightFor` answers where the current run of the state began. -/
theorem GetStateSinceHeightFor_spec (hmono : MedianTimeMonotone p)
    (cache : ThresholdConditionCache) (hc : Sound c.stateRec cache) :
    ∃ (r : Nat) (cache' : ThresholdConditionCache),
      c.GetStateSinceHeightFor p cache = some ((r : Int), cache') ∧
        Sound c.stateRec cache' ∧ c.SinceHeight p r := by
  obtain ⟨cache₁, hget, hc₁⟩ := GetStateFor_spec hP hT p cache hmono hc
  by_cases hdef : c.stateFor p = THRESHOLD_DEFINED
  · -- `DEFINED` has held since genesis, as nothing leads back to it
    refine ⟨0, cache₁, by simp only [GetStateSinceHeightFor, hget, hdef, if_true, Nat.cast_zero],
      hc₁, Nat.zero_le _, Nat.dvd_zero _, fun h _ hh => ?_, fun h0 => absurd h0 (Nat.lt_irrefl 0)⟩
    rw [hdef]
    apply stateFor_parentAt_of_defined hP hp (p.length - h) h (by omega)
    rw [Nat.add_sub_cancel' hh, parentAt_length, hdef]
  · cases hq : c.periodStart p with
    | nil => exact (hdef (by rw [stateFor, hq, stateRec_nil])).elim
    | cons b rest =>
      -- the loop starts at the last block of the period before, `p.length / Period` periods up
      have hstart := periodStart_of_chainHeights hP hp
      have hlen : rest.length + 1 = c.Period.toNat * (p.length / c.Period.toNat) := by
        rw [← List.length_cons, ← hq, hstart, length_parentAt (Nat.mul_div_le _ _)]
      have hfuel := Nat.le_mul_of_pos_left (p.length / c.Period.toNat) (by omega : 0 < c.Period.toNat)
      obtain ⟨r, cache', hloop, hc', hr⟩ := sinceLoop_spec hP hp hT hmono hdef (rest.length + 1)
        (p.length / c.Period.toNat) b rest cache₁ (by rw [← hstart, hq]) (Nat.mul_div_le _ _)
        (by omega) hc₁
        (fun h hlo hhi => by
          rw [stateFor_parentAt_of_mem_period hP hp hhi hlo
            (Nat.lt_of_le_of_lt hhi (Nat.lt_mul_div_succ _ (by omega))), stateFor, hstart])
      refine ⟨r, cache', ?_, hc', hr⟩
      simp only [GetStateSinceHeightFor, hget, hdef, if_false, hq]
      exact hloop

end Chain

/-! ## The cached walk computes the recursive state -/

/-- **`GetStateFor` computes the recursive definition.**  For a positive period and a deployment
that times out no earlier than it starts, on chains whose median time past does not decrease:
from any cache that holds only recursive states, `GetStateFor` answers the recursive state and
leaves such a cache; every sequence of calls from the empty cache, on any forks, answers the
recursive states; along a chain the state is constant within a period and moves to a successor
at the first block of each period; and `GetStateSinceHeightFor` answers the first height of the
earliest period of the current run. -/
theorem GetStateFor_refines_stateFor (hP : 0 < c.Period) (hT : c.BeginTime ≤ c.EndTime) :
    (∀ (p : BlockPtr) (cache : ThresholdConditionCache), MedianTimeMonotone p →
      Sound c.stateRec cache →
      ∃ cache', c.GetStateFor p cache = some (c.stateFor p, cache') ∧
        Sound c.stateRec cache') ∧
    (∀ ps : List BlockPtr, (∀ p ∈ ps, MedianTimeMonotone p) →
      ∃ cache', c.getStatesFor ps Cache.empty = some (ps.map c.stateFor, cache')) ∧
    (∀ (p : BlockPtr) (h : Nat), ChainHeights p → h < p.length →
      if c.Period.toNat ∣ h + 1 then
        Successor (c.stateFor (parentAt p h)) (c.stateFor (parentAt p (h + 1)))
      else c.stateFor (parentAt p (h + 1)) = c.stateFor (parentAt p h)) ∧
    (∀ (p : BlockPtr) (cache : ThresholdConditionCache), ChainHeights p →
      MedianTimeMonotone p → Sound c.stateRec cache →
      ∃ (r : Nat) (cache' : ThresholdConditionCache),
        c.GetStateSinceHeightFor p cache = some ((r : Int), cache') ∧
          Sound c.stateRec cache' ∧ c.SinceHeight p r) := by
  refine ⟨fun p cache hmono hc => GetStateFor_spec hP hT p cache hmono hc,
    fun ps hmono => ?_, fun p h hp hh => ?_,
    fun p cache hp hmono hc => GetStateSinceHeightFor_spec hP hp hT hmono cache hc⟩
  · obtain ⟨cache', hrun, -⟩ := getStatesFor_spec hP hT ps Cache.empty hmono (sound_empty _)
    exact ⟨cache', hrun⟩
  · -- the first block of a period takes one turn of the `switch`, which is a successor
    have hstep := stateFor_parentAt_succ hP hp (h := h) hh
    split_ifs with hdvd
    · rw [hstep, if_pos hdvd]
      exact c.nextState_successor _ _
    · rw [hstep, if_neg hdvd]

end AbstractThresholdConditionChecker

/-- A deployment of period `2` and threshold `1` from time `10` to `100`, signalled by every
block. -/
def sampleChecker : AbstractThresholdConditionChecker := ⟨fun _ => true, 2, 1, 10, 100⟩

/-- Four blocks at times `5`, `10`, `20` and `30`. -/
def sampleChain : BlockPtr :=
  [⟨Uint256.replicate 3, 3, 0, 0, 30⟩, ⟨Uint256.replicate 2, 2, 0, 0, 20⟩,
    ⟨Uint256.replicate 1, 1, 0, 0, 10⟩, ⟨Uint256.zero, 0, 0, 0, 5⟩]

theorem GetStateFor_refines_stateFor_sample :
    (∃ cache', sampleChecker.GetStateFor sampleChain Cache.empty =
        some (sampleChecker.stateFor sampleChain, cache') ∧ Sound sampleChecker.stateRec cache') ∧
    (∃ cache', sampleChecker.getStatesFor [sampleChain, sampleChain.tail] Cache.empty =
        some ([sampleChain, sampleChain.tail].map sampleChecker.stateFor, cache')) ∧
    (if sampleChecker.Period.toNat ∣ 1 + 1 then
        Successor (sampleChecker.stateFor (parentAt sampleChain 1))
          (sampleChecker.stateFor (parentAt sampleChain (1 + 1)))
      else sampleChecker.stateFor (parentAt sampleChain (1 + 1)) =
        sampleChecker.stateFor (parentAt sampleChain 1)) ∧
    (∃ (r : Nat) (cache' : ThresholdConditionCache),
      sampleChecker.GetStateSinceHeightFor sampleChain Cache.empty = some ((r : Int), cache') ∧
        Sound sampleChecker.stateRec cache' ∧ sampleChecker.SinceHeight sampleChain r) :=
  have h := sampleChecker.GetStateFor_refines_stateFor (by decide) (by decide)
  ⟨h.1 _ _ (by decide) (sound_empty _), h.2.1 _ (by decide), h.2.2.1 _ 1 (by decide) (by decide),
    h.2.2.2 _ _ (by decide) (by decide) (sound_empty _)⟩

/-- A deployment of period `1` that times out, at `500`, before it starts, at `1000`. -/
def timeoutBeforeStart : AbstractThresholdConditionChecker := ⟨fun _ => false, 1, 1, 1000, 500⟩

/-- A deployment of period `1` from time `1000` to `5000` that no block signals. -/
def startAt1000 : AbstractThresholdConditionChecker := ⟨fun _ => false, 1, 1, 1000, 5000⟩

/-- Three blocks whose times go back: the median time past falls from `2000` to `100`. -/
def timeGoesBack : BlockPtr :=
  [⟨Uint256.replicate 2, 2, 0, 0, 100⟩, ⟨Uint256.replicate 1, 1, 0, 0, 100⟩,
    ⟨Uint256.zero, 0, 0, 0, 2000⟩]

/-- The start-time shortcut answers `THRESHOLD_DEFINED` where the recursion does not: for a
genesis block at time `700` of a deployment that has timed out before it starts, and for a chain
whose median time past has fallen back below the start after the deployment started. -/
theorem GetStateFor_start_shortcut_diverges :
    (timeoutBeforeStart.GetStateFor [⟨Uint256.zero, 0, 0, 0, 700⟩] Cache.empty).map Prod.fst =
        some THRESHOLD_DEFINED ∧
      timeoutBeforeStart.stateFor [⟨Uint256.zero, 0, 0, 0, 700⟩] = THRESHOLD_FAILED ∧
    (startAt1000.GetStateFor timeGoesBack Cache.empty).map Prod.fst = some THRESHOLD_DEFINED ∧
      startAt1000.stateFor timeGoesBack = THRESHOLD_STARTED ∧
      ChainHeights timeGoesBack ∧ ¬MedianTimeMonotone timeGoesBack := by
  refine ⟨by decide, by decide, by decide, by decide, by decide, by decide⟩

end Unitus
