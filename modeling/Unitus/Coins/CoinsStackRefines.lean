import Unitus.Coins.CoinsViewCacheCorrect
import Unitus.Lib.Snapshots
import Unitus.Lib.Simulation

/-!
# Coins — a stack of caches refines nested snapshots

A stack of caches over the database is for keeping nested versions of the set of unspent coins:
the top cache's view is the newest version, each cache below it an older one, and the database
the committed one (`Snapshots`).  `utxos` reads these versions off the stack, and
`onLevels` says what each operation does to them:

* `ModifyCoins` and `ModifyNewCoins` write the top version;
* a `Flush` commits its level into the one below;
* a push begins a level, a pop closes it, and a discard aborts it;
* lookups and `Uncache` change nothing.

**Refinement** (`CoinsStack_refines`).  Take a run of operations the caller may make
(`Allowed`):

* each one on a cache the stack has;
* the edits of `ModifyCoins` respecting `CCoins::operator==`;
* `ModifyNewCoins` of a non-coinbase only for a txid with no unspent coins, which is what BIP 30
  gives it.

From any stack whose flags are right, the database alone among them, such a run never throws,
neither the `FRESH flag misapplied` error of `BatchWrite` nor the error of `ModifyNewCoins`, and
every level shows the version the snapshots give it.  The invariant behind this is `FlagsInv`:
the `DIRTY` and `FRESH` flags of every cache are right over the view below it.  Each operation
keeps it and does to the levels what `onLevels` says (`StepKeeps`, one `keeps_*` lemma per
operation, gathered in `step_keeps`); `Simulation.runM_simulates` carries this along the run.

**Memory accounting** (`CoinsStack_usage_exact`).  Each cache's `cachedCoinsUsage` is the sum of
the usage of its entries along every such run whose `ModifyNewCoins` calls, coinbase or not, are
for txids without unspent coins.  This holds for any usage function that gives coins without
outputs a usage of `0`.  For a coinbase whose txid has coins in the top cache, the exception
`ModifyNewCoins` makes for the two historical BIP 30 violations, the counter keeps the old coins'
usage (`ModifyNewCoins_coinbase_overcounts`).

**`HaveCoins`** tests `vout.empty()` where the view is defined by `IsPruned()`.  Along every run
from a database of cleaned-up coins the two agree (`HaveCoins_after_run`).
-/

namespace Unitus

open CCoinsCacheEntry (DIRTY FRESH)

namespace CoinsStack

variable (usage : CCoins → Nat)

/-! ### The levels of a stack -/

section Levels

variable {db db' : CCoinsViewDB}

theorem utxos_eq_cons (db : CCoinsViewDB) (caches : List CCoinsViewCache) :
    utxos db caches = utxo db caches :: (utxos db caches).tail := by
  cases caches <;> rfl

theorem length_utxos (db : CCoinsViewDB) :
    ∀ caches : List CCoinsViewCache, (utxos db caches).length = caches.length + 1
  | [] => rfl
  | _ :: base => by rw [utxos, List.length_cons, length_utxos db base, List.length_cons]

/-- A cache with no entries lets the view below show through. -/
theorem utxo_cons_of_empty {cache : CCoinsViewCache} (h : cache.cacheCoins = ∅)
    (base : List CCoinsViewCache) : utxo db (cache :: base) = utxo db base := by
  funext k
  rw [utxo_cons, h, AList.lookup_empty, shows_none]

/-- Caches above a part of the stack that shows the same see the same. -/
theorem utxo_append_congr {X X' : List CCoinsViewCache} (h : utxo db' X' = utxo db X) :
    ∀ pre : List CCoinsViewCache, utxo db' (pre ++ X') = utxo db (pre ++ X)
  | [] => h
  | cache :: pre => by
    funext k
    rw [List.cons_append, List.cons_append, utxo_cons, utxo_cons, utxo_append_congr h pre]

theorem utxos_append_congr {X X' : List CCoinsViewCache} (h : utxos db' X' = utxos db X) :
    ∀ pre : List CCoinsViewCache, utxos db' (pre ++ X') = utxos db (pre ++ X)
  | [] => h
  | cache :: pre => by
    have hhead : utxo db' X' = utxo db X := by
      have := congrArg List.head? h
      rwa [utxos_eq_cons db' X', utxos_eq_cons db X, List.head?_cons, List.head?_cons,
        Option.some_inj] at this
    have htop := utxo_append_congr hhead (cache :: pre)
    rw [List.cons_append, List.cons_append] at htop
    rw [List.cons_append, List.cons_append, utxos, utxos, utxos_append_congr h pre, htop]

/-- Committing the top level of a part of the stack commits its level in the whole stack. -/
theorem utxos_append_commit {X X' : List CCoinsViewCache}
    (h : utxos db' X' = Snapshots.commit 0 (utxos db X)) (hhead : utxo db' X' = utxo db X) :
    ∀ pre : List CCoinsViewCache,
      utxos db' (pre ++ X') = Snapshots.commit pre.length (utxos db (pre ++ X))
  | [] => h
  | cache :: pre => by
    have htop := utxo_append_congr hhead (cache :: pre)
    rw [List.cons_append, List.cons_append] at htop
    rw [List.cons_append, List.cons_append, utxos, utxos, utxos_append_commit h hhead pre, htop,
      List.length_cons, Snapshots.commit_succ]

/-- The flags of caches above a part of the stack stay right when that part shows the same. -/
theorem FlagsInv_append_congr {X X' : List CCoinsViewCache} (h : utxo db' X' = utxo db X)
    (hX' : FlagsInv db' X') :
    ∀ pre : List CCoinsViewCache, FlagsInv db (pre ++ X) → FlagsInv db' (pre ++ X')
  | [], _ => hX'
  | _ :: pre, ⟨hF, hI⟩ =>
    ⟨hF.congr (utxo_append_congr h pre).symm, FlagsInv_append_congr h hX' pre hI⟩

theorem FlagsInv_append_right {X : List CCoinsViewCache} :
    ∀ pre : List CCoinsViewCache, FlagsInv db (pre ++ X) → FlagsInv db X
  | [], h => h
  | _ :: pre, ⟨_, h⟩ => FlagsInv_append_right pre h

theorem Tidy_append {pre X X' : List CCoinsViewCache} (ht : Tidy db (pre ++ X))
    (hX : Tidy db X → Tidy db' X') : Tidy db' (pre ++ X') := by
  have hX' := hX ⟨ht.records, fun c hc => ht.entries c (List.mem_append_right pre hc)⟩
  refine ⟨hX'.records, fun c hc => ?_⟩
  rcases List.mem_append.mp hc with hc | hc
  · exact ht.entries c (List.mem_append_left X hc)
  · exact hX'.entries c hc

theorem UsageExact_append {pre X X' : List CCoinsViewCache} (hu : UsageExact usage (pre ++ X))
    (hX : UsageExact usage X → UsageExact usage X') : UsageExact usage (pre ++ X') := by
  have hX' := hX fun c hc => hu c (List.mem_append_right pre hc)
  intro c hc
  rcases List.mem_append.mp hc with hc | hc
  · exact hu c (List.mem_append_left X hc)
  · exact hX' c hc

end Levels

/-! ### What the caller may do, and what it does to the levels -/

/-- What an operation does to the unspent coins of the levels of the stack. -/
def onLevels : CoinsOp → List (Uint256 → Option CCoins) → List (Uint256 → Option CCoins)
  | .ModifyCoins txid edit => Snapshots.write txid fun v => (edit (v.getD default)).Cleanup.unspent
  | .ModifyNewCoins txid _ edit => Snapshots.write txid fun _ => (edit default).Cleanup.unspent
  | .FetchCoins _ _ => id
  | .Uncache _ _ => id
  | .Flush i => Snapshots.commit i
  | .push => Snapshots.begin
  | .pop => Snapshots.close
  | .discard => Snapshots.abort

/-- What the caller may do, given the levels (the database's last): make an operation on a cache
the stack has; edit coins through `ModifyCoins` only in a way `operator==` cannot tell apart;
and call `ModifyNewCoins` for a non-coinbase only where the top level has no unspent coins. -/
def Allowed : CoinsOp → List (Uint256 → Option CCoins) → Prop
  | .ModifyCoins _ edit, levels =>
    2 ≤ levels.length ∧ ∀ a b, a.beq b = true → (edit a).beq (edit b) = true
  | .ModifyNewCoins txid coinbase _, levels =>
    2 ≤ levels.length ∧ (coinbase = false → ∀ top ∈ levels.head?, top txid = none)
  | .Flush i, levels => i + 1 < levels.length
  | .pop, levels => 2 ≤ levels.length
  | .discard, levels => 2 ≤ levels.length
  | _, _ => True

/-- `ModifyNewCoins` only where the top level has no unspent coins, coinbase or not. -/
def NewCoinsNew : CoinsOp → List (Uint256 → Option CCoins) → Prop
  | .ModifyNewCoins txid _ _, levels => ∀ top ∈ levels.head?, top txid = none
  | _, _ => True

/-! ### The operations one by one -/

section Steps

variable {db : CCoinsViewDB}

/-- A cache with nothing in it. -/
theorem FlagsRight_init (V : Uint256 → Option CCoins) : FlagsRight CCoinsViewCache.init V :=
  FlagsRight.of_empty rfl V

/-- An edit that respects `operator==` edits the coins of a level as it edits the version. -/
theorem unspent_edit {edit : CCoins → CCoins}
    (hedit : ∀ a b, a.beq b = true → (edit a).beq (edit b) = true) (o : Option CCoins) :
    (edit (o.getD default)).Cleanup.unspent =
      (edit ((o.bind CCoins.unspent).getD default)).Cleanup.unspent := by
  have hsame : (o.getD default).beq ((o.bind CCoins.unspent).getD default) = true := by
    rw [CCoins.beq_eq_true_iff, CCoins.unspent_getD, CCoins.unspent_getD,
      CCoins.unspent_bind_unspent]
  rw [CCoins.unspent_Cleanup, CCoins.unspent_Cleanup,
    (CCoins.beq_eq_true_iff _ _).mp (hedit _ _ hsame)]

/-- The top cache after its entry for `txid` is released with the coins `edit` makes of `coins`:
the top level shows them at `txid`, nothing else changes. -/
theorem utxo_release {cache : CCoinsViewCache} {base : List CCoinsViewCache} {txid : Uint256}
    {entry : CCoinsCacheEntry} {u : Nat} {edit : CCoins → CCoins}
    (hfresh : entry.isFresh = true → utxo db base txid = none) :
    utxo db (release usage { cache with cacheCoins := cache.cacheCoins.insert txid entry }
        ⟨txid, entry, u⟩ edit :: base) =
      Function.update (utxo db (cache :: base)) txid (edit entry.coins).Cleanup.unspent := by
  funext k
  rw [utxo_cons, shows_release usage hfresh, Function.update_apply, utxo_cons]

theorem step_ModifyCoins_eq (cache : CCoinsViewCache) (base : List CCoinsViewCache)
    (txid : Uint256) (edit : CCoins → CCoins) :
    step usage (.ModifyCoins txid edit) ⟨db, cache :: base⟩ =
      .ok ⟨db, release usage (ModifyCoins usage db cache base txid).2.1
        (ModifyCoins usage db cache base txid).1 edit :: (ModifyCoins usage db cache base txid).2.2⟩ :=
  rfl

/-- **`ModifyCoins`** on the top cache: the edited coins at `txid`, the rest of the stack as it
was but for lookups. -/
theorem step_ModifyCoins {cache : CCoinsViewCache} {base : List CCoinsViewCache}
    (hI : FlagsInv db (cache :: base)) (txid : Uint256) (edit : CCoins → CCoins) :
    ∃ cache' base', step usage (.ModifyCoins txid edit) ⟨db, cache :: base⟩ =
        .ok ⟨db, cache' :: base'⟩ ∧
      utxos db base' = utxos db base ∧ FlagsInv db (cache' :: base') ∧
      utxo db (cache' :: base') = Function.update (utxo db (cache :: base)) txid
        (edit ((lookupCoins db (cache :: base) txid).getD default)).Cleanup.unspent ∧
      (Tidy db (cache :: base) → Tidy db (cache' :: base')) ∧
      (UsageExact usage (cache :: base) → UsageExact usage (cache' :: base')) := by
  obtain ⟨hF, hIb⟩ := hI
  cases hlook : cache.cacheCoins.lookup txid with
  | some e =>
    -- the entry found is handed out, `DIRTY`, with the usage counted for it
    have he := hF txid e hlook
    rw [step_ModifyCoins_eq, ModifyCoins_of_lookup_eq_some usage db txid base hlook]
    dsimp only
    refine ⟨_, base, rfl, rfl, ⟨FlagsRight_release usage hF (by simp) (by simpa using he.fresh), hIb⟩, ?_,
      fun ht => ht.top (tidy_release usage), fun hu => ?_⟩
    · rw [utxo_release usage (by simpa using he.fresh), lookupCoins_cons, hlook]
      rfl
    · obtain ⟨hexact, hub⟩ := (usageExact_cons usage).mp hu
      refine (usageExact_cons usage).mpr
        ⟨(cachedCoinsUsage_release usage 0 ?_).trans (Nat.add_zero _), hub⟩
      have hsum := AList.sumOf_erase_add (fun _ entry => usage entry.coins) hlook
      rw [hexact, usageSum]
      simp only [usageSum] at hsum ⊢
      omega
  | none =>
    -- a new entry, filled from the base, whose lookup changes no level
    obtain ⟨flags, hmod, hdirty, hfresh⟩ := ModifyCoins_of_lookup_eq_none usage db txid base hlook
    have hbase := utxo_GetCoins usage db txid base
    rw [step_ModifyCoins_eq, hmod]
    dsimp only
    refine ⟨_, _, rfl, utxos_GetCoins usage db txid base,
      ⟨?_, FlagsInv_GetCoins usage db txid base hIb⟩, ?_,
      fun ht => (Tidy_GetCoins usage db txid ht.tail).cons
        (tidy_release usage (ht.entries cache List.mem_cons_self)), fun hu => ?_⟩
    · rw [hbase]
      exact FlagsRight_release usage hF hdirty hfresh
    · rw [utxo_release usage (hbase ▸ hfresh), lookupCoins_cons, hlook, Option.map_none,
        Option.none_or]
      funext k
      rw [Function.update_apply, Function.update_apply, utxo_cons, utxo_cons, hbase]
    · obtain ⟨hexact, hub⟩ := (usageExact_cons usage).mp hu
      refine (usageExact_cons usage).mpr
        ⟨(cachedCoinsUsage_release usage 0 ?_).trans (Nat.add_zero _),
          UsageExact_GetCoins usage db txid hub⟩
      rw [hexact, usageSum, usageSum, AList.sumOf_erase_of_lookup_eq_none _ hlook]
      rfl

theorem step_ModifyNewCoins_eq (cache : CCoinsViewCache) (base : List CCoinsViewCache)
    (txid : Uint256) (coinbase : Bool) (edit : CCoins → CCoins) :
    step usage (.ModifyNewCoins txid coinbase edit) ⟨db, cache :: base⟩ =
      (cache.ModifyNewCoins txid coinbase).bind
        fun r => .ok ⟨db, release usage r.2 r.1 edit :: base⟩ :=
  rfl

/-- **`ModifyNewCoins`** on the top cache, for a txid the top level has no unspent coins for if it
is not a coinbase: the coins `edit` makes of `CCoins()` at `txid`.  The counter is then off by
what it was off by before, the entry for `txid` left out. -/
theorem step_ModifyNewCoins {cache : CCoinsViewCache} {base : List CCoinsViewCache}
    (hI : FlagsInv db (cache :: base)) (txid : Uint256) (coinbase : Bool)
    (edit : CCoins → CCoins) (hnew : coinbase = false → utxo db (cache :: base) txid = none) :
    ∃ cache', step usage (.ModifyNewCoins txid coinbase edit) ⟨db, cache :: base⟩ =
        .ok ⟨db, cache' :: base⟩ ∧
      FlagsInv db (cache' :: base) ∧
      utxo db (cache' :: base) =
        Function.update (utxo db (cache :: base)) txid (edit default).Cleanup.unspent ∧
      (Tidy db (cache :: base) → Tidy db (cache' :: base)) ∧
      ∀ d, cache.cachedCoinsUsage = usageSum usage (cache.cacheCoins.erase txid) + d →
        cache'.cachedCoinsUsage = usageSum usage cache'.cacheCoins + d := by
  obtain ⟨hF, hIb⟩ := hI
  obtain ⟨flags, hmod, hdirty, hfresh⟩ := ModifyNewCoins_spec txid hF
    fun (hcb : coinbase = false) => by rw [← utxo_cons]; exact hnew hcb
  rw [step_ModifyNewCoins_eq, hmod]
  exact ⟨_, rfl, ⟨FlagsRight_release usage hF hdirty hfresh, hIb⟩, utxo_release usage hfresh,
    fun ht => ht.top (tidy_release usage),
    fun d hd => cachedCoinsUsage_release usage d (by simpa using hd)⟩

/-- The usage of a cache without its entry for `txid`, where it shows no unspent coins there: the
entry, if any, is pruned and cleaned up, so it has no outputs and counts for nothing. -/
theorem usageSum_erase_of_none (hu0 : ∀ c : CCoins, c.vout = [] → usage c = 0)
    {cache : CCoinsViewCache} {v : Option CCoins} {txid : Uint256}
    (ht : ∀ k e, cache.cacheCoins.lookup k = some e → e.coins.Cleanup = e.coins)
    (hnone : shows (cache.cacheCoins.lookup txid) v = none) :
    usageSum usage (cache.cacheCoins.erase txid) = usageSum usage cache.cacheCoins := by
  cases hlook : cache.cacheCoins.lookup txid with
  | none => exact AList.sumOf_erase_of_lookup_eq_none _ hlook
  | some e =>
    rw [hlook, shows_some, CCoins.unspent_eq_none] at hnone
    have h0 : usage e.coins = 0 := hu0 _ (CCoins.vout_eq_nil hnone (ht txid e hlook))
    have hsum := AList.sumOf_erase_add (fun _ entry => usage entry.coins) hlook
    rw [h0, Nat.add_zero] at hsum
    exact hsum

end Steps

/-! ### Every operation against the levels -/

section Keeps

variable {db : CCoinsViewDB}

/-- What a step from `s` to `s'` by `o` keeps: the flags right, the levels as `onLevels` says,
the coins tidy; and each counter exact, where `o` makes no `ModifyNewCoins` over unspent coins
and coins without outputs have no usage. -/
structure StepKeeps (o : CoinsOp) (s s' : CoinsStack) : Prop where
  flags : FlagsInv s'.db s'.caches
  levels : utxos s'.db s'.caches = onLevels o (utxos s.db s.caches)
  tidy : Tidy s.db s.caches → Tidy s'.db s'.caches
  exact : NewCoinsNew o (utxos s.db s.caches) → (∀ c : CCoins, c.vout = [] → usage c = 0) →
    Tidy s.db s.caches → UsageExact usage s.caches → UsageExact usage s'.caches

theorem keeps_ModifyCoins {cache : CCoinsViewCache} {base : List CCoinsViewCache}
    (hI : FlagsInv db (cache :: base)) (txid : Uint256) {edit : CCoins → CCoins}
    (hedit : ∀ a b, a.beq b = true → (edit a).beq (edit b) = true) :
    ∃ s', step usage (.ModifyCoins txid edit) ⟨db, cache :: base⟩ = .ok s' ∧
      StepKeeps usage (.ModifyCoins txid edit) ⟨db, cache :: base⟩ s' := by
  obtain ⟨cache', base', hstep, hbase, hI', hutxo, ht, hu⟩ := step_ModifyCoins usage hI txid edit
  refine ⟨_, hstep, ⟨hI', ?_, ht, fun _ _ _ => hu⟩⟩
  -- the edit sees the coins the cache has, pruned or not, where the level sees only unspent ones
  have hv := unspent_edit hedit (lookupCoins db (cache :: base) txid)
  simp only [utxos, onLevels, Snapshots.write]
  rw [hbase, hutxo, hv]
  rfl

theorem keeps_ModifyNewCoins {cache : CCoinsViewCache} {base : List CCoinsViewCache}
    (hI : FlagsInv db (cache :: base)) (txid : Uint256) (coinbase : Bool) (edit : CCoins → CCoins)
    (hnew : coinbase = false → utxo db (cache :: base) txid = none) :
    ∃ s', step usage (.ModifyNewCoins txid coinbase edit) ⟨db, cache :: base⟩ = .ok s' ∧
      StepKeeps usage (.ModifyNewCoins txid coinbase edit) ⟨db, cache :: base⟩ s' := by
  obtain ⟨cache', hstep, hI', hutxo, ht, hu⟩ :=
    step_ModifyNewCoins usage hI txid coinbase edit hnew
  refine ⟨_, hstep, ⟨hI', ?_, ht, fun hnn hu0 htidy hexact => ?_⟩⟩
  · simp only [utxos, onLevels, Snapshots.write]
    rw [hutxo]
  · -- the entry replaced showed no unspent coins, so the counter loses nothing with it
    have hold : utxo db (cache :: base) txid = none := hnn _ rfl
    rw [utxo_cons] at hold
    have hexact' := (usageExact_cons usage).mp hexact
    have herase := usageSum_erase_of_none usage hu0 (htidy.entries cache List.mem_cons_self) hold
    refine (usageExact_cons usage).mpr ⟨(hu 0 ?_).trans (Nat.add_zero _), hexact'.2⟩
    rw [Nat.add_zero, herase, hexact'.1]

theorem keeps_FetchCoins (caches : List CCoinsViewCache) (hI : FlagsInv db caches) (i : Nat)
    (txid : Uint256) :
    ∃ s', step usage (.FetchCoins i txid) ⟨db, caches⟩ = .ok s' ∧
      StepKeeps usage (.FetchCoins i txid) ⟨db, caches⟩ s' := by
  -- the lookup walks the caches from `i` down; the caches above it see what they saw
  have hsplit := List.take_append_drop i caches
  rw [← hsplit] at hI
  refine ⟨_, rfl, ⟨?_, ?_, fun ht => ?_, fun _ _ _ hu => ?_⟩⟩
  · exact FlagsInv_append_congr (utxo_GetCoins usage db txid _)
      (FlagsInv_GetCoins usage db txid _ (FlagsInv_append_right _ hI)) _ hI
  · dsimp only
    rw [utxos_append_congr (utxos_GetCoins usage db txid _), hsplit]
    rfl
  · rw [← hsplit] at ht
    exact Tidy_append ht (Tidy_GetCoins usage db txid)
  · rw [← hsplit] at hu
    exact UsageExact_append usage hu (UsageExact_GetCoins usage db txid)

theorem step_Uncache_eq (caches : List CCoinsViewCache) (i : Nat) (txid : Uint256) :
    step usage (.Uncache i txid) ⟨db, caches⟩ =
      match caches.drop i with
      | cache :: base => .ok ⟨db, caches.take i ++ cache.Uncache usage txid :: base⟩
      | [] => .ok ⟨db, caches⟩ :=
  rfl

theorem keeps_Uncache (caches : List CCoinsViewCache) (hI : FlagsInv db caches) (i : Nat)
    (txid : Uint256) :
    ∃ s', step usage (.Uncache i txid) ⟨db, caches⟩ = .ok s' ∧
      StepKeeps usage (.Uncache i txid) ⟨db, caches⟩ s' := by
  have hsplit := List.take_append_drop i caches
  rw [step_Uncache_eq]
  cases hdrop : caches.drop i with
  | nil => exact ⟨_, rfl, ⟨hI, rfl, id, fun _ _ _ => id⟩⟩
  | cons cache base =>
    rw [hdrop] at hsplit
    rw [← hsplit] at hI
    obtain ⟨hF, hIb⟩ := FlagsInv_append_right _ hI
    -- `Uncache` drops only an entry that shows what is below it
    have hsame : utxo db (cache.Uncache usage txid :: base) = utxo db (cache :: base) := by
      funext k
      rw [utxo_cons, utxo_cons, shows_Uncache usage hF]
    have hsames : utxos db (cache.Uncache usage txid :: base) = utxos db (cache :: base) := by
      rw [utxos, utxos, hsame]
    refine ⟨_, rfl, ⟨FlagsInv_append_congr hsame ⟨FlagsRight_Uncache usage hF, hIb⟩ _ hI, ?_,
      fun ht => ?_, fun _ _ _ hu => ?_⟩⟩
    · dsimp only
      rw [utxos_append_congr hsames, hsplit]
      rfl
    · rw [← hsplit] at ht
      exact Tidy_append ht fun htX => htX.top (tidy_Uncache usage)
    · rw [← hsplit] at hu
      refine UsageExact_append usage hu fun huX => ?_
      have huX' := (usageExact_cons usage).mp huX
      exact (usageExact_cons usage).mpr ⟨cachedCoinsUsage_Uncache usage huX'.1, huX'.2⟩

theorem step_Flush_eq (caches : List CCoinsViewCache) (i : Nat) :
    step usage (.Flush i) ⟨db, caches⟩ =
      match caches.drop i with
      | cache :: base =>
        (Flush usage db cache base).bind fun r => .ok ⟨r.1, caches.take i ++ r.2.1 :: r.2.2⟩
      | [] => .error "no such cache" :=
  rfl

/-- The cache a flush leaves, with nothing in it. -/
theorem flushed_keeps {cache : CCoinsViewCache} {base : List CCoinsViewCache}
    {db' : CCoinsViewDB} {base' : List CCoinsViewCache}
    (hlevels : utxos db' base' = utxo db (cache :: base) :: (utxos db base).tail) :
    utxo db' ({ cache with cacheCoins := ∅, cachedCoinsUsage := 0 } :: base') =
        utxo db (cache :: base) ∧
      utxos db' ({ cache with cacheCoins := ∅, cachedCoinsUsage := 0 } :: base') =
        Snapshots.commit 0 (utxos db (cache :: base)) := by
  have hbase' : utxo db' base' = utxo db (cache :: base) :=
    (List.cons.inj ((utxos_eq_cons db' base').symm.trans hlevels)).1
  have hhead : utxo db' ({ cache with cacheCoins := ∅, cachedCoinsUsage := 0 } :: base') =
      utxo db (cache :: base) := by
    rw [utxo_cons_of_empty rfl, hbase']
  refine ⟨hhead, ?_⟩
  conv_rhs => rw [utxos, utxos_eq_cons db base, Snapshots.commit_zero]
  rw [utxos, hhead, hlevels]

theorem keeps_Flush (caches : List CCoinsViewCache) (hI : FlagsInv db caches) {i : Nat}
    (hi : i < caches.length) :
    ∃ s', step usage (.Flush i) ⟨db, caches⟩ = .ok s' ∧
      StepKeeps usage (.Flush i) ⟨db, caches⟩ s' := by
  have hsplit := List.take_append_drop i caches
  have hlen : (caches.take i).length = i := List.length_take_of_le hi.le
  rw [step_Flush_eq]
  cases hdrop : caches.drop i with
  | nil =>
    have := congrArg List.length hdrop
    rw [List.length_drop, List.length_nil] at this
    omega
  | cons cache base =>
    rw [hdrop] at hsplit
    rw [← hsplit] at hI
    obtain ⟨hF, hIb⟩ := FlagsInv_append_right _ hI
    obtain ⟨db', base', hflush, hI', hlevels, ht', hu'⟩ := Flush_spec usage hF hIb
    obtain ⟨hhead, hcommit⟩ := flushed_keeps hlevels
    dsimp only
    rw [hflush]
    refine ⟨_, rfl, ⟨FlagsInv_append_congr hhead ⟨FlagsRight.of_empty rfl _, hI'⟩ _ hI, ?_,
      fun ht => ?_, fun _ _ _ hu => ?_⟩⟩
    · dsimp only
      rw [utxos_append_commit hcommit hhead, hlen, hsplit]
      rfl
    · rw [← hsplit] at ht
      exact Tidy_append ht fun htX => (ht' htX).cons fun k e h => by simp at h
    · rw [← hsplit] at hu
      refine UsageExact_append usage hu fun huX => ?_
      exact (usageExact_cons usage).mpr ⟨rfl, hu' ((usageExact_cons usage).mp huX).2⟩

theorem keeps_push (caches : List CCoinsViewCache) (hI : FlagsInv db caches) :
    ∃ s', step usage .push ⟨db, caches⟩ = .ok s' ∧ StepKeeps usage .push ⟨db, caches⟩ s' := by
  refine ⟨_, rfl, ⟨⟨FlagsRight_init _, hI⟩, ?_, fun ht => ht.cons fun k e h => ?_,
    fun _ _ _ hu => (usageExact_cons usage).mpr ⟨rfl, hu⟩⟩⟩
  · show utxos db (CCoinsViewCache.init :: caches) = Snapshots.begin (utxos db caches)
    rw [utxos, utxo_cons_of_empty rfl, utxos_eq_cons db caches]
    rfl
  · simp [CCoinsViewCache.init] at h

theorem step_pop_eq (cache : CCoinsViewCache) (base : List CCoinsViewCache) :
    step usage .pop ⟨db, cache :: base⟩ =
      (Flush usage db cache base).bind fun r => .ok ⟨r.1, r.2.2⟩ :=
  rfl

theorem keeps_pop {cache : CCoinsViewCache} {base : List CCoinsViewCache}
    (hI : FlagsInv db (cache :: base)) :
    ∃ s', step usage .pop ⟨db, cache :: base⟩ = .ok s' ∧
      StepKeeps usage .pop ⟨db, cache :: base⟩ s' := by
  obtain ⟨hF, hIb⟩ := hI
  obtain ⟨db', base', hflush, hI', hlevels, ht', hu'⟩ := Flush_spec usage hF hIb
  rw [step_pop_eq, hflush]
  refine ⟨⟨db', base'⟩, rfl, ⟨hI', ?_, ht', fun _ _ _ hu => hu' ((usageExact_cons usage).mp hu).2⟩⟩
  show utxos db' base' = Snapshots.close (utxos db (cache :: base))
  rw [hlevels]
  conv_rhs => rw [Snapshots.close, utxos, utxos_eq_cons db base, Snapshots.commit_zero,
    List.tail_cons]

theorem keeps_discard {cache : CCoinsViewCache} {base : List CCoinsViewCache}
    (hI : FlagsInv db (cache :: base)) :
    ∃ s', step usage .discard ⟨db, cache :: base⟩ = .ok s' ∧
      StepKeeps usage .discard ⟨db, cache :: base⟩ s' :=
  ⟨⟨db, base⟩, rfl, ⟨hI.2, rfl, Tidy.tail, fun _ _ _ hu => ((usageExact_cons usage).mp hu).2⟩⟩

/-- **Every operation the caller may make** does not throw and keeps what `StepKeeps` says. -/
theorem step_keeps (o : CoinsOp) (s : CoinsStack) (hI : FlagsInv s.db s.caches)
    (ho : Allowed o (utxos s.db s.caches)) :
    ∃ s', step usage o s = .ok s' ∧ StepKeeps usage o s s' := by
  obtain ⟨db, caches⟩ := s
  -- the operations on the top cache are allowed only where there is one
  have htop : 2 ≤ (utxos db caches).length → ∃ cache base, caches = cache :: base := by
    intro h
    rw [length_utxos] at h
    cases caches with
    | nil => simp at h
    | cons cache base => exact ⟨cache, base, rfl⟩
  cases o with
  | ModifyCoins txid edit =>
    obtain ⟨cache, base, rfl⟩ := htop ho.1
    exact keeps_ModifyCoins usage hI txid ho.2
  | ModifyNewCoins txid coinbase edit =>
    obtain ⟨cache, base, rfl⟩ := htop ho.1
    exact keeps_ModifyNewCoins usage hI txid coinbase edit fun hcb => ho.2 hcb _ rfl
  | FetchCoins i txid => exact keeps_FetchCoins usage caches hI i txid
  | Uncache i txid => exact keeps_Uncache usage caches hI i txid
  | Flush i =>
    have hi : i + 1 < caches.length + 1 := length_utxos db caches ▸ ho
    exact keeps_Flush usage caches hI (by omega)
  | push => exact keeps_push usage caches hI
  | pop =>
    obtain ⟨cache, base, rfl⟩ := htop ho
    exact keeps_pop usage hI
  | discard =>
    obtain ⟨cache, base, rfl⟩ := htop ho
    exact keeps_discard usage hI

end Keeps

/-! ### Whole runs -/

section Runs

variable {db : CCoinsViewDB}

/-- `HaveCoins` tests `vout.empty()`; over tidy coins that is whether the view has unspent coins. -/
theorem HaveCoins_fst {caches : List CCoinsViewCache} (ht : Tidy db caches) (txid : Uint256) :
    (HaveCoins usage db caches txid).1 = (utxo db caches txid).isSome := by
  rcases hgc : GetCoins usage db caches txid with ⟨o, rest⟩
  have ho : o = lookupCoins db caches txid := by
    rw [← GetCoins_fst usage db txid caches, hgc]
  simp only [HaveCoins, hgc, utxo, ← ho]
  cases o with
  | none => rfl
  | some coins =>
    have htidy : coins.Cleanup = coins := ht.lookupCoins ho.symm
    rw [Option.bind_some]
    cases hp : coins.IsPruned
    · -- unspent coins have an output that is not spent, so `vout` is not empty
      have hv : coins.vout ≠ [] := fun h => by simp [CCoins.IsPruned, h] at hp
      simp [CCoins.unspent, hp, hv]
    · simp [CCoins.unspent, hp, CCoins.vout_eq_nil hp htidy]

/-- **A stack of caches refines nested snapshots.**  From a stack whose flags are right, a run of
operations the caller may make throws nowhere, keeps the flags right, and leaves on every level the
version the snapshots give it. -/
theorem CoinsStack_refines (s : CoinsStack) (hI : FlagsInv s.db s.caches) (ops : List CoinsOp)
    (hops : Simulation.Enabled onLevels Allowed ops (utxos s.db s.caches)) :
    ∃ s', Simulation.runM (step usage) ops s = .ok s' ∧ FlagsInv s'.db s'.caches ∧
      utxos s'.db s'.caches = Simulation.run onLevels ops (utxos s.db s.caches) :=
  Simulation.runM_simulates
    (fun o (s : CoinsStack) (hI : FlagsInv s.db s.caches) (ho : Allowed o (utxos s.db s.caches)) => by
      obtain ⟨s', hs, hk⟩ := step_keeps usage o s hI ho
      exact ⟨s', hs, hk.flags, hk.levels⟩)
    ops s hI hops

theorem CoinsStack_refines_newCoins :
    ∃ s', Simulation.runM (step fun c => c.vout.length)
        [.push, .ModifyNewCoins default false fun _ => ⟨false, [⟨50, []⟩], 1, 1⟩, .Flush 0, .pop]
        ⟨⟨∅, none⟩, []⟩ = .ok s' ∧ FlagsInv s'.db s'.caches ∧
      utxos s'.db s'.caches = Simulation.run onLevels
        [.push, .ModifyNewCoins default false fun _ => ⟨false, [⟨50, []⟩], 1, 1⟩, .Flush 0, .pop]
        (utxos ⟨∅, none⟩ []) :=
  CoinsStack_refines _ ⟨⟨∅, none⟩, []⟩ trivial _
    ⟨trivial, ⟨by decide, fun _ _ htop => by cases htop; rfl⟩,
      by show 0 + 1 < List.length _; decide, by show 2 ≤ List.length _; decide, trivial⟩

/-- **Memory accounting.**  Where coins without outputs have no usage, a run of operations the
caller may make whose `ModifyNewCoins` calls are all for txids without unspent coins keeps each
cache's counter the sum of the usage of its entries, from a tidy stack where it is. -/
theorem CoinsStack_usage_exact (hu0 : ∀ c : CCoins, c.vout = [] → usage c = 0) (s : CoinsStack)
    (hI : FlagsInv s.db s.caches) (ht : Tidy s.db s.caches) (hu : UsageExact usage s.caches)
    (ops : List CoinsOp)
    (hops : Simulation.Enabled onLevels (fun o levels => Allowed o levels ∧ NewCoinsNew o levels)
      ops (utxos s.db s.caches)) :
    ∃ s', Simulation.runM (step usage) ops s = .ok s' ∧ UsageExact usage s'.caches := by
  obtain ⟨s', hrun, ⟨-, -, hu'⟩, -⟩ := Simulation.runM_simulates
    (fun o (s : CoinsStack)
        (h : FlagsInv s.db s.caches ∧ Tidy s.db s.caches ∧ UsageExact usage s.caches)
        (ho : Allowed o (utxos s.db s.caches) ∧ NewCoinsNew o (utxos s.db s.caches)) => by
      obtain ⟨s', hs, hk⟩ := step_keeps usage o s h.1 ho.1
      exact ⟨s', hs, ⟨hk.flags, hk.tidy h.2.1, hk.exact ho.2 hu0 h.2.1 h.2.2⟩, hk.levels⟩)
    ops s ⟨hI, ht, hu⟩ hops
  exact ⟨s', hrun, hu'⟩

theorem CoinsStack_usage_exact_newCoins :
    ∃ s', Simulation.runM (step fun c => c.vout.length)
        [.push, .ModifyNewCoins default false fun _ => ⟨false, [⟨50, []⟩], 1, 1⟩, .Flush 0, .pop]
        ⟨⟨∅, none⟩, []⟩ = .ok s' ∧ UsageExact (fun c => c.vout.length) s'.caches :=
  CoinsStack_usage_exact _ (fun c h => by simp [h]) ⟨⟨∅, none⟩, []⟩ trivial
    ⟨fun _ _ h => by simp [CCoinsViewDB.GetCoins] at h, fun _ hc => nomatch hc⟩
    (fun _ hc => nomatch hc) _
    ⟨⟨trivial, trivial⟩, ⟨⟨by decide, fun _ _ htop => by cases htop; rfl⟩,
      fun _ htop => by cases htop; rfl⟩, ⟨by show 0 + 1 < List.length _; decide, trivial⟩,
      ⟨by show 2 ≤ List.length _; decide, trivial⟩, trivial⟩

/-- **`HaveCoins` along a run.**  From a tidy stack whose flags are right, after a run of
operations the caller may make, `HaveCoins` answers whether the top level of the snapshots has
unspent coins, though it tests `vout.empty()` and the levels `IsPruned()`. -/
theorem HaveCoins_after_run (s : CoinsStack) (hI : FlagsInv s.db s.caches)
    (ht : Tidy s.db s.caches) (ops : List CoinsOp)
    (hops : Simulation.Enabled onLevels Allowed ops (utxos s.db s.caches)) :
    ∃ s', Simulation.runM (step usage) ops s = .ok s' ∧ ∀ txid,
      (HaveCoins usage s'.db s'.caches txid).1 =
        ((Simulation.run onLevels ops (utxos s.db s.caches)).head?.bind fun top => top txid).isSome := by
  obtain ⟨s', hrun, ⟨-, ht'⟩, hlevels⟩ := Simulation.runM_simulates
    (fun o (s : CoinsStack) (h : FlagsInv s.db s.caches ∧ Tidy s.db s.caches)
        (ho : Allowed o (utxos s.db s.caches)) => by
      obtain ⟨s', hs, hk⟩ := step_keeps usage o s h.1 ho
      exact ⟨s', hs, ⟨hk.flags, hk.tidy h.2⟩, hk.levels⟩)
    ops s ⟨hI, ht⟩ hops
  refine ⟨s', hrun, fun txid => ?_⟩
  rw [← hlevels, utxos_eq_cons, List.head?_cons, Option.bind_some, HaveCoins_fst usage ht']

theorem HaveCoins_after_run_newCoins :
    ∃ s', Simulation.runM (step fun c => c.vout.length)
        [.push, .ModifyNewCoins default false fun _ => ⟨false, [⟨50, []⟩], 1, 1⟩, .Flush 0, .pop]
        ⟨⟨∅, none⟩, []⟩ = .ok s' ∧ ∀ txid,
      (HaveCoins (fun c => c.vout.length) s'.db s'.caches txid).1 =
        ((Simulation.run onLevels
          [.push, .ModifyNewCoins default false fun _ => ⟨false, [⟨50, []⟩], 1, 1⟩, .Flush 0, .pop]
          (utxos ⟨∅, none⟩ [])).head?.bind fun top => top txid).isSome :=
  HaveCoins_after_run _ ⟨⟨∅, none⟩, []⟩ trivial
    ⟨fun _ _ h => by simp [CCoinsViewDB.GetCoins] at h, fun _ hc => nomatch hc⟩ _
    ⟨trivial, ⟨by decide, fun _ _ htop => by cases htop; rfl⟩,
      by show 0 + 1 < List.length _; decide, by show 2 ≤ List.length _; decide, trivial⟩

/-- **`ModifyNewCoins` of a coinbase over a cached entry**, the exception made for the two
historical BIP 30 violations: the entry is replaced and its usage never taken off, so the top
cache's counter ends above the sum of its entries by the usage of the coins it held. -/
theorem ModifyNewCoins_coinbase_overcounts (db : CCoinsViewDB) (cache : CCoinsViewCache)
    (base : List CCoinsViewCache) (txid : Uint256) (edit : CCoins → CCoins) {e : CCoinsCacheEntry}
    (hexact : cache.cachedCoinsUsage = usageSum usage cache.cacheCoins)
    (he : cache.cacheCoins.lookup txid = some e) :
    ∃ cache', step usage (.ModifyNewCoins txid true edit) ⟨db, cache :: base⟩ =
        .ok ⟨db, cache' :: base⟩ ∧
      cache'.cachedCoinsUsage = usageSum usage cache'.cacheCoins + usage e.coins := by
  have hmod : cache.ModifyNewCoins txid true =
      .ok (⟨txid, ⟨default, e.flags ||| DIRTY⟩, 0⟩,
        { cache with cacheCoins := cache.cacheCoins.insert txid ⟨default, e.flags ||| DIRTY⟩ }) := by
    simp [CCoinsViewCache.ModifyNewCoins, he, CCoins.Clear]
  rw [step_ModifyNewCoins_eq, hmod]
  refine ⟨_, rfl, cachedCoinsUsage_release usage (usage e.coins) ?_⟩
  have hsum := AList.sumOf_erase_add (fun _ entry => usage entry.coins) he
  simp only [usageSum] at hexact hsum ⊢
  omega

theorem ModifyNewCoins_coinbase_overcounts_one :
    ∃ cache', step (fun c => c.vout.length) (.ModifyNewCoins default true id)
        ⟨⟨∅, none⟩, [⟨default, (∅ : CCoinsMap).insert default ⟨⟨true, [⟨50, []⟩], 1, 1⟩, 0⟩, 1⟩]⟩ =
        .ok ⟨⟨∅, none⟩, [cache']⟩ ∧
      cache'.cachedCoinsUsage = usageSum (fun c => c.vout.length) cache'.cacheCoins + 1 :=
  ModifyNewCoins_coinbase_overcounts _ ⟨∅, none⟩ _ [] default id (e := ⟨⟨true, [⟨50, []⟩], 1, 1⟩, 0⟩)
    rfl rfl

end Runs

end CoinsStack

end Unitus
