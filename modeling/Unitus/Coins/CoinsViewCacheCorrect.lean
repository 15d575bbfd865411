import Unitus.Coins.CoinsViewCache
import Unitus.Lib.AList

/-!
# Coins — what a stack of caches shows, and the flags that keep it right

The view made of a stack of caches over the database has, for a txid, the first cache's entry
or else the database's record (`lookupCoins`).  Its unspent coins (`utxo`), where pruned coins
count as none, are what `CCoins::operator==` compares (`CCoins.beq_eq_true_iff`).

The flags of a cache are right over the view below it (`FlagsRight`) when two things hold:

* every `FRESH` entry's txid has no unspent coins below;
* every entry that is not `DIRTY` shows the unspent coins that are below.

`FlagsInv` says this of every cache of a stack.  `Tidy` says every record and entry is cleaned
up, and `UsageExact` that each cache's `cachedCoinsUsage` is the sum of `usage` over its entries.

Each call is specified here once, by what it does to the entries, the view and the counter:

* `GetCoins` returns what the view shows and changes what no level shows (`GetCoins_fst`,
  `utxo_GetCoins`), keeping every invariant.
* The modifier's destructor (`lookup_destructor`, `cachedCoinsUsage_destructor`) and the
  entries `ModifyCoins` and `ModifyNewCoins` hand it.
* `Uncache`.
* One entry of each `BatchWrite` (`batchWriteEntry_spec`, `lookup_db_batchWriteEntry`), which a
  fold key by key (`AList.foldlM_keywise`) lifts to the whole batch (`BatchWrite_spec`,
  `lookup_db_BatchWrite`), and so `Flush` (`Flush_spec`).
-/

namespace Unitus

open CCoinsCacheEntry (DIRTY FRESH)

/-! ### Coins up to pruning -/

namespace CCoins

/-- The coins if some output is unspent, `none` for pruned ones. -/
def unspent (coins : CCoins) : Option CCoins := if coins.IsPruned then none else some coins

@[simp] theorem IsPruned_default : (default : CCoins).IsPruned = true := rfl

@[simp] theorem unspent_default : (default : CCoins).unspent = none := rfl

theorem unspent_eq_none {coins : CCoins} : coins.unspent = none ↔ coins.IsPruned = true := by
  unfold unspent
  split <;> simp_all

theorem unspent_bind_unspent (o : Option CCoins) : (o.bind unspent).bind unspent = o.bind unspent := by
  cases o with
  | none => rfl
  | some coins => by_cases h : coins.IsPruned <;> simp [unspent, h]

/-- The coins a caller is handed where a view has `o`: `CCoins()` where it has none. -/
theorem unspent_getD (o : Option CCoins) : (o.getD default).unspent = o.bind unspent := by
  cases o <;> rfl

/-- `operator==` is equality of the unspent coins. -/
theorem beq_eq_true_iff (a b : CCoins) : a.beq b = true ↔ a.unspent = b.unspent := by
  have hfields : (a.fCoinBase == b.fCoinBase && a.nHeight == b.nHeight &&
      a.nVersion == b.nVersion && a.vout == b.vout) = true ↔ a = b := by
    cases a; cases b
    simp only [CCoins.mk.injEq, Bool.and_eq_true, beq_iff_eq]
    tauto
  rw [beq, Bool.or_eq_true, hfields, Bool.and_eq_true]
  unfold unspent
  by_cases ha : a.IsPruned = true <;> by_cases hb : b.IsPruned = true
  · simp [ha, hb]
  · simp only [ha, hb, and_false, false_or, if_true, if_false, reduceCtorEq, iff_false]
    rintro rfl
    exact hb ha
  · simp only [ha, hb, false_and, false_or, if_true, if_false, reduceCtorEq, iff_false]
    rintro rfl
    exact ha hb
  · simp [ha, hb]

/-- `Cleanup` drops spent outputs only: it keeps whether the coins are pruned. -/
@[simp] theorem IsPruned_Cleanup (coins : CCoins) : coins.Cleanup.IsPruned = coins.IsPruned := by
  simp only [IsPruned, Cleanup]
  conv_rhs => rw [show coins.vout = coins.vout.rdropWhile CTxOut.IsNull ++
    coins.vout.rtakeWhile CTxOut.IsNull from List.rdropWhile_append_rtakeWhile.symm]
  have htake : (coins.vout.rtakeWhile CTxOut.IsNull).all CTxOut.IsNull = true :=
    List.all_eq_true.mpr fun x hx => List.mem_rtakeWhile_imp hx
  rw [List.all_append, htake, Bool.and_true]

theorem unspent_Cleanup (coins : CCoins) : coins.Cleanup.unspent = coins.unspent.map Cleanup := by
  by_cases h : coins.IsPruned <;> simp [unspent, h]

@[simp] theorem Cleanup_Cleanup (coins : CCoins) : coins.Cleanup.Cleanup = coins.Cleanup := by
  simp [Cleanup, List.rdropWhile_idempotent]

@[simp] theorem Cleanup_default : (default : CCoins).Cleanup = default := rfl

/-- Pruned coins that are cleaned up have no outputs at all. -/
theorem vout_eq_nil {coins : CCoins} (hp : coins.IsPruned = true) (ht : coins.Cleanup = coins) :
    coins.vout = [] := by
  rw [← ht]
  simpa [Cleanup, List.rdropWhile_eq_nil_iff, IsPruned] using hp

end CCoins

/-! ### Flags -/

namespace CCoinsCacheEntry

/-- The `DIRTY` bit of a flags byte. -/
def dirtyBit (flags : UInt8) : Bool := flags &&& DIRTY != 0

/-- The `FRESH` bit of a flags byte. -/
def freshBit (flags : UInt8) : Bool := flags &&& FRESH != 0

@[simp] theorem isDirty_mk (coins : CCoins) (flags : UInt8) :
    isDirty ⟨coins, flags⟩ = dirtyBit flags := rfl

@[simp] theorem isFresh_mk (coins : CCoins) (flags : UInt8) :
    isFresh ⟨coins, flags⟩ = freshBit flags := rfl

@[simp] theorem dirtyBit_flags (entry : CCoinsCacheEntry) : dirtyBit entry.flags = entry.isDirty :=
  rfl

@[simp] theorem freshBit_flags (entry : CCoinsCacheEntry) : freshBit entry.flags = entry.isFresh :=
  rfl

/-- `!(flags & DIRTY)`. -/
@[simp] theorem and_DIRTY_beq_zero (flags : UInt8) : (flags &&& DIRTY == 0) = !dirtyBit flags := by
  rw [dirtyBit, bne, Bool.not_not]

/-- Setting one flag sets it and keeps the other. -/
theorem flag_bits : ∀ f : UInt8,
    dirtyBit (f ||| DIRTY) = true ∧ freshBit (f ||| DIRTY) = freshBit f ∧
      freshBit (f ||| FRESH) = true := by
  decide +kernel

@[simp] theorem dirtyBit_or_DIRTY (f : UInt8) : dirtyBit (f ||| DIRTY) = true := (flag_bits f).1

@[simp] theorem freshBit_or_DIRTY (f : UInt8) : freshBit (f ||| DIRTY) = freshBit f :=
  (flag_bits f).2.1

@[simp] theorem freshBit_or_FRESH (f : UInt8) : freshBit (f ||| FRESH) = true := (flag_bits f).2.2

@[simp] theorem dirtyBit_zero : dirtyBit 0 = false := rfl

@[simp] theorem freshBit_zero : freshBit 0 = false := rfl

@[simp] theorem dirtyBit_FRESH : dirtyBit FRESH = false := rfl

@[simp] theorem freshBit_FRESH : freshBit FRESH = true := rfl

@[simp] theorem freshBit_DIRTY : freshBit DIRTY = false := rfl

@[simp] theorem dirtyBit_DIRTY : dirtyBit DIRTY = true := rfl

@[simp] theorem dirtyBit_DIRTY_or_FRESH : dirtyBit (DIRTY ||| FRESH) = true := rfl

end CCoinsCacheEntry

open CCoinsCacheEntry (dirtyBit freshBit)

/-! ### The view of a stack -/

namespace CoinsStack

variable (usage : CCoins → Nat)

/-- The coins the view made of `caches` over `db` has for `txid`: the first cache's entry, or
the database's record. -/
def lookupCoins (db : CCoinsViewDB) : List CCoinsViewCache → Uint256 → Option CCoins
  | [], txid => db.GetCoins txid
  | cache :: base, txid =>
    match cache.cacheCoins.lookup txid with
    | some entry => some entry.coins
    | none => lookupCoins db base txid

/-- What an entry, or no entry, shows over the unspent coins `v` below it. -/
def shows : Option CCoinsCacheEntry → Option CCoins → Option CCoins
  | some entry, _ => entry.coins.unspent
  | none, v => v

@[simp] theorem shows_some (entry : CCoinsCacheEntry) (v : Option CCoins) :
    shows (some entry) v = entry.coins.unspent := rfl

@[simp] theorem shows_none (v : Option CCoins) : shows none v = v := rfl

/-- The unspent coins the view made of `caches` over `db` has for `txid`. -/
def utxo (db : CCoinsViewDB) (caches : List CCoinsViewCache) (txid : Uint256) : Option CCoins :=
  (lookupCoins db caches txid).bind CCoins.unspent

theorem utxo_cons (db : CCoinsViewDB) (cache : CCoinsViewCache) (base : List CCoinsViewCache)
    (txid : Uint256) :
    utxo db (cache :: base) txid = shows (cache.cacheCoins.lookup txid) (utxo db base txid) := by
  simp only [utxo, lookupCoins]
  cases cache.cacheCoins.lookup txid <;> rfl

/-- The unspent coins of every level of the stack, the top cache's view first and the
database last. -/
def utxos (db : CCoinsViewDB) : List CCoinsViewCache → List (Uint256 → Option CCoins)
  | [] => [utxo db []]
  | cache :: base => utxo db (cache :: base) :: utxos db base

/-! ### The invariants -/

/-- The flags of `entry` are right over the unspent coins `v` below it: `FRESH` only over none,
and not `DIRTY` only where it shows `v`. -/
structure EntryRight (entry : CCoinsCacheEntry) (v : Option CCoins) : Prop where
  fresh : entry.isFresh = true → v = none
  clean : entry.isDirty = false → entry.coins.unspent = v

/-- The flags of every entry of `cache` are right over the unspent coins `V` below it. -/
def FlagsRight (cache : CCoinsViewCache) (V : Uint256 → Option CCoins) : Prop :=
  ∀ txid entry, cache.cacheCoins.lookup txid = some entry → EntryRight entry (V txid)

/-- The flags of every cache are right over the view made of the caches below it. -/
def FlagsInv (db : CCoinsViewDB) : List CCoinsViewCache → Prop
  | [] => True
  | cache :: base => FlagsRight cache (utxo db base) ∧ FlagsInv db base

/-- Every record and every cached entry is cleaned up: no spent output at the end. -/
structure Tidy (db : CCoinsViewDB) (caches : List CCoinsViewCache) : Prop where
  records : ∀ txid coins, db.GetCoins txid = some coins → coins.Cleanup = coins
  entries : ∀ cache ∈ caches, ∀ txid entry, cache.cacheCoins.lookup txid = some entry →
    entry.coins.Cleanup = entry.coins

/-- The sum of `usage` over the entries of `cacheCoins`. -/
def usageSum (cacheCoins : CCoinsMap) : Nat :=
  AList.sumOf (fun _ entry => usage entry.coins) cacheCoins

/-- Each cache's `cachedCoinsUsage` is the sum of `usage` over its entries. -/
def UsageExact (caches : List CCoinsViewCache) : Prop :=
  ∀ cache ∈ caches, cache.cachedCoinsUsage = usageSum usage cache.cacheCoins

theorem FlagsRight.congr {cache : CCoinsViewCache} {V W : Uint256 → Option CCoins}
    (h : FlagsRight cache V) (hVW : V = W) : FlagsRight cache W := hVW ▸ h

/-- A cache with no entries is right over anything. -/
theorem FlagsRight.of_empty {cache : CCoinsViewCache} (h : cache.cacheCoins = ∅)
    (V : Uint256 → Option CCoins) : FlagsRight cache V := by
  intro txid entry hlook
  simp [h] at hlook

theorem lookupCoins_cons (db : CCoinsViewDB) (cache : CCoinsViewCache)
    (base : List CCoinsViewCache) (txid : Uint256) :
    lookupCoins db (cache :: base) txid =
      ((cache.cacheCoins.lookup txid).map CCoinsCacheEntry.coins).or (lookupCoins db base txid) := by
  simp only [lookupCoins]
  cases cache.cacheCoins.lookup txid <;> rfl

theorem Tidy.tail {db : CCoinsViewDB} {cache : CCoinsViewCache} {base : List CCoinsViewCache}
    (ht : Tidy db (cache :: base)) : Tidy db base :=
  ⟨ht.records, fun c hc => ht.entries c (List.mem_cons_of_mem cache hc)⟩

/-- Every coins the view has are a record or an entry, so they are cleaned up where those are. -/
theorem Tidy.lookupCoins {db : CCoinsViewDB} {caches : List CCoinsViewCache} (ht : Tidy db caches)
    {txid : Uint256} {coins : CCoins} (h : lookupCoins db caches txid = some coins) :
    coins.Cleanup = coins := by
  induction caches with
  | nil => exact ht.records txid coins h
  | cons cache base ih =>
    rw [lookupCoins_cons] at h
    cases hlook : cache.cacheCoins.lookup txid with
    | some entry =>
      rw [hlook, Option.map_some, Option.some_or, Option.some_inj] at h
      subst h
      exact ht.entries cache List.mem_cons_self txid entry hlook
    | none =>
      rw [hlook, Option.map_none, Option.none_or] at h
      exact ih ht.tail h

theorem Tidy.cons {db : CCoinsViewDB} {cache : CCoinsViewCache} {base : List CCoinsViewCache}
    (ht : Tidy db base)
    (h : ∀ k e, cache.cacheCoins.lookup k = some e → e.coins.Cleanup = e.coins) :
    Tidy db (cache :: base) := by
  refine ⟨ht.records, fun c hc => ?_⟩
  rcases List.mem_cons.mp hc with rfl | hc
  · exact h
  · exact ht.entries c hc

/-- A top cache that keeps its entries cleaned up keeps the stack tidy. -/
theorem Tidy.top {db : CCoinsViewDB} {cache cache' : CCoinsViewCache} {base : List CCoinsViewCache}
    (ht : Tidy db (cache :: base))
    (h : (∀ k e, cache.cacheCoins.lookup k = some e → e.coins.Cleanup = e.coins) →
      ∀ k e, cache'.cacheCoins.lookup k = some e → e.coins.Cleanup = e.coins) :
    Tidy db (cache' :: base) :=
  ht.tail.cons (h (ht.entries cache List.mem_cons_self))

theorem usageExact_cons {cache : CCoinsViewCache} {base : List CCoinsViewCache} :
    UsageExact usage (cache :: base) ↔
      cache.cachedCoinsUsage = usageSum usage cache.cacheCoins ∧ UsageExact usage base :=
  List.forall_mem_cons

/-! ### `GetCoins` -/

section GetCoins

variable (db : CCoinsViewDB) (txid : Uint256)

theorem lookup_fetched (cache : CCoinsViewCache) (tmp : CCoins) (k : Uint256) :
    (cache.fetched usage txid tmp).cacheCoins.lookup k =
      if k = txid then some ⟨tmp, if tmp.IsPruned then FRESH else 0⟩
      else cache.cacheCoins.lookup k := by
  unfold CCoinsViewCache.fetched
  by_cases hk : k = txid
  · subst hk
    rw [if_pos rfl]
    exact AList.lookup_insert _
  · rw [if_neg hk]
    exact AList.lookup_insert_ne hk

theorem GetCoins_cons_of_lookup_eq_some {cache : CCoinsViewCache} {entry : CCoinsCacheEntry}
    (base : List CCoinsViewCache) (h : cache.cacheCoins.lookup txid = some entry) :
    GetCoins usage db (cache :: base) txid = (some entry.coins, cache :: base) := by
  simp only [GetCoins, h]

/-- `GetCoins` returns the coins the view shows. -/
theorem GetCoins_fst :
    ∀ caches, (GetCoins usage db caches txid).1 = lookupCoins db caches txid
  | [] => rfl
  | cache :: base => by
    rw [lookupCoins_cons]
    cases hlook : cache.cacheCoins.lookup txid with
    | some entry => rw [GetCoins_cons_of_lookup_eq_some usage db txid base hlook]; rfl
    | none =>
      rw [Option.map_none, Option.none_or, ← GetCoins_fst base]
      simp only [GetCoins, hlook]
      rcases GetCoins usage db base txid with ⟨_ | tmp, base'⟩ <;> rfl

/-- A cache that misses asks its base, and keeps a copy of what the base returns. -/
theorem GetCoins_cons_of_lookup_eq_none {cache : CCoinsViewCache} (base : List CCoinsViewCache)
    (h : cache.cacheCoins.lookup txid = none) :
    GetCoins usage db (cache :: base) txid =
      (lookupCoins db base txid,
        (lookupCoins db base txid).elim cache (cache.fetched usage txid) ::
          (GetCoins usage db base txid).2) := by
  rw [← GetCoins_fst usage db txid base]
  simp only [GetCoins, h]
  rcases GetCoins usage db base txid with ⟨_ | tmp, base'⟩ <;> rfl

/-- A lookup changes what no level of the stack shows. -/
theorem lookupCoins_GetCoins :
    ∀ caches k, lookupCoins db (GetCoins usage db caches txid).2 k = lookupCoins db caches k
  | [], _ => rfl
  | cache :: base, k => by
    cases hlook : cache.cacheCoins.lookup txid with
    | some entry => rw [GetCoins_cons_of_lookup_eq_some usage db txid base hlook]
    | none =>
      rw [GetCoins_cons_of_lookup_eq_none usage db txid base hlook, lookupCoins_cons,
        lookupCoins_cons, lookupCoins_GetCoins base k]
      cases hbase : lookupCoins db base txid with
      | none => rfl
      | some tmp =>
        rw [Option.elim_some, lookup_fetched]
        by_cases hk : k = txid
        · subst hk
          rw [if_pos rfl, hlook, hbase]
          rfl
        · rw [if_neg hk]

theorem utxo_GetCoins (caches : List CCoinsViewCache) :
    utxo db (GetCoins usage db caches txid).2 = utxo db caches := by
  funext k
  rw [utxo, utxo, lookupCoins_GetCoins]

theorem utxos_GetCoins :
    ∀ caches, utxos db (GetCoins usage db caches txid).2 = utxos db caches
  | [] => rfl
  | cache :: base => by
    cases hlook : cache.cacheCoins.lookup txid with
    | some entry => rw [GetCoins_cons_of_lookup_eq_some usage db txid base hlook]
    | none =>
      have hhead := utxo_GetCoins usage db txid (cache :: base)
      rw [GetCoins_cons_of_lookup_eq_none usage db txid base hlook] at hhead ⊢
      rw [utxos, utxos, hhead, utxos_GetCoins base]

/-- A copy of what the base returns is right over it: not `DIRTY`, and `FRESH` exactly where
it is pruned. -/
theorem FlagsRight_fetched {cache : CCoinsViewCache} {V : Uint256 → Option CCoins}
    (hF : FlagsRight cache V) {tmp : CCoins} (htmp : V txid = tmp.unspent) :
    FlagsRight (cache.fetched usage txid tmp) V := by
  intro k entry hk
  rw [lookup_fetched] at hk
  by_cases hkt : k = txid
  · subst hkt
    rw [if_pos rfl, Option.some_inj] at hk
    subst hk
    constructor
    · intro hfresh
      rw [htmp, CCoins.unspent_eq_none]
      by_contra hp
      simp [hp] at hfresh
    · intro _
      exact htmp.symm
  · rw [if_neg hkt] at hk
    exact hF k entry hk

theorem FlagsInv_GetCoins :
    ∀ caches, FlagsInv db caches → FlagsInv db (GetCoins usage db caches txid).2
  | [], _ => trivial
  | cache :: base, ⟨hF, hI⟩ => by
    cases hlook : cache.cacheCoins.lookup txid with
    | some entry =>
      rw [GetCoins_cons_of_lookup_eq_some usage db txid base hlook]
      exact ⟨hF, hI⟩
    | none =>
      rw [GetCoins_cons_of_lookup_eq_none usage db txid base hlook]
      refine ⟨?_, FlagsInv_GetCoins base hI⟩
      rw [utxo_GetCoins]
      cases hbase : lookupCoins db base txid with
      | none => exact hF
      | some tmp =>
        refine FlagsRight_fetched usage txid hF ?_
        rw [utxo, hbase]
        rfl

theorem Tidy_GetCoins {caches : List CCoinsViewCache} (ht : Tidy db caches) :
    Tidy db (GetCoins usage db caches txid).2 := by
  induction caches with
  | nil => exact ht
  | cons cache base ih =>
    cases hlook : cache.cacheCoins.lookup txid with
    | some entry => rw [GetCoins_cons_of_lookup_eq_some usage db txid base hlook]; exact ht
    | none =>
      rw [GetCoins_cons_of_lookup_eq_none usage db txid base hlook]
      refine (ih ht.tail).cons ?_
      -- the entry made for what the base returned holds a record or an entry below
      cases hbase : lookupCoins db base txid with
      | none => exact ht.entries _ List.mem_cons_self
      | some tmp =>
        intro k entry hk
        rw [Option.elim_some, lookup_fetched] at hk
        by_cases hkt : k = txid
        · rw [if_pos hkt, Option.some_inj] at hk
          subst hk
          exact ht.tail.lookupCoins hbase
        · rw [if_neg hkt] at hk
          exact ht.entries cache List.mem_cons_self k entry hk

theorem UsageExact_GetCoins {caches : List CCoinsViewCache} (hu : UsageExact usage caches) :
    UsageExact usage (GetCoins usage db caches txid).2 := by
  induction caches with
  | nil => intro c hc; cases hc
  | cons cache base ih =>
    obtain ⟨hexact, hub⟩ := (usageExact_cons usage).mp hu
    cases hlook : cache.cacheCoins.lookup txid with
    | some entry => rw [GetCoins_cons_of_lookup_eq_some usage db txid base hlook]; exact hu
    | none =>
      rw [GetCoins_cons_of_lookup_eq_none usage db txid base hlook]
      refine (usageExact_cons usage).mpr ⟨?_, ih hub⟩
      cases lookupCoins db base txid with
      | none => exact hexact
      | some tmp =>
        simp only [Option.elim_some, CCoinsViewCache.fetched, usageSum, AList.sumOf_insert,
          AList.sumOf_erase_of_lookup_eq_none _ hlook]
        rw [hexact, usageSum]

end GetCoins

/-! ### The modifier's destructor -/

section Release

theorem lookup_destructor (cache : CCoinsViewCache) (m : CCoinsModifier) (k : Uint256) :
    (cache.destructor usage m).cacheCoins.lookup k =
      if k = m.txid then
        if m.entry.isFresh && m.entry.coins.IsPruned then none
        else some ⟨m.entry.coins.Cleanup, m.entry.flags⟩
      else cache.cacheCoins.lookup k := by
  simp only [CCoinsViewCache.destructor, CCoins.IsPruned_Cleanup]
  by_cases hk : k = m.txid
  · subst hk
    rw [if_pos rfl]
    split_ifs <;> simp
  · rw [if_neg hk]
    split_ifs <;> simp [hk]

/-- The destructor takes the modifier's `cachedCoinUsage` off and counts what it leaves: the
counter stays the sum of the entries, up to what it was off by (`d`) already. -/
theorem cachedCoinsUsage_destructor (cache : CCoinsViewCache) (m : CCoinsModifier) (d : Nat)
    (h : cache.cachedCoinsUsage =
      usageSum usage (cache.cacheCoins.erase m.txid) + d + m.cachedCoinUsage) :
    (cache.destructor usage m).cachedCoinsUsage =
      usageSum usage (cache.destructor usage m).cacheCoins + d := by
  simp only [CCoinsViewCache.destructor]
  split_ifs
  · simp only
    omega
  · simp only [usageSum, AList.sumOf_insert]
    rw [usageSum] at h
    omega

variable {cache : CCoinsViewCache} {txid : Uint256} {entry : CCoinsCacheEntry} {u : Nat}
  {edit : CCoins → CCoins}

/-- The cache after the modifier of the entry `entry` of `txid`, which the call that made it
wrote into `cache`, is released with the coins edited by `edit`. -/
theorem lookup_release (k : Uint256) :
    (release usage { cache with cacheCoins := cache.cacheCoins.insert txid entry }
        ⟨txid, entry, u⟩ edit).cacheCoins.lookup k =
      if k = txid then
        if entry.isFresh && (edit entry.coins).IsPruned then none
        else some ⟨(edit entry.coins).Cleanup, entry.flags⟩
      else cache.cacheCoins.lookup k := by
  rw [release, lookup_destructor]
  by_cases hk : k = txid
  · simp only [hk, if_true]
    rfl
  · simp only [hk, if_false]
    exact AList.lookup_insert_ne hk

/-- A `DIRTY` entry, `FRESH` only over no unspent coins, leaves the flags right when it is
released, and the cache showing the edited coins at `txid`. -/
theorem FlagsRight_release {V : Uint256 → Option CCoins} (hF : FlagsRight cache V)
    (hdirty : entry.isDirty = true) (hfresh : entry.isFresh = true → V txid = none) :
    FlagsRight (release usage { cache with cacheCoins := cache.cacheCoins.insert txid entry }
      ⟨txid, entry, u⟩ edit) V := by
  intro k e hk
  rw [lookup_release] at hk
  by_cases hkt : k = txid
  · subst hkt
    rw [if_pos rfl] at hk
    split_ifs at hk
    rw [Option.some_inj] at hk
    subst hk
    exact ⟨hfresh, fun h => absurd hdirty (by simpa [CCoinsCacheEntry.isDirty] using h)⟩
  · rw [if_neg hkt] at hk
    exact hF k e hk

theorem shows_release {V : Uint256 → Option CCoins} (hfresh : entry.isFresh = true → V txid = none)
    (k : Uint256) :
    shows ((release usage { cache with cacheCoins := cache.cacheCoins.insert txid entry }
        ⟨txid, entry, u⟩ edit).cacheCoins.lookup k) (V k) =
      if k = txid then (edit entry.coins).Cleanup.unspent
      else shows (cache.cacheCoins.lookup k) (V k) := by
  rw [lookup_release]
  by_cases hkt : k = txid
  · subst hkt
    rw [if_pos rfl, if_pos rfl]
    split_ifs with h
    · -- an erased `FRESH` entry lets the pruned view below show through
      obtain ⟨hf, hp⟩ := Bool.and_eq_true_iff.mp h
      rw [shows_none, hfresh hf, CCoins.unspent_Cleanup, CCoins.unspent_eq_none.mpr hp,
        Option.map_none]
    · rfl
  · rw [if_neg hkt, if_neg hkt]

theorem cachedCoinsUsage_release (d : Nat)
    (h : cache.cachedCoinsUsage = usageSum usage (cache.cacheCoins.erase txid) + d + u) :
    (release usage { cache with cacheCoins := cache.cacheCoins.insert txid entry }
        ⟨txid, entry, u⟩ edit).cachedCoinsUsage =
      usageSum usage (release usage { cache with cacheCoins := cache.cacheCoins.insert txid entry }
        ⟨txid, entry, u⟩ edit).cacheCoins + d :=
  cachedCoinsUsage_destructor usage _ _ d (by simpa using h)

/-- The destructor cleans the coins up. -/
theorem tidy_release
    (ht : ∀ k e, cache.cacheCoins.lookup k = some e → e.coins.Cleanup = e.coins) :
    ∀ k e, (release usage { cache with cacheCoins := cache.cacheCoins.insert txid entry }
        ⟨txid, entry, u⟩ edit).cacheCoins.lookup k = some e → e.coins.Cleanup = e.coins := by
  intro k e hk
  rw [lookup_release] at hk
  by_cases hkt : k = txid
  · rw [if_pos hkt] at hk
    split_ifs at hk
    rw [Option.some_inj] at hk
    subst hk
    exact CCoins.Cleanup_Cleanup _
  · rw [if_neg hkt] at hk
    exact ht k e hk

end Release

/-! ### `ModifyCoins` and `ModifyNewCoins` -/

section Modify

variable (db : CCoinsViewDB) (txid : Uint256)

theorem ModifyCoins_of_lookup_eq_some {cache : CCoinsViewCache} {entry : CCoinsCacheEntry}
    (base : List CCoinsViewCache) (h : cache.cacheCoins.lookup txid = some entry) :
    ModifyCoins usage db cache base txid =
      (⟨txid, ⟨entry.coins, entry.flags ||| DIRTY⟩, usage entry.coins⟩,
        { cache with cacheCoins := cache.cacheCoins.insert txid ⟨entry.coins, entry.flags ||| DIRTY⟩ },
        base) := by
  simp only [ModifyCoins, h]

/-- `ModifyCoins` of a txid the cache does not have: the base's coins, or `CCoins()`, in a
`DIRTY` entry that is `FRESH` only where the base has no unspent coins. -/
theorem ModifyCoins_of_lookup_eq_none {cache : CCoinsViewCache} (base : List CCoinsViewCache)
    (h : cache.cacheCoins.lookup txid = none) :
    ∃ flags : UInt8, ModifyCoins usage db cache base txid =
        (⟨txid, ⟨(lookupCoins db base txid).getD default, flags⟩, 0⟩,
          { cache with
            cacheCoins := cache.cacheCoins.insert txid
              ⟨(lookupCoins db base txid).getD default, flags⟩ },
          (GetCoins usage db base txid).2) ∧
      dirtyBit flags = true ∧ (freshBit flags = true → utxo db base txid = none) := by
  have hfst := GetCoins_fst usage db txid base
  simp only [ModifyCoins, h]
  rcases hg : GetCoins usage db base txid with ⟨_ | coins, base'⟩
  · rw [hg] at hfst
    refine ⟨FRESH ||| DIRTY, ?_, by simp, fun _ => ?_⟩
    · rw [← hfst]
      rfl
    · rw [utxo, ← hfst]
      rfl
  · rw [hg] at hfst
    refine ⟨(if coins.IsPruned then FRESH else 0) ||| DIRTY, ?_, by simp, fun hf => ?_⟩
    · rw [← hfst]
      rfl
    · rw [utxo, ← hfst, Option.bind_some, CCoins.unspent_eq_none]
      by_contra hp
      simp [hp] at hf

/-- `ModifyNewCoins` of a txid that the cache shows no unspent coins for, where it is not a
coinbase: cleared coins in a `DIRTY` entry that is `FRESH` only over no unspent coins. -/
theorem ModifyNewCoins_spec {cache : CCoinsViewCache} {V : Uint256 → Option CCoins}
    (hF : FlagsRight cache V) {coinbase : Bool}
    (hnew : coinbase = false → shows (cache.cacheCoins.lookup txid) (V txid) = none) :
    ∃ flags : UInt8, cache.ModifyNewCoins txid coinbase =
        .ok (⟨txid, ⟨default, flags⟩, 0⟩,
          { cache with cacheCoins := cache.cacheCoins.insert txid ⟨default, flags⟩ }) ∧
      dirtyBit flags = true ∧ (freshBit flags = true → V txid = none) := by
  cases hlook : cache.cacheCoins.lookup txid with
  | none =>
    -- a new entry: `FRESH` for a non-coinbase, over the view the cache lets through
    have hV : coinbase = false → V txid = none := fun hcb => by simpa [hlook] using hnew hcb
    cases coinbase
    · refine ⟨0 ||| FRESH ||| DIRTY, ?_, by simp, fun _ => hV rfl⟩
      simp [CCoinsViewCache.ModifyNewCoins, hlook, CCoins.Clear]
    · refine ⟨0 ||| DIRTY, ?_, by simp, fun hf => by simp at hf⟩
      simp [CCoinsViewCache.ModifyNewCoins, hlook, CCoins.Clear]
  | some e =>
    have he := hF txid e hlook
    cases coinbase
    · -- a non-coinbase finds pruned coins, over a view with no unspent coins where not `DIRTY`
      have hshow : e.coins.unspent = none := by simpa [hlook] using hnew rfl
      have hp : e.coins.IsPruned = true := CCoins.unspent_eq_none.mp hshow
      by_cases hd : e.isDirty = false
      · refine ⟨e.flags ||| FRESH ||| DIRTY, ?_, by simp, fun _ => ?_⟩
        · simp [CCoinsViewCache.ModifyNewCoins, hlook, hp, hd, CCoins.Clear]
        · rw [← he.clean hd, hshow]
      · refine ⟨e.flags ||| DIRTY, ?_, by simp, fun hf => he.fresh (by simpa using hf)⟩
        simp [CCoinsViewCache.ModifyNewCoins, hlook, hp, hd, CCoins.Clear]
    · refine ⟨e.flags ||| DIRTY, ?_, by simp, fun hf => he.fresh (by simpa using hf)⟩
      simp [CCoinsViewCache.ModifyNewCoins, hlook, CCoins.Clear]

end Modify

/-! ### `Uncache` -/

section Uncache

variable {cache : CCoinsViewCache} {txid : Uint256}

/-- `Uncache` leaves the cache as it is, or drops an entry with no flag set, and its usage. -/
theorem Uncache_cases (cache : CCoinsViewCache) (txid : Uint256) :
    cache.Uncache usage txid = cache ∨
      ∃ entry, cache.cacheCoins.lookup txid = some entry ∧ entry.flags = 0 ∧
        cache.Uncache usage txid = { cache with
          cachedCoinsUsage := cache.cachedCoinsUsage - usage entry.coins
          cacheCoins := cache.cacheCoins.erase txid } := by
  unfold CCoinsViewCache.Uncache
  cases hlook : cache.cacheCoins.lookup txid with
  | none => exact .inl rfl
  | some entry =>
    by_cases h0 : entry.flags = 0
    · exact .inr ⟨entry, rfl, h0, by simp [h0]⟩
    · exact .inl (by simp [h0])

theorem lookup_erase_eq_some {cacheCoins : CCoinsMap} {k : Uint256} {entry : CCoinsCacheEntry}
    (h : (cacheCoins.erase txid).lookup k = some entry) : cacheCoins.lookup k = some entry := by
  by_cases hk : k = txid
  · subst hk
    simp at h
  · rwa [AList.lookup_erase_ne hk] at h

theorem FlagsRight_Uncache {V : Uint256 → Option CCoins} (hF : FlagsRight cache V) :
    FlagsRight (cache.Uncache usage txid) V := by
  rcases Uncache_cases usage cache txid with h | ⟨entry, -, -, h⟩ <;> rw [h]
  · exact hF
  · exact fun k e hk => hF k e (lookup_erase_eq_some hk)

/-- `Uncache` changes what the cache shows nowhere: it drops only an entry that shows what is
below it. -/
theorem shows_Uncache {V : Uint256 → Option CCoins} (hF : FlagsRight cache V) (k : Uint256) :
    shows ((cache.Uncache usage txid).cacheCoins.lookup k) (V k) =
      shows (cache.cacheCoins.lookup k) (V k) := by
  rcases Uncache_cases usage cache txid with h | ⟨entry, hlook, h0, h⟩ <;> rw [h]
  by_cases hk : k = txid
  · subst hk
    have hclean : entry.isDirty = false := by
      rw [← CCoinsCacheEntry.dirtyBit_flags, h0, CCoinsCacheEntry.dirtyBit_zero]
    rw [AList.lookup_erase, shows_none, hlook, shows_some, (hF k entry hlook).clean hclean]
  · rw [AList.lookup_erase_ne hk]

theorem cachedCoinsUsage_Uncache
    (hu : cache.cachedCoinsUsage = usageSum usage cache.cacheCoins) :
    (cache.Uncache usage txid).cachedCoinsUsage =
      usageSum usage (cache.Uncache usage txid).cacheCoins := by
  rcases Uncache_cases usage cache txid with h | ⟨entry, hlook, -, h⟩ <;> rw [h]
  · exact hu
  · have hsum := AList.sumOf_erase_add (fun _ entry => usage entry.coins) hlook
    simp only [usageSum] at hu ⊢
    omega

theorem tidy_Uncache
    (ht : ∀ k e, cache.cacheCoins.lookup k = some e → e.coins.Cleanup = e.coins) :
    ∀ k e, (cache.Uncache usage txid).cacheCoins.lookup k = some e → e.coins.Cleanup = e.coins := by
  rcases Uncache_cases usage cache txid with h | ⟨entry, -, -, h⟩ <;> rw [h]
  · exact ht
  · exact fun k e hk => ht k e (lookup_erase_eq_some hk)

end Uncache

/-! ### `BatchWrite` -/

section BatchWrite

/-- What one entry `child` of a batch makes of the parent cache's entry `ours` for its txid. -/
def mergeEntry (child : CCoinsCacheEntry) (ours : Option CCoinsCacheEntry) :
    Option CCoinsCacheEntry :=
  if child.isDirty then
    match ours with
    | none =>
      if child.isFresh && child.coins.IsPruned then none
      else some ⟨child.coins, if child.isFresh then DIRTY ||| FRESH else DIRTY⟩
    | some ours =>
      if ours.isFresh && child.coins.IsPruned then none
      else some ⟨child.coins, ours.flags ||| DIRTY⟩
  else ours

/-- An entry on which `BatchWrite` throws: `DIRTY` and `FRESH`, over unspent coins. -/
def Misapplied (child : CCoinsCacheEntry) (ours : Option CCoinsCacheEntry) : Prop :=
  child.isDirty = true ∧ child.isFresh = true ∧ ∃ o, ours = some o ∧ o.coins.IsPruned = false

/-- One entry of `CCoinsViewCache::BatchWrite`: where it does not throw, it merges the child's
entry into the cache's at its txid and changes no other, keeping the counter exact. -/
theorem batchWriteEntry_spec (cache : CCoinsViewCache)
    (it : Sigma fun _ : Uint256 => CCoinsCacheEntry)
    (hok : ¬ Misapplied it.2 (cache.cacheCoins.lookup it.1)) :
    ∃ cache', cache.batchWriteEntry usage it = .ok cache' ∧
      (cache.cachedCoinsUsage = usageSum usage cache.cacheCoins →
        cache'.cachedCoinsUsage = usageSum usage cache'.cacheCoins) ∧
      cache'.cacheCoins.lookup it.1 = mergeEntry it.2 (cache.cacheCoins.lookup it.1) ∧
      ∀ k, k ≠ it.1 → cache'.cacheCoins.lookup k = cache.cacheCoins.lookup k := by
  obtain ⟨txid, child⟩ := it
  simp only [CCoinsViewCache.batchWriteEntry, mergeEntry]
  by_cases hd : child.isDirty = true
  · simp only [hd, if_true, CCoinsViewCache.batchWriteDirty]
    cases hlook : cache.cacheCoins.lookup txid with
    | none =>
      by_cases hfp : (child.isFresh && child.coins.IsPruned) = true
      · simp only [hfp, Bool.not_true, if_true, Bool.false_eq_true, if_false]
        exact ⟨cache, rfl, id, hlook, fun _ _ => rfl⟩
      · simp only [hfp, Bool.not_false, if_true, Bool.false_eq_true, if_false]
        refine ⟨_, rfl, fun hu => ?_, AList.lookup_insert _, fun k hk => AList.lookup_insert_ne hk⟩
        simp only [usageSum, AList.sumOf_insert, AList.sumOf_erase_of_lookup_eq_none _ hlook]
        rw [hu, usageSum]
    | some ours =>
      have hmis : ¬ (child.isFresh && !ours.coins.IsPruned) = true := by
        intro h
        simp only [Bool.and_eq_true, Bool.not_eq_true'] at h
        exact hok ⟨hd, h.1, ours, hlook, h.2⟩
      simp only [hmis]
      by_cases hfp : (ours.isFresh && child.coins.IsPruned) = true
      · simp only [hfp, if_true]
        refine ⟨_, rfl, fun hu => ?_, AList.lookup_erase _ _, fun k hk => AList.lookup_erase_ne hk⟩
        have hsum := AList.sumOf_erase_add (fun _ entry => usage entry.coins) hlook
        simp only [usageSum] at hu ⊢
        omega
      · simp only [hfp, if_false, Bool.false_eq_true]
        refine ⟨_, rfl, fun hu => ?_, AList.lookup_insert _, fun k hk => AList.lookup_insert_ne hk⟩
        have hsum := AList.sumOf_erase_add (fun _ entry => usage entry.coins) hlook
        simp only [usageSum, AList.sumOf_insert] at hu hsum ⊢
        omega
  · simp only [hd, if_false, Bool.false_eq_true]
    exact ⟨cache, rfl, id, rfl, fun _ _ => rfl⟩

/-- `CCoinsViewCache::BatchWrite` of a batch none of whose entries it throws on: each txid's
entry is merged with the batch's, the counter stays exact. -/
theorem BatchWrite_spec (cache : CCoinsViewCache) (mapCoins : CCoinsMap) (hashBlockIn : Uint256)
    (hok : ∀ k child, mapCoins.lookup k = some child →
      ¬ Misapplied child (cache.cacheCoins.lookup k)) :
    ∃ cache', cache.BatchWrite usage mapCoins hashBlockIn = .ok cache' ∧
      (cache.cachedCoinsUsage = usageSum usage cache.cacheCoins →
        cache'.cachedCoinsUsage = usageSum usage cache'.cacheCoins) ∧
      ∀ k, cache'.cacheCoins.lookup k =
        (mapCoins.lookup k).elim (cache.cacheCoins.lookup k)
          fun child => mergeEntry child (cache.cacheCoins.lookup k) := by
  obtain ⟨cache', hfold, hu, hget⟩ := AList.foldlM_keywise
    (fun (s : CCoinsViewCache) k => s.cacheCoins.lookup k)
    (fun s => cache.cachedCoinsUsage = usageSum usage cache.cacheCoins →
      s.cachedCoinsUsage = usageSum usage s.cacheCoins)
    (fun _ child ours => Misapplied child ours) (fun _ => mergeEntry)
    (CCoinsViewCache.batchWriteEntry usage)
    (fun s it hs hok => by
      obtain ⟨s', hs', hu', hget', hother'⟩ := batchWriteEntry_spec usage s it hok
      exact ⟨s', hs', fun h => hu' (hs h), hget', hother'⟩)
    mapCoins.entries mapCoins.nodupKeys cache id
    (fun x hx => hok x.1 x.2 (AList.mem_lookup_iff.mpr hx))
  refine ⟨{ cache' with hashBlock := hashBlockIn }, ?_, hu, fun k => ?_⟩
  · simp only [CCoinsViewCache.BatchWrite, hfold]
    rfl
  · rw [hget k]
    simp only [AList.afterFold, AList.lookup]
    cases List.dlookup k mapCoins.entries <;> rfl

/-- One key of a batch into a cache: the child's entry is right over what the parent shows there,
and the parent's entry over what is below it.  Then the batch does not throw there, and the
merged entry is right over what is below and shows the child's coins. -/
theorem mergeEntry_spec {child : CCoinsCacheEntry} {ours : Option CCoinsCacheEntry}
    {v : Option CCoins} (hchild : EntryRight child (shows ours v))
    (hours : ∀ o, ours = some o → EntryRight o v) :
    ¬ Misapplied child ours ∧ (∀ e, mergeEntry child ours = some e → EntryRight e v) ∧
      shows (mergeEntry child ours) v = child.coins.unspent := by
  refine ⟨?_, ?_⟩
  · rintro ⟨-, hf, o, rfl, hp⟩
    have h := hchild.fresh hf
    rw [shows_some, CCoins.unspent_eq_none, hp] at h
    exact Bool.false_ne_true h
  by_cases hd : child.isDirty = true
  · cases ours with
    | none =>
      have hfresh : child.isFresh = true → v = none := hchild.fresh
      by_cases hfp : (child.isFresh && child.coins.IsPruned) = true
      · -- a `FRESH` child pruned is not written up
        obtain ⟨hf, hp⟩ := Bool.and_eq_true_iff.mp hfp
        have hmerge : mergeEntry child none = none := by simp [mergeEntry, hd, hfp]
        rw [hmerge, shows_none, hfresh hf, CCoins.unspent_eq_none.mpr hp]
        exact ⟨(fun e he => nomatch he), rfl⟩
      · have hmerge : mergeEntry child none =
            some ⟨child.coins, if child.isFresh then DIRTY ||| FRESH else DIRTY⟩ := by
          simp [mergeEntry, hd, hfp]
        rw [hmerge, shows_some]
        refine ⟨?_, rfl⟩
        rintro e ⟨⟩
        constructor
        · intro hf
          apply hfresh
          cases hcf : child.isFresh
          · simp [hcf] at hf
          · rfl
        · intro hd'
          cases hcf : child.isFresh <;> simp [hcf] at hd'
    | some o =>
      have ho := hours o rfl
      by_cases hfp : (o.isFresh && child.coins.IsPruned) = true
      · -- the parent's entry was `FRESH`: it is dropped
        obtain ⟨hf, hp⟩ := Bool.and_eq_true_iff.mp hfp
        have hmerge : mergeEntry child (some o) = none := by simp [mergeEntry, hd, hfp]
        rw [hmerge, shows_none, ho.fresh hf, CCoins.unspent_eq_none.mpr hp]
        exact ⟨(fun e he => nomatch he), rfl⟩
      · have hmerge : mergeEntry child (some o) = some ⟨child.coins, o.flags ||| DIRTY⟩ := by
          simp [mergeEntry, hd, hfp]
        rw [hmerge, shows_some]
        refine ⟨?_, rfl⟩
        rintro e ⟨⟩
        exact ⟨fun hf => ho.fresh (by simpa using hf), fun hd' => by simp at hd'⟩
  · have hclean : child.isDirty = false := by simpa using hd
    simp only [mergeEntry, hclean, if_false, Bool.false_eq_true]
    exact ⟨hours, (hchild.clean hclean).symm⟩

/-- What one entry `child` of a batch makes of the database's record for its txid. -/
def recordAfter (child : CCoinsCacheEntry) (record : Option CCoins) : Option CCoins :=
  if child.isDirty then (if child.coins.IsPruned then none else some child.coins) else record

theorem lookup_db_batchWriteEntry (coins : AList fun _ : Uint256 => CCoins)
    (it : Sigma fun _ : Uint256 => CCoinsCacheEntry) (k : Uint256) :
    (CCoinsViewDB.batchWriteEntry coins it).lookup k =
      if k = it.1 then recordAfter it.2 (coins.lookup k) else coins.lookup k := by
  unfold CCoinsViewDB.batchWriteEntry recordAfter
  by_cases hk : k = it.1
  · subst hk
    rw [if_pos rfl]
    split_ifs <;> simp
  · rw [if_neg hk]
    split_ifs <;> simp [hk]

/-- `CCoinsViewDB::BatchWrite`: each record is what the batch's entry for its txid makes of it. -/
theorem lookup_db_BatchWrite (db : CCoinsViewDB) (mapCoins : CCoinsMap) (hashBlock : Uint256)
    (k : Uint256) :
    (db.BatchWrite mapCoins hashBlock).coins.lookup k =
      (mapCoins.lookup k).elim (db.coins.lookup k)
        fun child => recordAfter child (db.coins.lookup k) := by
  have hfold := (AList.foldl_keywise (fun (coins : AList fun _ : Uint256 => CCoins) k => coins.lookup k)
    (fun _ => True) (fun _ => recordAfter) CCoinsViewDB.batchWriteEntry
    (fun coins it _ => ⟨trivial, by rw [lookup_db_batchWriteEntry, if_pos rfl],
      fun a ha => by rw [lookup_db_batchWriteEntry, if_neg ha]⟩)
    mapCoins.entries mapCoins.nodupKeys db.coins trivial).2 k
  rw [CCoinsViewDB.BatchWrite, hfold]
  simp only [AList.afterFold, AList.lookup]
  cases List.dlookup k mapCoins.entries <;> rfl

/-- One key of a batch into the database: the record shows the child's coins. -/
theorem recordAfter_unspent {child : CCoinsCacheEntry} {record : Option CCoins}
    (hchild : EntryRight child (record.bind CCoins.unspent)) :
    (recordAfter child record).bind CCoins.unspent = child.coins.unspent := by
  unfold recordAfter
  by_cases hd : child.isDirty = true
  · by_cases hp : child.coins.IsPruned = true
    · simp only [hd, hp, if_true, Option.bind_none]
      exact (CCoins.unspent_eq_none.mpr hp).symm
    · simp only [hd, hp, if_true, Bool.false_eq_true, if_false, Option.bind_some]
  · have hclean : child.isDirty = false := by simpa using hd
    simp only [hclean, Bool.false_eq_true, if_false]
    exact (hchild.clean hclean).symm

end BatchWrite

/-! ### `Flush` -/

section Flush

variable {db : CCoinsViewDB} {cache : CCoinsViewCache}

/-- A merged entry has the child's coins or is the parent's. -/
theorem mergeEntry_eq_some {child : CCoinsCacheEntry} {ours : Option CCoinsCacheEntry}
    {e : CCoinsCacheEntry} (h : mergeEntry child ours = some e) :
    e.coins = child.coins ∨ ours = some e := by
  unfold mergeEntry at h
  by_cases hd : child.isDirty = true
  · rw [if_pos hd] at h
    left
    cases ours with
    | none =>
      simp only at h
      split_ifs at h <;> cases h <;> rfl
    | some o =>
      simp only at h
      split_ifs at h
      cases h
      rfl
  · rw [if_neg hd] at h
    exact .inr h

/-- Flushing a cache whose flags are right into another cache: the batch does not throw, and the
parent then shows what the child showed, with its flags right over the same view below. -/
theorem BatchWrite_cache_spec {b : CCoinsViewCache} {rest : List CCoinsViewCache}
    (hF : FlagsRight cache (utxo db (b :: rest))) (hb : FlagsRight b (utxo db rest)) :
    ∃ b', b.BatchWrite usage cache.cacheCoins cache.hashBlock = .ok b' ∧
      (b.cachedCoinsUsage = usageSum usage b.cacheCoins →
        b'.cachedCoinsUsage = usageSum usage b'.cacheCoins) ∧
      FlagsRight b' (utxo db rest) ∧ utxo db (b' :: rest) = utxo db (cache :: b :: rest) ∧
      ∀ k e, b'.cacheCoins.lookup k = some e →
        b.cacheCoins.lookup k = some e ∨ ∃ child, cache.cacheCoins.lookup k = some child ∧
          e.coins = child.coins := by
  -- each child entry is right over what the parent shows, each parent entry over the rest
  have hkey : ∀ k child, cache.cacheCoins.lookup k = some child →
      ¬ Misapplied child (b.cacheCoins.lookup k) ∧
        (∀ e, mergeEntry child (b.cacheCoins.lookup k) = some e → EntryRight e (utxo db rest k)) ∧
        shows (mergeEntry child (b.cacheCoins.lookup k)) (utxo db rest k) = child.coins.unspent :=
    fun k child hc => mergeEntry_spec (by rw [← utxo_cons]; exact hF k child hc) (hb k)
  obtain ⟨b', hbw, hu, hget⟩ :=
    BatchWrite_spec usage b cache.cacheCoins cache.hashBlock fun k child hc => (hkey k child hc).1
  refine ⟨b', hbw, hu, fun k e he => ?_, funext fun k => ?_, fun k e he => ?_⟩
  · rw [hget k] at he
    cases hc : cache.cacheCoins.lookup k with
    | none =>
      rw [hc, Option.elim_none] at he
      exact hb k e he
    | some child =>
      rw [hc, Option.elim_some] at he
      exact (hkey k child hc).2.1 e he
  · rw [utxo_cons, utxo_cons, utxo_cons, hget k]
    cases hc : cache.cacheCoins.lookup k with
    | none => rfl
    | some child => rw [Option.elim_some, shows_some, (hkey k child hc).2.2]
  · rw [hget k] at he
    cases hc : cache.cacheCoins.lookup k with
    | none =>
      rw [hc, Option.elim_none] at he
      exact .inl he
    | some child =>
      rw [hc, Option.elim_some] at he
      rcases mergeEntry_eq_some he with h | h
      · exact .inr ⟨child, rfl, h⟩
      · exact .inl h

/-- Flushing a cache whose flags are right into the database: the records then show what the
cache showed. -/
theorem utxo_db_BatchWrite (hF : FlagsRight cache (utxo db [])) :
    utxo (db.BatchWrite cache.cacheCoins cache.hashBlock) [] = utxo db [cache] := by
  funext k
  rw [utxo_cons]
  change ((db.BatchWrite cache.cacheCoins cache.hashBlock).coins.lookup k).bind CCoins.unspent = _
  rw [lookup_db_BatchWrite]
  cases hc : cache.cacheCoins.lookup k with
  | none => rfl
  | some child => exact recordAfter_unspent (hF k child hc)

/-- A cache of cleaned-up entries written to a database of cleaned-up records leaves them so. -/
theorem records_BatchWrite (ht : Tidy db [cache]) :
    ∀ k coins, (db.BatchWrite cache.cacheCoins cache.hashBlock).GetCoins k = some coins →
      coins.Cleanup = coins := by
  intro k coins hk
  change (db.BatchWrite cache.cacheCoins cache.hashBlock).coins.lookup k = some coins at hk
  rw [lookup_db_BatchWrite] at hk
  cases hc : cache.cacheCoins.lookup k with
  | none =>
    rw [hc, Option.elim_none] at hk
    exact ht.records k coins hk
  | some child =>
    rw [hc, Option.elim_some, recordAfter] at hk
    split_ifs at hk
    · cases hk
      exact ht.entries cache List.mem_cons_self k child hc
    · exact ht.records k coins hk

/-- **`Flush`.**  A cache whose flags are right over a stack whose flags are right flushes without
throwing; what it showed is then shown by the level below it, whose flags are right, and the
levels further down are as they were. -/
theorem Flush_spec {base : List CCoinsViewCache} (hF : FlagsRight cache (utxo db base))
    (hI : FlagsInv db base) :
    ∃ db' base', Flush usage db cache base =
        .ok (db', { cache with cacheCoins := ∅, cachedCoinsUsage := 0 }, base') ∧
      FlagsInv db' base' ∧ utxos db' base' = utxo db (cache :: base) :: (utxos db base).tail ∧
      (Tidy db (cache :: base) → Tidy db' base') ∧ (UsageExact usage base → UsageExact usage base') := by
  cases base with
  | nil =>
    refine ⟨db.BatchWrite cache.cacheCoins cache.hashBlock, [], rfl, trivial, ?_, fun ht => ?_,
      fun _ c hc => nomatch hc⟩
    · rw [utxos, utxo_db_BatchWrite hF]
      rfl
    · exact ⟨records_BatchWrite ht, fun c hc => nomatch hc⟩
  | cons b rest =>
    obtain ⟨b', hbw, hu, hFb', hutxo, hfrom⟩ := BatchWrite_cache_spec usage hF hI.1
    refine ⟨db, b' :: rest, ?_, ⟨hFb', hI.2⟩, ?_, fun ht => ?_, fun hue => ?_⟩
    · simp only [Flush, BatchWrite, hbw]
      rfl
    · rw [utxos, hutxo]
      rfl
    · -- each entry of the base afterwards is its own or one of the flushed cache's
      refine ht.tail.tail.cons fun k e he => ?_
      rcases hfrom k e he with hb | ⟨child, hchild, hcoins⟩
      · exact ht.tail.entries b List.mem_cons_self k e hb
      · rw [hcoins]
        exact ht.entries cache List.mem_cons_self k child hchild
    · obtain ⟨hexact, hrest⟩ := (usageExact_cons usage).mp hue
      exact (usageExact_cons usage).mpr ⟨hu hexact, hrest⟩

end Flush

end CoinsStack

end Unitus
