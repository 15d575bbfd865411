import Unitus.Primitives.Coins

/-!
# Coins — `CCoinsViewCache` over `CCoinsViewDB`

A `CCoinsViewCache` (`coins.h`, `coins.cpp`) keeps in `cacheCoins` the coins of the txids it has
looked up or changed, over a `base` view: another cache, or the coins database `CCoinsViewDB`
(`txdb.cpp`).  Each entry has two flags: `DIRTY`, it may differ from the base's version, and
`FRESH`, the base has no unspent coins for the txid.  `cachedCoinsUsage` counts the entries'
`DynamicMemoryUsage()`.

* `FetchCoins` copies an entry from the base, `FRESH` when the base's coins are pruned.
* `ModifyCoins` and `ModifyNewCoins` hand an entry to a `CCoinsModifier`.  Its destructor cleans
  the coins up, then erases the entry if it is `FRESH` and pruned, and otherwise counts its usage.
* `BatchWrite` merges a child cache's `DIRTY` entries into the cache, and throws if a `FRESH`
  entry meets unspent coins.
* `Flush` writes the cache into its base and empties it.
* `Uncache` drops an entry that carries no flag.

A stack of caches over a database is a `CoinsStack`, the top cache first.  A call on a cache
descends the rest of the stack, which is its `base`, so the virtual `base->GetCoins` and
`base->BatchWrite` are functions of the list.  The stack takes the steps `CoinsOp` lists.

What the model fixes:

* The database is modelled by the coins its records read back as.
* `DynamicMemoryUsage()` of a `CCoins` depends on the capacity of its vector, so it is a
  parameter `usage`.
* A caller's use of a `CCoinsModifier` is a function `edit` of the coins it points at, applied
  before the destructor runs.
* A `std::logic_error` is an error.
-/

namespace Unitus

namespace CCoins

/-- `CCoins()`: no outputs, not a coinbase, height and version `0`. -/
instance : Inhabited CCoins := ⟨⟨false, [], 0, 0⟩⟩

/-- `CCoins::Clear()`. -/
def Clear (_ : CCoins) : CCoins := default

/-- `operator==`: two pruned `CCoins` are always equal, others field by field. -/
def beq (a b : CCoins) : Bool :=
  (a.IsPruned && b.IsPruned) ||
    (a.fCoinBase == b.fCoinBase && a.nHeight == b.nHeight && a.nVersion == b.nVersion &&
      a.vout == b.vout)

end CCoins

/-- `CCoinsCacheEntry`: cached coins and their `flags`. -/
structure CCoinsCacheEntry where
  coins : CCoins
  flags : UInt8

namespace CCoinsCacheEntry

/-- `DIRTY`: the entry may differ from the version in the parent view. -/
def DIRTY : UInt8 := 1

/-- `FRESH`: the parent view does not have this entry, or has it pruned. -/
def FRESH : UInt8 := 2

/-- `flags & DIRTY`. -/
def isDirty (entry : CCoinsCacheEntry) : Bool := entry.flags &&& DIRTY != 0

/-- `flags & FRESH`. -/
def isFresh (entry : CCoinsCacheEntry) : Bool := entry.flags &&& FRESH != 0

end CCoinsCacheEntry

open CCoinsCacheEntry (DIRTY FRESH)

/-- `CCoinsMap`, an `unordered_map` from txids; its iteration order is the list's. -/
abbrev CCoinsMap := AList fun _ : Uint256 => CCoinsCacheEntry

/-! ### The database -/

/-- `CCoinsViewDB`: the `DB_COINS` records by txid, and the `DB_BEST_BLOCK` record. -/
structure CCoinsViewDB where
  coins : AList fun _ : Uint256 => CCoins
  bestBlock : Option Uint256

namespace CCoinsViewDB

/-- `CCoinsViewDB::GetCoins(txid, coins)`: the record, if there is one. -/
def GetCoins (db : CCoinsViewDB) (txid : Uint256) : Option CCoins := db.coins.lookup txid

/-- `CCoinsViewDB::GetBestBlock()`: the record, or `uint256()` without one. -/
def GetBestBlock (db : CCoinsViewDB) : Uint256 := db.bestBlock.getD default

/-- One entry of the loop of `CCoinsViewDB::BatchWrite`: a `DIRTY` entry's record erased when it
is pruned, written otherwise. -/
def batchWriteEntry (coins : AList fun _ : Uint256 => CCoins)
    (it : Sigma fun _ : Uint256 => CCoinsCacheEntry) : AList fun _ : Uint256 => CCoins :=
  if it.2.isDirty then
    if it.2.coins.IsPruned then coins.erase it.1 else coins.insert it.1 it.2.coins
  else coins

/-- `CCoinsViewDB::BatchWrite(mapCoins, hashBlock)`, the batch written at once. -/
def BatchWrite (db : CCoinsViewDB) (mapCoins : CCoinsMap) (hashBlock : Uint256) :
    CCoinsViewDB where
  coins := mapCoins.entries.foldl batchWriteEntry db.coins
  bestBlock := if !hashBlock.IsNull then some hashBlock else db.bestBlock

end CCoinsViewDB

/-! ### A cache -/

/-- The fields of a `CCoinsViewCache` but `base`, the rest of the stack, and `hasModifier`,
which is set only while a `CCoinsModifier` lives. -/
structure CCoinsViewCache where
  hashBlock : Uint256
  cacheCoins : CCoinsMap
  cachedCoinsUsage : Nat

/-- A `CCoinsModifier`: the txid of the cache entry it points at, the entry, and
`cachedCoinUsage`, the usage of the entry's coins that the cache counted when it was made. -/
structure CCoinsModifier where
  txid : Uint256
  entry : CCoinsCacheEntry
  cachedCoinUsage : Nat

namespace CCoinsViewCache

variable (usage : CCoins → Nat)

/-- `CCoinsViewCache(baseIn)`: nothing cached. -/
def init : CCoinsViewCache := ⟨default, ∅, 0⟩

/-- The end of `FetchCoins`, once the base has returned `tmp`: a new entry for it, `FRESH` when
it is pruned, and its usage counted. -/
def fetched (cache : CCoinsViewCache) (txid : Uint256) (tmp : CCoins) : CCoinsViewCache :=
  { cache with
    cacheCoins := cache.cacheCoins.insert txid ⟨tmp, if tmp.IsPruned then FRESH else 0⟩
    cachedCoinsUsage := cache.cachedCoinsUsage + usage tmp }

/-- `~CCoinsModifier()` for the modifier `m` of this cache: the coins cleaned up and the old
usage taken off; then the entry erased if it is `FRESH` and pruned, and otherwise written back
with its new usage counted. -/
def destructor (cache : CCoinsViewCache) (m : CCoinsModifier) : CCoinsViewCache :=
  let coins := m.entry.coins.Cleanup
  let cachedCoinsUsage := cache.cachedCoinsUsage - m.cachedCoinUsage
  if m.entry.isFresh && coins.IsPruned then
    { cache with cacheCoins := cache.cacheCoins.erase m.txid, cachedCoinsUsage }
  else
    { cache with
      cacheCoins := cache.cacheCoins.insert m.txid ⟨coins, m.entry.flags⟩
      cachedCoinsUsage := cachedCoinsUsage + usage coins }

/-- `ModifyNewCoins(txid, coinbase)`: the entry, new or found, cleared and `DIRTY`, and `FRESH`
as well for a non-coinbase whose entry was not `DIRTY`; a non-coinbase that finds unspent coins
in the cache throws.  The modifier starts from a usage of `0`. -/
def ModifyNewCoins (cache : CCoinsViewCache) (txid : Uint256) (coinbase : Bool) :
    Except String (CCoinsModifier × CCoinsViewCache) :=
  -- `cacheCoins.insert(std::make_pair(txid, CCoinsCacheEntry()))` finds or makes the entry
  let entry := (cache.cacheCoins.lookup txid).getD ⟨default, 0⟩
  if !coinbase && !entry.coins.IsPruned then
    .error "ModifyNewCoins should not find pre-existing coins on a non-coinbase unless they are pruned!"
  else
    let flags :=
      if !coinbase && entry.flags &&& DIRTY == 0 then entry.flags ||| FRESH else entry.flags
    let entry : CCoinsCacheEntry := ⟨entry.coins.Clear, flags ||| DIRTY⟩
    .ok (⟨txid, entry, 0⟩, { cache with cacheCoins := cache.cacheCoins.insert txid entry })

/-- `SetBestBlock(hashBlockIn)`. -/
def SetBestBlock (cache : CCoinsViewCache) (hashBlockIn : Uint256) : CCoinsViewCache :=
  { cache with hashBlock := hashBlockIn }

/-- `HaveCoinsInCache(txid)`. -/
def HaveCoinsInCache (cache : CCoinsViewCache) (txid : Uint256) : Bool :=
  (cache.cacheCoins.lookup txid).isSome

/-- `GetCacheSize()`. -/
def GetCacheSize (cache : CCoinsViewCache) : Nat := cache.cacheCoins.entries.length

/-- One entry `it` of the loop of `CCoinsViewCache::BatchWrite`, for a `DIRTY` one. -/
def batchWriteDirty (cache : CCoinsViewCache) (it : Sigma fun _ : Uint256 => CCoinsCacheEntry) :
    Except String CCoinsViewCache :=
  match cache.cacheCoins.lookup it.1 with
  | none =>
    -- the parent has no entry: it needs none if the child's is `FRESH` and pruned
    if !(it.2.isFresh && it.2.coins.IsPruned) then
      let flags := if it.2.isFresh then DIRTY ||| FRESH else DIRTY
      .ok { cache with
        cacheCoins := cache.cacheCoins.insert it.1 ⟨it.2.coins, flags⟩
        cachedCoinsUsage := cache.cachedCoinsUsage + usage it.2.coins }
    else .ok cache
  | some ours =>
    if it.2.isFresh && !ours.coins.IsPruned then
      .error "FRESH flag misapplied to cache entry for base transaction with spendable outputs"
    else if ours.isFresh && it.2.coins.IsPruned then
      -- the grandparent has no entry and the child prunes it: the parent forgets it
      .ok { cache with
        cachedCoinsUsage := cache.cachedCoinsUsage - usage ours.coins
        cacheCoins := cache.cacheCoins.erase it.1 }
    else
      -- a normal modification; the child's `FRESH` is not copied up
      .ok { cache with
        cachedCoinsUsage := cache.cachedCoinsUsage - usage ours.coins + usage it.2.coins
        cacheCoins := cache.cacheCoins.insert it.1 ⟨it.2.coins, ours.flags ||| DIRTY⟩ }

/-- One entry `it` of the loop of `CCoinsViewCache::BatchWrite`: non-`DIRTY` ones are ignored. -/
def batchWriteEntry (cache : CCoinsViewCache) (it : Sigma fun _ : Uint256 => CCoinsCacheEntry) :
    Except String CCoinsViewCache :=
  if it.2.isDirty then batchWriteDirty usage cache it else .ok cache

/-- `CCoinsViewCache::BatchWrite(mapCoins, hashBlockIn)`. -/
def BatchWrite (cache : CCoinsViewCache) (mapCoins : CCoinsMap) (hashBlockIn : Uint256) :
    Except String CCoinsViewCache := do
  let cache ← mapCoins.entries.foldlM (batchWriteEntry usage) cache
  pure { cache with hashBlock := hashBlockIn }

/-- `Uncache(hash)`: an entry with no flag set dropped, and its usage taken off. -/
def Uncache (cache : CCoinsViewCache) (hash : Uint256) : CCoinsViewCache :=
  match cache.cacheCoins.lookup hash with
  | some entry =>
    if entry.flags == 0 then
      { cache with
        cachedCoinsUsage := cache.cachedCoinsUsage - usage entry.coins
        cacheCoins := cache.cacheCoins.erase hash }
    else cache
  | none => cache

end CCoinsViewCache

/-! ### A stack of caches over the database -/

/-- The database and the caches stacked on it, the top one first: each cache's `base` is the
rest of the list, the last one's the database. -/
structure CoinsStack where
  db : CCoinsViewDB
  caches : List CCoinsViewCache

namespace CoinsStack

variable (usage : CCoins → Nat)

/-- `GetCoins(txid, coins)` of the view made of `caches` over `db`: for a cache, its
`FetchCoins`, which asks its base on a miss and keeps a copy of what it returns; for the
database, the record.  Returns the coins and the caches as the lookup leaves them. -/
def GetCoins (db : CCoinsViewDB) : List CCoinsViewCache → Uint256 →
    Option CCoins × List CCoinsViewCache
  | [], txid => (db.GetCoins txid, [])
  | cache :: base, txid =>
    match cache.cacheCoins.lookup txid with
    | some entry => (some entry.coins, cache :: base)
    | none =>
      match GetCoins db base txid with
      | (none, base) => (none, cache :: base)
      | (some tmp, base) => (some tmp, cache.fetched usage txid tmp :: base)

/-- `AccessCoins(txid)` of the top cache: the coins `FetchCoins` found, `none` for `NULL`.  It
is `GetCoins` without the copy. -/
def AccessCoins (db : CCoinsViewDB) (caches : List CCoinsViewCache) (txid : Uint256) :
    Option CCoins × List CCoinsViewCache :=
  GetCoins usage db caches txid

/-- `HaveCoins(txid)` of the top cache: `FetchCoins` found coins with outputs. -/
def HaveCoins (db : CCoinsViewDB) (caches : List CCoinsViewCache) (txid : Uint256) :
    Bool × List CCoinsViewCache :=
  match GetCoins usage db caches txid with
  | (some coins, caches) => (!coins.vout.isEmpty, caches)
  | (none, caches) => (false, caches)

/-- `GetBestBlock()` of the view made of `caches` over `db`: a cache asks its base while its own
`hashBlock` is null, and keeps the answer. -/
def GetBestBlock (db : CCoinsViewDB) : List CCoinsViewCache → Uint256 × List CCoinsViewCache
  | [] => (db.GetBestBlock, [])
  | cache :: base =>
    if cache.hashBlock.IsNull then
      match GetBestBlock db base with
      | (hashBlock, base) => (hashBlock, { cache with hashBlock := hashBlock } :: base)
    else (cache.hashBlock, cache :: base)

/-- `ModifyCoins(txid)` of `cache` over `base`: the entry found, or a new one that the base
fills, `FRESH` when the base has no coins or pruned ones; made `DIRTY` and handed to a modifier
that remembers the usage counted for a found entry. -/
def ModifyCoins (db : CCoinsViewDB) (cache : CCoinsViewCache) (base : List CCoinsViewCache)
    (txid : Uint256) : CCoinsModifier × CCoinsViewCache × List CCoinsViewCache :=
  let (entry, cachedCoinUsage, base) : CCoinsCacheEntry × Nat × List CCoinsViewCache :=
    match cache.cacheCoins.lookup txid with
    | some entry => (entry, usage entry.coins, base)
    | none =>
      match GetCoins usage db base txid with
      -- the parent view does not have this entry: `Clear()`, `FRESH`
      | (none, base) => (⟨default, FRESH⟩, 0, base)
      | (some coins, base) => (⟨coins, if coins.IsPruned then FRESH else 0⟩, 0, base)
  let entry := { entry with flags := entry.flags ||| DIRTY }
  (⟨txid, entry, cachedCoinUsage⟩, { cache with cacheCoins := cache.cacheCoins.insert txid entry },
    base)

/-- `base->BatchWrite(mapCoins, hashBlock)` for the view made of `caches` over `db`. -/
def BatchWrite (db : CCoinsViewDB) : List CCoinsViewCache → CCoinsMap → Uint256 →
    Except String (CCoinsViewDB × List CCoinsViewCache)
  | [], mapCoins, hashBlock => .ok (db.BatchWrite mapCoins hashBlock, [])
  | cache :: base, mapCoins, hashBlock => do
    let cache ← cache.BatchWrite usage mapCoins hashBlock
    pure (db, cache :: base)

/-- `Flush()` of `cache` over `base`: its entries written into the base, then none left. -/
def Flush (db : CCoinsViewDB) (cache : CCoinsViewCache) (base : List CCoinsViewCache) :
    Except String (CCoinsViewDB × CCoinsViewCache × List CCoinsViewCache) := do
  let (db, base) ← BatchWrite usage db base cache.cacheCoins cache.hashBlock
  pure (db, { cache with cacheCoins := ∅, cachedCoinsUsage := 0 }, base)

end CoinsStack

/-- What is done to a stack of caches.

* A change through a `CCoinsModifier` of the top cache, made by `ModifyCoins` or
  `ModifyNewCoins`, with the caller's `edit` of the coins.
* A lookup in cache `i` from the top.  `GetCoins`, `AccessCoins` and `HaveCoins` all make it,
  by `FetchCoins`.
* An `Uncache` or a `Flush` of cache `i`.
* A new cache pushed on top (`push`), the top one flushed and deleted (`pop`), or the top one
  deleted unflushed (`discard`). -/
inductive CoinsOp
  | ModifyCoins (txid : Uint256) (edit : CCoins → CCoins)
  | ModifyNewCoins (txid : Uint256) (coinbase : Bool) (edit : CCoins → CCoins)
  | FetchCoins (i : Nat) (txid : Uint256)
  | Uncache (i : Nat) (txid : Uint256)
  | Flush (i : Nat)
  | push
  | pop
  | discard

namespace CoinsStack

variable (usage : CCoins → Nat)

/-- The modifier `m`, with its coins edited by `edit`, destroyed. -/
def release (cache : CCoinsViewCache) (m : CCoinsModifier) (edit : CCoins → CCoins) :
    CCoinsViewCache :=
  cache.destructor usage { m with entry.coins := edit m.entry.coins }

/-- One operation on the stack; an operation on a cache the stack does not have fails. -/
def step : CoinsOp → CoinsStack → Except String CoinsStack
  | .ModifyCoins txid edit, ⟨db, cache :: base⟩ =>
    match ModifyCoins usage db cache base txid with
    | (m, cache, base) => .ok ⟨db, release usage cache m edit :: base⟩
  | .ModifyNewCoins txid coinbase edit, ⟨db, cache :: base⟩ => do
    let (m, cache) ← cache.ModifyNewCoins txid coinbase
    pure ⟨db, release usage cache m edit :: base⟩
  | .FetchCoins i txid, ⟨db, caches⟩ =>
    .ok ⟨db, caches.take i ++ (GetCoins usage db (caches.drop i) txid).2⟩
  | .Uncache i txid, ⟨db, caches⟩ =>
    match caches.drop i with
    | cache :: base => .ok ⟨db, caches.take i ++ cache.Uncache usage txid :: base⟩
    | [] => .ok ⟨db, caches⟩
  | .Flush i, ⟨db, caches⟩ =>
    match caches.drop i with
    | cache :: base => do
      let (db, cache, base) ← Flush usage db cache base
      pure ⟨db, caches.take i ++ cache :: base⟩
    | [] => .error "no such cache"
  | .push, ⟨db, caches⟩ => .ok ⟨db, CCoinsViewCache.init :: caches⟩
  | .pop, ⟨db, cache :: base⟩ => do
    let (db, _, base) ← Flush usage db cache base
    pure ⟨db, base⟩
  | .discard, ⟨db, _ :: base⟩ => .ok ⟨db, base⟩
  | _, ⟨_, []⟩ => .error "no such cache"

end CoinsStack

end Unitus
