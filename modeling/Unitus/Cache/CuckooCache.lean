import Unitus.Lib.Rounding

/-!
# Cache — `CuckooCache::cache`

`cache<Element, Hash>` (`cuckoocache.h`) keeps elements in a table of `size` slots, `size` a
power of two.  Each slot has a garbage-collection flag (`collection_flags`; set: the slot may be
overwritten) and an epoch flag (`epoch_flags`; set: written in the current epoch).  `insert`
puts an element into one of the eight slots its hashes pick (`compute_hashes`), moving the
elements it finds there cuckoo-style for up to `depth_limit` rounds and dropping the one it holds
at the end; `contains` looks at the same eight slots; `epoch_check`, run before every insert,
ages the epochs and lets the old one be collected.

`setup(n)` sizes the table from `std::log2` of `n` as a `float`.  Floats are the rationals they
stand for: the conversion of the `uint32_t` is `roundBits 24`, and `std::log2` on `float` is a
parameter.  `1 << depth_limit` is a shift of the `int` `1`: by `32` or more it is undefined, an
error here; by `31` it gives `INT_MIN`, which converts to the `uint32_t` `2^31`.

The hash functor is a parameter `hash_function`, its eight `operator()<N>`; `Element()` is
`default`.  `bit_packed_atomic_flags` is a list of bits, padded to whole bytes as in the source;
on one thread its relaxed atomics are plain reads and writes.
-/

namespace Unitus

namespace CuckooCache

/-- The fields of a `cache<Element, Hash>` but `hash_function`, which the operations take. -/
structure cache (Element : Type) where
  table : List Element
  size : UInt32
  collection_flags : List Bool
  epoch_flags : List Bool
  epoch_heuristic_counter : UInt32
  epoch_size : UInt32
  hash_mask : UInt32
  depth_limit : UInt8
  deriving Repr

/-- `static_cast<float>` of a `uint32_t`: to nearest with a 24-bit significand. -/
def toFloat (n : UInt32) : ℚ := Rounding.roundBits 24 n.toNat

/-- `static_cast<uint8_t>` of a `float`: truncated toward zero, undefined out of range. -/
def floatToUInt8 (f : ℚ) : Except String UInt8 :=
  if f ≤ -1 ∨ 256 ≤ f then .error "static_cast<uint8_t>: float out of range"
  else .ok (UInt8.ofNat ⌊f⌋.toNat)

namespace cache

variable {Element : Type} [Inhabited Element] [DecidableEq Element]

/-- `setup(new_size)` on a cache as constructed, whose vectors are empty, with `log2f` for
`std::log2` on `float`. -/
def setup (log2f : ℚ → ℚ) (new_size : UInt32) : Except String (cache Element) := do
  -- depth_limit must be at least one otherwise errors can occur
  let depth_limit ← floatToUInt8 (log2f (toFloat (max 2 new_size)))
  if depth_limit.toNat ≥ 32 then throw "1 << depth_limit: shift by 32 or more"
  let size : UInt32 := UInt32.ofNat (2 ^ depth_limit.toNat)
  -- set to 45% as described above
  let epoch_size : UInt32 := max 1 ((45 * size) / 100)
  pure
    { table := List.replicate size.toNat default
      size
      -- `bit_packed_atomic_flags(size)`: `(size + 7) / 8` bytes of `0xFF`
      collection_flags := List.replicate ((size.toNat + 7) / 8 * 8) true
      epoch_flags := List.replicate size.toNat false
      -- initially set to wait for a whole epoch
      epoch_heuristic_counter := epoch_size
      epoch_size
      hash_mask := size - 1
      depth_limit }

/-- `compute_hashes(e)`: the eight slots of `e`. -/
def compute_hashes (hash_function : Fin 8 → Element → UInt32) (c : cache Element)
    (e : Element) : List UInt32 :=
  (List.finRange 8).map fun i => hash_function i e &&& c.hash_mask

/-- `collection_flags.bit_is_set(s)`. -/
def bit_is_set (c : cache Element) (s : UInt32) : Bool := c.collection_flags.getD s.toNat false

/-- `allow_erase(n)`: `collection_flags.bit_set(n)`. -/
def allow_erase (c : cache Element) (n : UInt32) : cache Element :=
  { c with collection_flags := c.collection_flags.set n.toNat true }

/-- `please_keep(n)`: `collection_flags.bit_unset(n)`. -/
def please_keep (c : cache Element) (n : UInt32) : cache Element :=
  { c with collection_flags := c.collection_flags.set n.toNat false }

/-- The loop of `epoch_check` that ages the epochs: a slot of the current epoch moves to the old
one, a slot of the old one may be collected. -/
def ageEpochs (c : cache Element) : List Nat → cache Element
  | [] => c
  | i :: is =>
    let c :=
      if c.epoch_flags.getD i false then { c with epoch_flags := c.epoch_flags.set i false }
      else c.allow_erase i.toUInt32
    ageEpochs c is

/-- `epoch_check()`. -/
def epoch_check (c : cache Element) : cache Element :=
  if c.epoch_heuristic_counter ≠ 0 then
    { c with epoch_heuristic_counter := c.epoch_heuristic_counter - 1 }
  else
    -- count the number of elements from the latest epoch which have not been erased
    let epoch_unused_count : UInt32 := (List.range c.size.toNat).foldl
      (fun n i => n + if c.epoch_flags.getD i false && !c.bit_is_set i.toUInt32 then 1 else 0) 0
    if epoch_unused_count ≥ c.epoch_size then
      { ageEpochs c (List.range c.size.toNat) with epoch_heuristic_counter := c.epoch_size }
    else
      -- next scan when the worst case would exceed the epoch size
      { c with
        epoch_heuristic_counter :=
          max 1 (max (c.epoch_size / 16) (c.epoch_size - epoch_unused_count)) }

/-- `invalid()`: `~(uint32_t)0`, an index that can never be inserted to. -/
def invalid : UInt32 := ~~~0

/-- The rounds `for (depth = 0; depth < depth_limit; ++depth)` of `insert`, `fuel` of them left,
holding `e`, with the slot `last_loc` it last swapped at, the epoch flag `last_epoch` that goes
with `e`, and `e`'s slots `locs`.  When the rounds run out, `e` is dropped. -/
def insertLoop (hash_function : Fin 8 → Element → UInt32) :
    Nat → cache Element → Element → UInt32 → Bool → List UInt32 → cache Element
  | 0, c, _, _, _, _ => c
  | fuel + 1, c, e, last_loc, last_epoch, locs =>
    -- first try to insert to an empty slot, if one exists
    match locs.find? c.bit_is_set with
    | some loc =>
      { c.please_keep loc with
        table := c.table.set loc.toNat e
        epoch_flags := c.epoch_flags.set loc.toNat last_epoch }
    | none =>
      -- swap with the slot after the one last looked at: `std::find` gives `8` when
      -- `last_loc` is not among `locs`
      let last_loc := locs.getD ((1 + locs.idxOf last_loc) % 8) 0
      let evicted := c.table.getD last_loc.toNat default
      -- the epoch flags are swapped along with the elements
      let evicted_epoch := c.epoch_flags.getD last_loc.toNat false
      let c :=
        { c with
          table := c.table.set last_loc.toNat e
          epoch_flags := c.epoch_flags.set last_loc.toNat last_epoch }
      insertLoop hash_function fuel c evicted last_loc evicted_epoch
        (c.compute_hashes hash_function evicted)

/-- `insert(e)`. -/
def insert (hash_function : Fin 8 → Element → UInt32) (c : cache Element) (e : Element) :
    cache Element :=
  let c := c.epoch_check
  let locs := c.compute_hashes hash_function e
  -- make sure we have not already inserted this element; if we have, make sure that it does not
  -- get deleted
  match locs.find? (fun loc => c.table.getD loc.toNat default = e) with
  | some loc => { c.please_keep loc with epoch_flags := c.epoch_flags.set loc.toNat true }
  | none => insertLoop hash_function c.depth_limit.toNat c e invalid true locs

/-- `contains(e, erase)`: whether `e` is in one of its slots, and the cache after, whose
`collection_flags` are `mutable`. -/
def contains (hash_function : Fin 8 → Element → UInt32) (c : cache Element) (e : Element)
    (erase : Bool) : Bool × cache Element :=
  match (c.compute_hashes hash_function e).find? (fun loc => c.table.getD loc.toNat default = e) with
  | some loc => (true, if erase then c.allow_erase loc else c)
  | none => (false, c)

end cache

end CuckooCache

end Unitus
