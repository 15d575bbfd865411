import Unitus.AuxPow.Check

/-!
# Net — `CRollingBloomFilter`

`CRollingBloomFilter` (`bloom.h`, `bloom.cpp`) remembers the keys inserted last.  A cell of the
filter is two bits, one in each word of a pair `data[2j]`, `data[2j + 1]`: both clear is unset,
and `01`, `10`, `11` say that the cell was last set in generation `1`, `2` or `3`.  A generation
takes `nEntriesPerGeneration = (nElements + 1) / 2` insertions; the insertion that starts the
next one moves the generation number on (from `3` back to `1`) and clears every cell of that
number.  The cells of a key are picked by `nHashFuncs` hashes, `MurmurHash3` (`hash.cpp`) seeded
with the hash's number and the filter's `nTweak`.

The constructor computes `nHashFuncs` and `nFilterBits` from `fpRate` in floating point
(`log`, `round`, `ceil`, `exp`); the model takes the rounded hash count and `nFilterBits` as they
come out of it, so what is proved of the model holds for every value that code may produce.
`reset()` draws `nTweak` from `GetRand`; it is a parameter.  The `int` fields are integers here;
the counters stay within `int` whenever `nEntriesPerGeneration` is positive.
-/

namespace Unitus

/-! ### `MurmurHash3` -/

/-- `ROTL32(x, r)`. -/
def ROTL32 (x r : UInt32) : UInt32 := (x <<< r) ||| (x >>> (32 - r))

/-- The mixing of a block `k1` of `MurmurHash3`: `k1 *= c1; k1 = ROTL32(k1, 15); k1 *= c2`. -/
def murmurMix (k1 : UInt32) : UInt32 := ROTL32 (k1 * 0xcc9e2d51) 15 * 0x1b873593

/-- The body of `MurmurHash3`: every four-byte block, read little-endian, mixed into `h1`; the
tail of fewer than four bytes is left. -/
def murmurBlocks : UInt32 → List UInt8 → UInt32 × List UInt8
  | h1, b0 :: b1 :: b2 :: b3 :: rest =>
    let k1 := murmurMix (readLE32 [b0, b1, b2, b3])
    murmurBlocks (ROTL32 (h1 ^^^ k1) 13 * 5 + 0xe6546b64) rest
  | h1, tail => (h1, tail)

/-- The tail of `MurmurHash3`: the `switch (vDataToHash.size() & 3)`, whose cases fall through. -/
def murmurTail (h1 : UInt32) (tail : List UInt8) : UInt32 :=
  let k1 : UInt32 := 0
  let k1 := if tail.length = 3 then k1 ^^^ ((tail.getD 2 0).toUInt32 <<< 16) else k1
  let k1 := if tail.length ≥ 2 then k1 ^^^ ((tail.getD 1 0).toUInt32 <<< 8) else k1
  if tail.length ≥ 1 then h1 ^^^ murmurMix (k1 ^^^ (tail.getD 0 0).toUInt32) else h1

/-- `MurmurHash3(nHashSeed, vDataToHash)`, the x86 32-bit variant. -/
def MurmurHash3 (nHashSeed : UInt32) (vDataToHash : List UInt8) : UInt32 :=
  let h1 :=
    if vDataToHash.length > 0 then
      let body := murmurBlocks nHashSeed vDataToHash
      murmurTail body.1 body.2
    else nHashSeed
  -- finalization
  let h1 := h1 ^^^ vDataToHash.length.toUInt32
  let h1 := h1 ^^^ (h1 >>> 16)
  let h1 := h1 * 0x85ebca6b
  let h1 := h1 ^^^ (h1 >>> 13)
  let h1 := h1 * 0xc2b2ae35
  h1 ^^^ (h1 >>> 16)

example : MurmurHash3 0xFBA4C795 [] = 0x6a396f08 := by decide

example : MurmurHash3 0 [0x00, 0x11, 0x22, 0x33, 0x44] = 0xe2301fa8 := by decide

/-! ### The filter -/

/-- `RollingBloomHash(nHashNum, nTweak, vDataToHash)`. -/
def RollingBloomHash (nHashNum nTweak : UInt32) (vDataToHash : List UInt8) : UInt32 :=
  MurmurHash3 (nHashNum * 0xFBA4C795 + nTweak) vDataToHash

/-- The fields of a `CRollingBloomFilter`. -/
structure CRollingBloomFilter where
  nEntriesPerGeneration : Int
  nEntriesThisGeneration : Int
  nGeneration : Int
  data : List UInt64
  nTweak : UInt32
  nHashFuncs : Int
  deriving DecidableEq, Repr

namespace CRollingBloomFilter

/-- `CRollingBloomFilter::reset()`, with the tweak `GetRand` draws. -/
def reset (f : CRollingBloomFilter) (nTweak : UInt32) : CRollingBloomFilter :=
  { f with nTweak, nEntriesThisGeneration := 0, nGeneration := 1, data := f.data.map fun _ => 0 }

/-- `CRollingBloomFilter(nElements, fpRate)`, given `(int)round(logFpRate / log(0.5))` and
`nFilterBits`, which the source computes from `fpRate`, and the tweak of its `reset()`. -/
def construct (nElements : UInt32) (roundedHashFuncs : Int) (nFilterBits nTweak : UInt32) :
    CRollingBloomFilter :=
  reset
    { nEntriesPerGeneration := ((nElements + 1) / 2).toNat
      nEntriesThisGeneration := 0
      nGeneration := 0
      -- `data.resize(((nFilterBits + 63) / 64) << 1)`, from empty
      data := List.replicate (((nFilterBits + 63) / 64) <<< 1).toNat 0
      nTweak := 0
      -- the optimal number of hash functions, restricted to `1..50`
      nHashFuncs := max 1 (min roundedHashFuncs 50) }
    nTweak

/-- The loop over the word pairs that wipes the cells of a generation: a cell whose bits are
`nGenerationMask1`, `nGenerationMask2` in every place is cleared. -/
def wipe (nGenerationMask1 nGenerationMask2 : UInt64) : List UInt64 → List UInt64
  | p1 :: p2 :: rest =>
    let mask := (p1 ^^^ nGenerationMask1) ||| (p2 ^^^ nGenerationMask2)
    (p1 &&& mask) :: (p2 &&& mask) :: wipe nGenerationMask1 nGenerationMask2 rest
  | rest => rest

/-- The bit `h & 0x3F` of a hash `h`. -/
def bitOf (h : UInt32) : Nat := (h &&& 0x3F).toNat

/-- The word `pos = (h >> 6) % data.size()` of a hash `h`. -/
def posOf (data : List UInt64) (h : UInt32) : UInt32 :=
  UInt32.ofNat ((h >>> 6).toNat % data.length)

/-- One pass of `insert`'s loop over the hashes: set the cell of the hash `h` to the generation
`nGeneration`.  The lowest bit of `pos` picks the word of the pair. -/
def setCell (nGeneration : Int) (data : List UInt64) (h : UInt32) : List UInt64 :=
  let bit := bitOf h
  let pos := posOf data h
  -- `nGeneration & 1` and `nGeneration >> 1`
  let data := data.set (pos &&& ~~~1).toNat
    ((data.getD (pos &&& ~~~1).toNat 0 &&& ~~~((1 : UInt64) <<< bit.toUInt64)) |||
      (UInt64.ofInt (nGeneration % 2) <<< bit.toUInt64))
  data.set (pos ||| 1).toNat
    ((data.getD (pos ||| 1).toNat 0 &&& ~~~((1 : UInt64) <<< bit.toUInt64)) |||
      (UInt64.ofInt (nGeneration >>> 1) <<< bit.toUInt64))

/-- `CRollingBloomFilter::insert(vKey)`: start the next generation when this one is full, then
set the key's cells. -/
def insert (f : CRollingBloomFilter) (vKey : List UInt8) : CRollingBloomFilter :=
  let f :=
    if f.nEntriesThisGeneration = f.nEntriesPerGeneration then
      let nGeneration := if f.nGeneration + 1 = 4 then 1 else f.nGeneration + 1
      let nGenerationMask1 := -UInt64.ofInt (nGeneration % 2)
      let nGenerationMask2 := -UInt64.ofInt (nGeneration >>> 1)
      -- wipe old entries that used this generation number
      { f with nEntriesThisGeneration := 0, nGeneration,
               data := wipe nGenerationMask1 nGenerationMask2 f.data }
    else f
  { f with
    nEntriesThisGeneration := f.nEntriesThisGeneration + 1
    data := (List.range f.nHashFuncs.toNat).foldl
      (fun data n => setCell f.nGeneration data (RollingBloomHash (UInt32.ofNat n) f.nTweak vKey))
      f.data }

/-- `CRollingBloomFilter::contains(vKey)`: every cell of the key is set in one of its words. -/
def contains (f : CRollingBloomFilter) (vKey : List UInt8) : Bool :=
  (List.range f.nHashFuncs.toNat).all fun n =>
    let h := RollingBloomHash (UInt32.ofNat n) f.nTweak vKey
    let bit := bitOf h
    let pos := posOf f.data h
    (((f.data.getD (pos &&& ~~~1).toNat 0 ||| f.data.getD (pos ||| 1).toNat 0) >>>
      bit.toUInt64) &&& 1) != 0

end CRollingBloomFilter

end Unitus
