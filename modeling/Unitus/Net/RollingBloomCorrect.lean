import Unitus.Net.RollingBloom
import Unitus.Lib.Bytes

/-!
# Net — the rolling filter remembers its last `nElements` keys

A cell is read as a pair of bits (`cell`), one from each word of a pair.  One pass of
`insert`'s loop writes the generation's bits into one cell and no other (`cell_setCell`); the
wipe that starts a generation clears exactly the cells holding its number (`cell_wipe`);
`contains` holds when every cell of the key is set (`contains_iff`).

Over a run the filter keeps three generations of keys (`Gens`): the cells of the current one
hold its number, those of the one before hold that or the current number, and those of the
one before that are set (`Keeps`); `insert` keeps this, with or without a new generation
(`Keeps.insert`).  The generations are the last keys inserted since `reset()`, all of them until
two generations are full (`Window`).  The main result:

* **`CRollingBloomFilter_contains_last`**: after any `insert` and `reset` calls, `contains`
  holds for each of the last `nElements` keys inserted since the last `reset()`.

Two generations hold `nElements` keys when `nEntriesPerGeneration = (nElements + 1) / 2` is
positive.  It is zero only when the `unsigned int` sum wraps, at `nElements = 2^32 - 1`; the
filter then starts one generation at its first insertion and never another, and keeps every key.
-/

namespace Unitus

namespace CRollingBloomFilter

/-! ### Cells -/

/-- Bit `b` of word `i` of `data`, clear past the end. -/
def wordBit (data : List UInt64) (i b : Nat) : Bool := (data.getD i 0).toBitVec.getLsbD b

/-- The cell `(j, b)`: bit `b` of the words `2j` and `2j + 1`. -/
def cell (data : List UInt64) (c : Nat × Nat) : Bool × Bool :=
  (wordBit data (2 * c.1) c.2, wordBit data (2 * c.1 + 1) c.2)

/-- The cell the hash `h` picks. -/
def cellOf (data : List UInt64) (h : UInt32) : Nat × Nat := ((posOf data h).toNat / 2, bitOf h)

/-- The bits of generation `nGeneration` in a cell: `nGeneration & 1`, `nGeneration >> 1`. -/
def genBits (nGeneration : Int) : Bool × Bool :=
  (decide (nGeneration % 2 = 1), decide (nGeneration >>> 1 = 1))

/-- A generation number. -/
def IsGen (g : Int) : Prop := g = 1 ∨ g = 2 ∨ g = 3

instance (g : Int) : Decidable (IsGen g) := inferInstanceAs (Decidable (g = 1 ∨ g = 2 ∨ g = 3))

/-- The words after the constructor: a positive, even number of them, fewer than `2^32`. -/
structure Shape (data : List UInt64) : Prop where
  pos : 0 < data.length
  even : data.length % 2 = 0
  lt : data.length < 2 ^ 32

theorem genBits_ne_unset {g : Int} (hg : IsGen g) : genBits g ≠ (false, false) := by
  rcases hg with rfl | rfl | rfl <;> decide

theorem ofInt_mod_two {g : Int} (hg : IsGen g) :
    UInt64.ofInt (g % 2) = if (genBits g).1 then 1 else 0 := by
  rcases hg with rfl | rfl | rfl <;> decide

theorem ofInt_shiftRight_one {g : Int} (hg : IsGen g) :
    UInt64.ofInt (g >>> 1) = if (genBits g).2 then 1 else 0 := by
  rcases hg with rfl | rfl | rfl <;> decide

theorem bitOf_lt (h : UInt32) : bitOf h < 64 := by
  rw [bitOf, UInt32.toNat_and, show (0x3F : UInt32).toNat = 2 ^ 6 - 1 by rfl,
    Nat.and_two_pow_sub_one_eq_mod]
  exact Nat.mod_lt _ (by norm_num)

theorem toNat_posOf {data : List UInt64} (hs : Shape data) (h : UInt32) :
    (posOf data h).toNat = (h >>> 6).toNat % data.length := by
  rw [posOf, UInt32.toNat_ofNat', Nat.mod_eq_of_lt]
  exact lt_trans (Nat.mod_lt _ hs.pos) hs.lt

/-- The pair of words of a hash's cell lies in `data`. -/
theorem cellOf_lt {data : List UInt64} (hs : Shape data) (h : UInt32) :
    2 * (cellOf data h).1 + 1 < data.length := by
  have hpos : (posOf data h).toNat < data.length := by
    rw [toNat_posOf hs]
    exact Nat.mod_lt _ hs.pos
  have := hs.even
  simp only [cellOf]
  omega

/-! ### One write -/

theorem getD_set_eq {data : List UInt64} {i : Nat} (hi : i < data.length) (w : UInt64) (k : Nat) :
    (data.set i w).getD k 0 = if k = i then w else data.getD k 0 := by
  simp only [List.getD_eq_getElem?_getD, List.getElem?_set]
  by_cases hk : k = i
  · subst hk
    simp [hi]
  · simp [Ne.symm hk, hk]

theorem getLsbD_zero_ofBool (t : Bool) : (if t then 1 else 0 : UInt64).toBitVec.getLsbD 0 = t := by
  cases t <;> rfl

theorem ofBool_le_one (t : Bool) : (if t then 1 else 0 : UInt64) ≤ 1 := by
  cases t <;> decide

/-- The new word of a cell write: bit `b` of `w` replaced by `t`. -/
def setBit (w : UInt64) (b : Nat) (t : Bool) : UInt64 :=
  (w &&& ~~~((1 : UInt64) <<< b.toUInt64)) ||| ((if t then 1 else 0) <<< b.toUInt64)

theorem getLsbD_setBit (w : UInt64) {b i : Nat} (t : Bool) (hb : b < 64) (hi : i < 64) :
    (setBit w b t).toBitVec.getLsbD i = if i = b then t else w.toBitVec.getLsbD i := by
  rw [setBit, UInt64.getLsbD_set _ _ (ofBool_le_one t) hb hi, getLsbD_zero_ofBool]

/-- The words after `setCell`: the pair of the hash's cell gets the generation's bits. -/
theorem getD_setCell {data : List UInt64} (hs : Shape data) {g : Int} (hg : IsGen g)
    (h : UInt32) (k : Nat) :
    (setCell g data h).getD k 0 =
      if k = 2 * (cellOf data h).1 + 1 then
        setBit (data.getD k 0) (bitOf h) (genBits g).2
      else if k = 2 * (cellOf data h).1 then
        setBit (data.getD k 0) (bitOf h) (genBits g).1
      else data.getD k 0 := by
  have hlt := cellOf_lt hs h
  have hj : (posOf data h).toNat / 2 = (cellOf data h).1 := rfl
  simp only [setCell, UInt32.toNat_and_not_one, UInt32.toNat_or_one, hj,
    ofInt_mod_two hg, ofInt_shiftRight_one hg]
  -- the second write, at `2j + 1`, reads the first word it does not change
  rw [getD_set_eq (by rw [List.length_set]; omega)]
  by_cases hk1 : k = 2 * (cellOf data h).1 + 1
  · rw [if_pos hk1, if_pos hk1, getD_set_eq (by omega), if_neg (by omega), hk1]
    rfl
  · rw [if_neg hk1, if_neg hk1, getD_set_eq (by omega)]
    by_cases hk0 : k = 2 * (cellOf data h).1
    · rw [if_pos hk0, if_pos hk0, hk0]
      rfl
    · rw [if_neg hk0, if_neg hk0]

/-- **One write.** A cell write gives the hash's cell the generation's bits and keeps every
other bit. -/
theorem cell_setCell {data : List UInt64} (hs : Shape data) {g : Int} (hg : IsGen g)
    (h : UInt32) (c : Nat × Nat) :
    cell (setCell g data h) c = if c = cellOf data h then genBits g else cell data c := by
  have hb := bitOf_lt h
  obtain ⟨j, b⟩ := c
  by_cases hbit : b < 64
  · simp only [cell, wordBit, getD_setCell hs hg]
    by_cases hj : j = (cellOf data h).1
    · subst hj
      rw [if_pos rfl, if_neg (by omega), if_pos rfl, getLsbD_setBit _ _ hb hbit,
        getLsbD_setBit _ _ hb hbit]
      by_cases hib : b = bitOf h
      · simp [hib, cellOf]
      · simp [hib, cellOf]
    · rw [if_neg (by omega), if_neg (by omega), if_neg (by omega), if_neg (by omega),
        if_neg (by simp [cellOf] at hj ⊢; omega)]
  · -- past the word width every bit reads clear, and no hash picks such a cell
    have hclear : ∀ w : UInt64, w.toBitVec.getLsbD b = false :=
      fun w => BitVec.getLsbD_of_ge _ _ (by omega)
    rw [if_neg (by simp [cellOf]; omega)]
    simp [cell, wordBit, hclear]

/-! ### The wipe -/

theorem cell_cons_cons_zero (p1 p2 : UInt64) (rest : List UInt64) (b : Nat) :
    cell (p1 :: p2 :: rest) (0, b) = (p1.toBitVec.getLsbD b, p2.toBitVec.getLsbD b) := rfl

theorem cell_cons_cons_succ (p1 p2 : UInt64) (rest : List UInt64) (j b : Nat) :
    cell (p1 :: p2 :: rest) (j + 1, b) = cell rest (j, b) := by
  simp only [cell, wordBit, show 2 * (j + 1) = 2 * j + 1 + 1 by omega, List.getD_cons_succ]

theorem cell_nil (c : Nat × Nat) : cell [] c = (false, false) := by
  simp [cell, wordBit]

/-- The wipe on one cell: the bits `(a, b)` are cleared when they are the masks' `(x, y)`. -/
theorem wipe_bits (a b x y : Bool) :
    ((a && ((a ^^ x) || (b ^^ y))), (b && ((a ^^ x) || (b ^^ y)))) =
      if (a, b) = (x, y) then (false, false) else (a, b) := by
  cases a <;> cases b <;> cases x <;> cases y <;> decide

/-- **The wipe.** Starting generation `g` clears exactly the cells that hold `g`'s bits. -/
theorem cell_wipe {g : Int} (hg : IsGen g) :
    ∀ (data : List UInt64), data.length % 2 = 0 → ∀ c : Nat × Nat,
      cell (wipe (-UInt64.ofInt (g % 2)) (-UInt64.ofInt (g >>> 1)) data) c =
        if cell data c = genBits g then (false, false) else cell data c
  | [], _, c => by
    simp only [wipe, cell_nil]
    split <;> rfl
  | [_], hlen, _ => by simp at hlen
  | p1 :: p2 :: rest, hlen, (j + 1, b) => by
    rw [wipe, cell_cons_cons_succ, cell_cons_cons_succ,
      cell_wipe hg rest (by simp at hlen; omega) (j, b)]
  | p1 :: p2 :: rest, _, (0, b) => by
    rw [wipe, cell_cons_cons_zero, cell_cons_cons_zero]
    by_cases hb : b < 64
    · -- each bit of a mask is the generation's bit
      simp only [UInt64.toBitVec_and, UInt64.toBitVec_or, UInt64.toBitVec_xor,
        BitVec.getLsbD_and, BitVec.getLsbD_or, BitVec.getLsbD_xor, ofInt_mod_two hg,
        ofInt_shiftRight_one hg, UInt64.getLsbD_neg_ofBool _ hb]
      exact wipe_bits _ _ _ _
    · have hclear : ∀ w : UInt64, w.toBitVec.getLsbD b = false :=
        fun w => BitVec.getLsbD_of_ge _ _ (by omega)
      rw [hclear, hclear, hclear, hclear, if_neg (Ne.symm (genBits_ne_unset hg))]

/-! ### Reading and writing a key -/

theorem length_setCell (g : Int) (data : List UInt64) (h : UInt32) :
    (setCell g data h).length = data.length := by
  simp [setCell]

theorem length_wipe (m1 m2 : UInt64) : ∀ data : List UInt64, (wipe m1 m2 data).length = data.length
  | [] | [_] => rfl
  | _ :: _ :: rest => by simp [wipe, length_wipe m1 m2 rest]

theorem Shape.of_length {data data' : List UInt64} (hs : Shape data)
    (hlen : data'.length = data.length) : Shape data' :=
  ⟨hlen ▸ hs.pos, hlen ▸ hs.even, hlen ▸ hs.lt⟩

/-- A hash picks its cell from the number of words only. -/
theorem cellOf_of_length {data data' : List UInt64} (hlen : data'.length = data.length)
    (h : UInt32) : cellOf data' h = cellOf data h := by
  simp [cellOf, posOf, hlen]

/-- The cells of a key: one for each of the `nHashFuncs` hashes. -/
def cellsOf (f : CRollingBloomFilter) (vKey : List UInt8) : List (Nat × Nat) :=
  (List.range f.nHashFuncs.toNat).map fun n =>
    cellOf f.data (RollingBloomHash (UInt32.ofNat n) f.nTweak vKey)

/-- The loop of `insert` over the hashes gives each hash's cell the generation's bits. -/
theorem cell_foldl_setCell {g : Int} (hg : IsGen g) (H : Nat → UInt32) :
    ∀ (ns : List Nat) (data : List UInt64), Shape data → ∀ c : Nat × Nat,
      cell (ns.foldl (fun data n => setCell g data (H n)) data) c =
        if c ∈ ns.map (fun n => cellOf data (H n)) then genBits g else cell data c
  | [], _, _, c => by simp
  | n :: ns, data, hs, c => by
    have hlen := length_setCell g data (H n)
    rw [List.foldl_cons, cell_foldl_setCell hg H ns _ (hs.of_length hlen),
      cell_setCell hs hg]
    simp only [cellOf_of_length hlen, List.map_cons, List.mem_cons]
    by_cases hc : c = cellOf data (H n)
    · simp [hc]
    · simp [hc]

theorem length_foldl_setCell (g : Int) (H : Nat → UInt32) :
    ∀ (ns : List Nat) (data : List UInt64),
      (ns.foldl (fun data n => setCell g data (H n)) data).length = data.length
  | [], _ => rfl
  | n :: ns, data => by
    rw [List.foldl_cons, length_foldl_setCell g H ns, length_setCell]

/-- `contains`'s test of one hash reads its cell. -/
theorem test_iff (data : List UInt64) (h : UInt32) :
    ((((data.getD (posOf data h &&& ~~~1).toNat 0 ||| data.getD (posOf data h ||| 1).toNat 0) >>>
      (bitOf h).toUInt64) &&& 1) != 0) = true ↔ cell data (cellOf data h) ≠ (false, false) := by
  rw [bne_iff_ne, UInt64.and_one_shiftRight_ne_zero_iff _ (bitOf_lt h), UInt64.toBitVec_or,
    BitVec.getLsbD_or, UInt32.toNat_and_not_one, UInt32.toNat_or_one]
  simp only [cell, wordBit, cellOf]
  generalize (data.getD (2 * ((posOf data h).toNat / 2)) 0).toBitVec.getLsbD (bitOf h) = a
  generalize (data.getD (2 * ((posOf data h).toNat / 2) + 1) 0).toBitVec.getLsbD (bitOf h) = b
  cases a <;> cases b <;> decide

/-- **`contains`** holds exactly when every cell of the key is set. -/
theorem contains_iff (f : CRollingBloomFilter) (vKey : List UInt8) :
    f.contains vKey = true ↔ ∀ c ∈ cellsOf f vKey, cell f.data c ≠ (false, false) := by
  simp only [contains, List.all_eq_true, test_iff, cellsOf, List.mem_map]
  constructor
  · rintro h c ⟨n, hn, rfl⟩
    exact h n hn
  · exact fun h n hn => h _ ⟨n, hn, rfl⟩

/-! ### `insert` -/

/-- The generation after `g`: `nGeneration++`, and `4` goes back to `1`. -/
def nextGen (g : Int) : Int := if g + 1 = 4 then 1 else g + 1

/-- The generation before `g`. -/
def prevGen (g : Int) : Int := if g = 1 then 3 else g - 1

theorem IsGen.next {g : Int} (hg : IsGen g) : IsGen (nextGen g) := by
  rcases hg with rfl | rfl | rfl <;> decide

theorem IsGen.prev {g : Int} (hg : IsGen g) : IsGen (prevGen g) := by
  rcases hg with rfl | rfl | rfl <;> decide

theorem prevGen_nextGen {g : Int} (hg : IsGen g) : prevGen (nextGen g) = g := by
  rcases hg with rfl | rfl | rfl <;> decide

/-- The three generations a filter holds have different bits. -/
theorem genBits_distinct {g : Int} (hg : IsGen g) :
    genBits (nextGen g) ≠ genBits g ∧ genBits (nextGen g) ≠ genBits (prevGen g) := by
  rcases hg with rfl | rfl | rfl <;> decide

@[simp] theorem insert_nEntriesPerGeneration (f : CRollingBloomFilter) (vKey : List UInt8) :
    (f.insert vKey).nEntriesPerGeneration = f.nEntriesPerGeneration := by
  simp only [insert]
  split <;> rfl

@[simp] theorem insert_nTweak (f : CRollingBloomFilter) (vKey : List UInt8) :
    (f.insert vKey).nTweak = f.nTweak := by
  simp only [insert]
  split <;> rfl

@[simp] theorem insert_nHashFuncs (f : CRollingBloomFilter) (vKey : List UInt8) :
    (f.insert vKey).nHashFuncs = f.nHashFuncs := by
  simp only [insert]
  split <;> rfl

@[simp] theorem length_insert_data (f : CRollingBloomFilter) (vKey : List UInt8) :
    (f.insert vKey).data.length = f.data.length := by
  simp only [insert]
  split <;> simp [length_foldl_setCell, length_wipe]

/-- The cells of a key stay where they are: they depend on the number of words, the tweak and
the number of hashes. -/
theorem cellsOf_insert (f : CRollingBloomFilter) (vKey k : List UInt8) :
    cellsOf (f.insert vKey) k = cellsOf f k := by
  simp only [cellsOf, insert_nHashFuncs, insert_nTweak]
  exact List.map_congr_left fun n _ => cellOf_of_length (length_insert_data f vKey) _

/-- **`insert` into a full generation**: the next generation starts, its number's cells are
wiped, and the key's cells get its bits. -/
theorem insert_of_full {f : CRollingBloomFilter} (hs : Shape f.data) (hg : IsGen f.nGeneration)
    (hfull : f.nEntriesThisGeneration = f.nEntriesPerGeneration) (vKey : List UInt8) :
    (f.insert vKey).nGeneration = nextGen f.nGeneration ∧
      (f.insert vKey).nEntriesThisGeneration = 1 ∧
      ∀ c, cell (f.insert vKey).data c =
        if c ∈ cellsOf f vKey then genBits (nextGen f.nGeneration)
        else if cell f.data c = genBits (nextGen f.nGeneration) then (false, false)
        else cell f.data c := by
  have hlen := length_wipe (-UInt64.ofInt (nextGen f.nGeneration % 2))
    (-UInt64.ofInt (nextGen f.nGeneration >>> 1)) f.data
  refine ⟨by simp [insert, hfull, nextGen], by simp [insert, hfull], fun c => ?_⟩
  simp only [insert, if_pos hfull]
  rw [show (if f.nGeneration + 1 = 4 then 1 else f.nGeneration + 1) = nextGen f.nGeneration from rfl,
    cell_foldl_setCell hg.next _ _ _ (hs.of_length hlen), cell_wipe hg.next _ (hlen ▸ hs.even)]
  simp only [cellsOf, cellOf_of_length hlen]
  rfl

/-- **`insert` into a generation with room**: the key's cells get the generation's bits. -/
theorem insert_of_not_full {f : CRollingBloomFilter} (hs : Shape f.data)
    (hg : IsGen f.nGeneration) (hroom : f.nEntriesThisGeneration ≠ f.nEntriesPerGeneration)
    (vKey : List UInt8) :
    (f.insert vKey).nGeneration = f.nGeneration ∧
      (f.insert vKey).nEntriesThisGeneration = f.nEntriesThisGeneration + 1 ∧
      ∀ c, cell (f.insert vKey).data c =
        if c ∈ cellsOf f vKey then genBits f.nGeneration else cell f.data c := by
  refine ⟨by simp [insert, hroom], by simp [insert, hroom], fun c => ?_⟩
  simp only [insert, if_neg hroom]
  rw [cell_foldl_setCell hg _ _ _ hs]
  rfl

/-! ### What the filter keeps -/

/-- The keys of the last three generations: the one being filled `cur`, the one before `prev`
and the one before that `prev2`. -/
structure Gens where
  prev2 : List (List UInt8)
  prev : List (List UInt8)
  cur : List (List UInt8)

/-- All keys of the three generations, oldest first. -/
def Gens.keys (w : Gens) : List (List UInt8) := w.prev2 ++ w.prev ++ w.cur

/-- The generations after inserting `vKey`: into a new generation when the current one is
`full`, pushing the others back. -/
def Gens.push (w : Gens) (full : Bool) (vKey : List UInt8) : Gens :=
  if full then ⟨w.prev, w.cur, [vKey]⟩ else ⟨w.prev2, w.prev, w.cur ++ [vKey]⟩

/-- No keys: after the constructor or `reset()`. -/
def Gens.empty : Gens := ⟨[], [], []⟩

/-- **The invariant.** The cells of the current generation's keys hold its bits; those of the
generation before hold its bits or the current one's; those of the one before that are set. -/
structure Keeps (f : CRollingBloomFilter) (w : Gens) : Prop where
  gen : IsGen f.nGeneration
  count : (w.cur.length : Int) = f.nEntriesThisGeneration
  cur : ∀ k ∈ w.cur, ∀ c ∈ cellsOf f k, cell f.data c = genBits f.nGeneration
  prev : ∀ k ∈ w.prev, ∀ c ∈ cellsOf f k,
    cell f.data c = genBits f.nGeneration ∨ cell f.data c = genBits (prevGen f.nGeneration)
  prev2 : ∀ k ∈ w.prev2, ∀ c ∈ cellsOf f k, cell f.data c ≠ (false, false)

/-- Every key the filter keeps is reported. -/
theorem Keeps.contains {f : CRollingBloomFilter} {w : Gens} (hk : Keeps f w) :
    ∀ k ∈ w.keys, f.contains k = true := by
  intro k hmem
  rw [contains_iff]
  intro c hc
  simp only [Gens.keys, List.mem_append] at hmem
  rcases hmem with (h2 | h1) | h0
  · exact hk.prev2 k h2 c hc
  · rcases hk.prev k h1 c hc with h | h <;> rw [h]
    · exact genBits_ne_unset hk.gen
    · exact genBits_ne_unset hk.gen.prev
  · rw [hk.cur k h0 c hc]
    exact genBits_ne_unset hk.gen

/-- **Step, a full generation.** The new generation holds the key alone; the wipe clears only
cells of the generation three back, which none of the kept keys' cells hold. -/
theorem Keeps.insert_of_full {f : CRollingBloomFilter} {w : Gens} (hk : Keeps f w)
    (hs : Shape f.data) (hfull : f.nEntriesThisGeneration = f.nEntriesPerGeneration)
    (vKey : List UInt8) : Keeps (f.insert vKey) (w.push true vKey) := by
  obtain ⟨hgen, hcount, hcell⟩ := CRollingBloomFilter.insert_of_full hs hk.gen hfull vKey
  obtain ⟨hne, hne'⟩ := genBits_distinct hk.gen
  refine ⟨hgen ▸ hk.gen.next, by simp [Gens.push, hcount], ?_, ?_, ?_⟩
  · -- the key itself
    intro k hmem c hc
    simp only [Gens.push, if_true, List.mem_singleton] at hmem
    rw [cellsOf_insert, hmem] at hc
    rw [hcell, hgen, if_pos hc]
  · -- the old current generation is now the previous one
    intro k hmem c hc
    rw [cellsOf_insert] at hc
    rw [hcell, hgen]
    by_cases hkey : c ∈ cellsOf f vKey
    · exact .inl (if_pos hkey)
    · rw [if_neg hkey, hk.cur k hmem c hc, if_neg (Ne.symm hne), prevGen_nextGen hk.gen]
      exact .inr rfl
  · -- the old previous generation keeps its cells
    intro k hmem c hc
    rw [cellsOf_insert] at hc
    rw [hcell]
    by_cases hkey : c ∈ cellsOf f vKey
    · rw [if_pos hkey]
      exact genBits_ne_unset hk.gen.next
    · rw [if_neg hkey]
      rcases hk.prev k hmem c hc with h | h
      · rw [h, if_neg (Ne.symm hne)]
        exact genBits_ne_unset hk.gen
      · rw [h, if_neg (Ne.symm hne')]
        exact genBits_ne_unset hk.gen.prev

/-- **Step, room in the generation.** The key joins the current generation. -/
theorem Keeps.insert_of_not_full {f : CRollingBloomFilter} {w : Gens} (hk : Keeps f w)
    (hs : Shape f.data) (hroom : f.nEntriesThisGeneration ≠ f.nEntriesPerGeneration)
    (vKey : List UInt8) : Keeps (f.insert vKey) (w.push false vKey) := by
  obtain ⟨hgen, hcount, hcell⟩ := CRollingBloomFilter.insert_of_not_full hs hk.gen hroom vKey
  refine ⟨hgen ▸ hk.gen, by simp [Gens.push, hcount, ← hk.count], ?_, ?_, ?_⟩
  · intro k hmem c hc
    rw [cellsOf_insert] at hc
    rw [hcell, hgen]
    by_cases hkey : c ∈ cellsOf f vKey
    · rw [if_pos hkey]
    · rw [if_neg hkey]
      rcases List.mem_append.mp hmem with hmem | hmem
      · exact hk.cur k hmem c hc
      · exact absurd (List.mem_singleton.mp hmem ▸ hc) hkey
  · intro k hmem c hc
    rw [cellsOf_insert] at hc
    rw [hcell, hgen]
    by_cases hkey : c ∈ cellsOf f vKey
    · exact .inl (if_pos hkey)
    · rw [if_neg hkey]
      exact hk.prev k hmem c hc
  · intro k hmem c hc
    rw [cellsOf_insert] at hc
    rw [hcell]
    by_cases hkey : c ∈ cellsOf f vKey
    · rw [if_pos hkey]
      exact genBits_ne_unset hk.gen
    · rw [if_neg hkey]
      exact hk.prev2 k hmem c hc

theorem Keeps.insert {f : CRollingBloomFilter} {w : Gens} (hk : Keeps f w) (hs : Shape f.data)
    (vKey : List UInt8) :
    Keeps (f.insert vKey)
      (w.push (decide (f.nEntriesThisGeneration = f.nEntriesPerGeneration)) vKey) := by
  by_cases hfull : f.nEntriesThisGeneration = f.nEntriesPerGeneration
  · rw [decide_eq_true hfull]
    exact hk.insert_of_full hs hfull vKey
  · rw [decide_eq_false hfull]
    exact hk.insert_of_not_full hs hfull vKey

theorem keeps_reset (f : CRollingBloomFilter) (nTweak : UInt32) :
    Keeps (f.reset nTweak) Gens.empty :=
  ⟨.inl rfl, rfl, by simp [Gens.empty], by simp [Gens.empty], by simp [Gens.empty]⟩

/-! ### The last keys inserted -/

/-- The three generations are the last keys inserted: all of them, or, once two generations are
full, two full generations of `E` keys and the current one. -/
structure Window (E : Nat) (keys : List (List UInt8)) (w : Gens) : Prop where
  suffix : w.keys <:+ keys
  cover : w.keys = keys ∨ (w.prev2.length = E ∧ w.prev.length = E ∧ 0 < E)
  prev_len : w.prev = [] ∨ w.prev.length = E
  prev2_nil : w.prev = [] → w.prev2 = []

theorem window_empty (E : Nat) : Window E [] Gens.empty :=
  ⟨List.suffix_refl _, .inl rfl, .inl rfl, fun _ => rfl⟩

/-- **Step.** An insertion appends its key to the keys and to the generations, into a new
generation exactly when the current one has `E` keys. -/
theorem Window.push {E : Nat} {keys : List (List UInt8)} {w : Gens} (hw : Window E keys w)
    (full : Bool) (hfull : full = true ↔ w.cur.length = E) (vKey : List UInt8) :
    Window E (keys ++ [vKey]) (w.push full vKey) := by
  have hsuf : w.prev ++ w.cur <:+ keys :=
    (List.suffix_append w.prev2 (w.prev ++ w.cur)).trans (by simpa [Gens.keys] using hw.suffix)
  cases full with
  | true =>
    have hcur : w.cur.length = E := hfull.mp rfl
    simp only [Gens.push, if_true]
    refine ⟨?_, ?_, .inr hcur, fun hnil => ?_⟩
    · simpa [Gens.keys] using List.suffix_append_self_iff.mpr hsuf
    · by_cases hprev : w.prev = []
      · -- the first generation was full: the generations are still all the keys
        have h2 := hw.prev2_nil hprev
        rcases hw.cover with hall | ⟨-, hlen, hpos⟩
        · left
          simp [Gens.keys, ← hall, hprev, h2]
        · simp [hprev] at hlen
          omega
      · -- two full generations now
        have hlen : w.prev.length = E := hw.prev_len.resolve_left hprev
        exact .inr ⟨hlen, hcur, hlen ▸ List.length_pos_iff.mpr hprev⟩
    · -- a generation of no keys: then every generation has none
      have hE : E = 0 := by
        rw [← hcur, show w.cur = [] from hnil]
        rfl
      rcases hw.prev_len with hprev | hprev
      · exact hprev
      · exact List.eq_nil_of_length_eq_zero (hprev.trans hE)
  | false =>
    simp only [Gens.push, Bool.false_eq_true, if_false]
    refine ⟨?_, ?_, hw.prev_len, hw.prev2_nil⟩
    · simpa [Gens.keys] using List.suffix_append_self_iff.mpr hw.suffix
    · rcases hw.cover with hall | hfull'
      · left
        simp [Gens.keys, ← hall]
      · exact .inr hfull'

/-- The last `n` keys inserted are kept, when two generations hold at least `n` keys. -/
theorem Window.mem_of_mem_drop {E : Nat} {keys : List (List UInt8)} {w : Gens}
    (hw : Window E keys w) {n : Nat} (hn : 0 < E → n ≤ 2 * E) {k : List UInt8}
    (hk : k ∈ keys.drop (keys.length - n)) : k ∈ w.keys := by
  rcases hw.cover with hall | ⟨h2, h1, hpos⟩
  · rw [hall]
    exact List.mem_of_mem_drop hk
  · -- the last `n` keys are a suffix of the keys no longer than the generations
    have hlen : (keys.drop (keys.length - n)).length ≤ w.keys.length := by
      simp only [List.length_drop, Gens.keys, List.length_append, h2, h1]
      have := hn hpos
      omega
    exact (List.suffix_of_suffix_length_le (List.drop_suffix _ _) hw.suffix hlen).subset hk

/-! ### Every run -/

/-- The calls a filter takes after its construction. -/
inductive Call
  | insert (vKey : List UInt8)
  | reset (nTweak : UInt32)

/-- Make a call on the filter. -/
def Call.apply (f : CRollingBloomFilter) : Call → CRollingBloomFilter
  | .insert vKey => f.insert vKey
  | .reset nTweak => f.reset nTweak

/-- The keys inserted since the last `reset()`, after a call. -/
def Call.since (keys : List (List UInt8)) : Call → List (List UInt8)
  | .insert vKey => keys ++ [vKey]
  | .reset _ => []

/-- The parameters a run keeps: the generation size, the number of hashes and the words. -/
structure Params (E : Nat) (f : CRollingBloomFilter) : Prop where
  entries : f.nEntriesPerGeneration = E
  shape : Shape f.data

theorem Params.apply {E : Nat} {f : CRollingBloomFilter} (hp : Params E f) :
    ∀ call : Call, Params E (call.apply f)
  | .insert vKey => ⟨by simp [Call.apply, hp.entries], hp.shape.of_length (by simp [Call.apply])⟩
  | .reset _ => ⟨hp.entries, hp.shape.of_length (by simp [Call.apply, reset])⟩

/-- **Run.** Along every sequence of calls, the filter keeps the generations of the keys
inserted since the last `reset()`, and they are the last of those keys. -/
theorem run_keeps {E : Nat} : ∀ (calls : List Call) (f : CRollingBloomFilter)
    (keys : List (List UInt8)) (w : Gens), Params E f → Keeps f w → Window E keys w →
    ∃ w', Keeps (calls.foldl Call.apply f) w' ∧ Window E (calls.foldl Call.since keys) w'
  | [], _, _, w, _, hk, hw => ⟨w, hk, hw⟩
  | .insert vKey :: calls, f, keys, w, hp, hk, hw => by
    -- the generation is full exactly when the current one has `E` keys
    have hfull : decide (f.nEntriesThisGeneration = f.nEntriesPerGeneration) = true ↔
        w.cur.length = E := by
      rw [decide_eq_true_iff, ← hk.count, hp.entries]
      omega
    exact run_keeps calls _ _ _ (hp.apply (.insert vKey)) (hk.insert hp.shape vKey)
      (hw.push _ hfull vKey)
  | .reset nTweak :: calls, f, _, _, hp, _, _ =>
    run_keeps calls _ _ _ (hp.apply (.reset nTweak)) (keeps_reset f nTweak) (window_empty E)

/-- The keys since the last `reset()`, from construction. -/
def sinceReset (calls : List Call) : List (List UInt8) := calls.foldl Call.since []

/-- Two generations hold at least `nElements` keys: `(nElements + 1) / 2` each, unless the
`unsigned int` sum wraps and makes a generation empty. -/
theorem nElements_le (nElements : UInt32) :
    0 < ((nElements + 1) / 2).toNat → nElements.toNat ≤ 2 * ((nElements + 1) / 2).toNat := by
  have := nElements.toNat_lt
  rw [UInt32.toNat_div, UInt32.toNat_add, UInt32.toNat_one, show (2 : UInt32).toNat = 2 from rfl]
  omega

/-- **`CRollingBloomFilter` remembers its last `nElements` keys.**  For a filter built with any
`nElements`, hash count, bit count and tweak that give it words, after any sequence of `insert`
and `reset` calls, `contains` holds for each of the last `nElements` keys inserted since the last
`reset()` (a key inserted twice counted twice). -/
theorem CRollingBloomFilter_contains_last (nElements : UInt32) (roundedHashFuncs : Int)
    (nFilterBits nTweak : UInt32)
    (hdata : (construct nElements roundedHashFuncs nFilterBits nTweak).data ≠ [])
    (calls : List Call) :
    ∀ vKey ∈ (sinceReset calls).drop ((sinceReset calls).length - nElements.toNat),
      (calls.foldl Call.apply (construct nElements roundedHashFuncs nFilterBits nTweak)).contains
        vKey = true := by
  intro vKey hmem
  -- the constructor's words: an even number, fewer than `2^32`
  have hshape : Shape (construct nElements roundedHashFuncs nFilterBits nTweak).data := by
    refine ⟨List.length_pos_iff.mpr hdata, ?_, ?_⟩ <;>
      simp only [construct, reset, List.length_map, List.length_replicate, UInt32.toNat_shiftLeft]
    · simp only [UInt32.toNat_one, Nat.shiftLeft_eq, Nat.reduceMod, pow_one]
      omega
    · exact Nat.mod_lt _ (by decide)
  obtain ⟨w, hk, hw⟩ := run_keeps calls _ [] Gens.empty
    (E := ((nElements + 1) / 2).toNat) ⟨by simp [construct, reset], hshape⟩
    (keeps_reset _ nTweak) (window_empty _)
  exact hk.contains vKey (hw.mem_of_mem_drop (nElements_le nElements) hmem)

theorem CRollingBloomFilter_contains_last_reset :
    (construct 2 1 64 0).data ≠ [] ∧
      ∀ vKey ∈ (sinceReset [.insert [1], .reset 7, .insert [2], .insert [3], .insert [4]]).drop
          ((sinceReset [.insert [1], .reset 7, .insert [2], .insert [3], .insert [4]]).length -
            (2 : UInt32).toNat),
        ([.insert [1], .reset 7, .insert [2], .insert [3], .insert [4]].foldl Call.apply
          (construct 2 1 64 0)).contains vKey = true :=
  ⟨by decide, CRollingBloomFilter_contains_last 2 1 64 0 (by decide) _⟩

end CRollingBloomFilter

end Unitus
