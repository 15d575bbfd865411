import Mathlib

/-!
# Arith — `base_uint`, the fixed-width unsigned integer

`base_uint<BITS>` (`arith_uint256.h`, `arith_uint256.cpp`) keeps `WIDTH = BITS / 32` limbs
`pn[0 .. WIDTH)`, least significant first.  Every operation below is the source's limb loop,
run over the list `pn`: a loop `for (i = 0; i < WIDTH; i++)` that threads a carry is a
recursion down the list, and a 64-bit intermediate the source keeps in a `uint64_t` (which
never overflows there) is a `Nat`.  `toNat` reads the limbs as a number below `2 ^ BITS`.

A value carries `pn.length = WIDTH` as a field, so no operation can build a value of the
wrong width.
-/

namespace Unitus

/-- The number the limbs `l₀ l₁ …` (least significant first) stand for. -/
def limbsVal (l : List UInt32) : Nat := Nat.ofDigits (2 ^ 32) (l.map UInt32.toNat)

@[simp] theorem limbsVal_nil : limbsVal [] = 0 := rfl

@[simp] theorem limbsVal_cons (x : UInt32) (l : List UInt32) :
    limbsVal (x :: l) = x.toNat + 2 ^ 32 * limbsVal l := by
  simp [limbsVal, Nat.ofDigits_cons]

theorem limbsVal_lt (l : List UInt32) : limbsVal l < 2 ^ (32 * l.length) := by
  induction l with
  | nil => simp
  | cons x l ih =>
      have hx := x.toNat_lt
      rw [limbsVal_cons, List.length_cons, Nat.mul_succ, Nat.pow_add]
      calc x.toNat + 2 ^ 32 * limbsVal l
          < 2 ^ 32 + 2 ^ 32 * limbsVal l := by omega
        _ = 2 ^ 32 * (limbsVal l + 1) := by ring
        _ ≤ 2 ^ 32 * 2 ^ (32 * l.length) := Nat.mul_le_mul_left _ ih
        _ = 2 ^ (32 * l.length) * 2 ^ 32 := Nat.mul_comm _ _

/-- `base_uint<BITS>`: `BITS / 32` limbs, least significant first. -/
structure BaseUint (BITS : Nat) where
  pn : List UInt32
  length_pn : pn.length = BITS / 32
  deriving DecidableEq

/-- `arith_uint256`, the 256-bit instance. -/
abbrev ArithUint256 := BaseUint 256

namespace BaseUint

variable {BITS : Nat}

/-- The value of a `base_uint`. -/
def toNat (a : BaseUint BITS) : Nat := limbsVal a.pn

theorem toNat_lt (a : BaseUint BITS) : a.toNat < 2 ^ (32 * (BITS / 32)) := by
  simpa [toNat, a.length_pn] using limbsVal_lt a.pn

theorem ext_pn {a b : BaseUint BITS} (h : a.pn = b.pn) : a = b := by
  cases a; cases b; cases h; rfl

/-! ### Constructors -/

/-- `base_uint()`: every limb zero. -/
def zero : BaseUint BITS := ⟨List.replicate (BITS / 32) 0, by simp⟩

/-- `base_uint(uint64_t b)`: `pn[0] = (unsigned int)b`, `pn[1] = (unsigned int)(b >> 32)`,
the other limbs zero. -/
def ofUInt64 (b : UInt64) : BaseUint BITS :=
  ⟨(b.toUInt32 :: (b >>> 32).toUInt32 :: List.replicate (BITS / 32 - 2) 0).take (BITS / 32),
    by simp; omega⟩

/-! ### Addition, negation, subtraction -/

/-- The loop of `operator+=`: `n = carry + pn[i] + b.pn[i]`, `pn[i] = n & 0xffffffff`,
`carry = n >> 32`. -/
def addLimbs : Nat → List UInt32 → List UInt32 → List UInt32
  | carry, x :: xs, y :: ys =>
      let n := carry + x.toNat + y.toNat
      UInt32.ofNat n :: addLimbs (n / 2 ^ 32) xs ys
  | _, _, _ => []

theorem length_addLimbs :
    ∀ (c : Nat) (xs ys : List UInt32), xs.length = ys.length →
      (addLimbs c xs ys).length = xs.length
  | _, [], [], _ => rfl
  | c, x :: xs, y :: ys, h => by
      simp only [addLimbs, List.length_cons] at h ⊢
      rw [length_addLimbs _ xs ys (by omega)]
  | _, [], _ :: _, h | _, _ :: _, [], h => by simp at h

/-- The prefix `operator++`: `while (++pn[i] == 0 && i < WIDTH-1) i++`. -/
def incLimbs : List UInt32 → List UInt32
  | [] => []
  | [x] => [x + 1]
  | x :: y :: ys => if x + 1 = 0 then 0 :: incLimbs (y :: ys) else (x + 1) :: y :: ys

theorem length_incLimbs : ∀ l : List UInt32, (incLimbs l).length = l.length
  | [] => rfl
  | [_] => rfl
  | x :: y :: ys => by
      by_cases h : x + 1 = 0
      · simp [incLimbs, h, length_incLimbs (y :: ys)]
      · simp [incLimbs, h]

instance : Add (BaseUint BITS) :=
  ⟨fun a b => ⟨addLimbs 0 a.pn b.pn, by
    rw [length_addLimbs _ _ _ (by rw [a.length_pn, b.length_pn]), a.length_pn]⟩⟩

/-- `operator++`. -/
def inc (a : BaseUint BITS) : BaseUint BITS :=
  ⟨incLimbs a.pn, by rw [length_incLimbs, a.length_pn]⟩

/-- `operator~`: every limb complemented. -/
def compl (a : BaseUint BITS) : BaseUint BITS :=
  ⟨a.pn.map (~~~ ·), by simp [a.length_pn]⟩

/-- `operator-()`: the two's complement, `~a` then `++`. -/
instance : Neg (BaseUint BITS) := ⟨fun a => a.compl.inc⟩

/-- `operator-=`: `*this += -b`. -/
instance : Sub (BaseUint BITS) := ⟨fun a b => a + -b⟩

/-! ### Multiplication by a 32-bit word -/

/-- The loop of `operator*=(uint32_t b32)`: `n = carry + (uint64_t)b32 * pn[i]`,
`pn[i] = n & 0xffffffff`, `carry = n >> 32`. -/
def mulLimbs (b32 : UInt32) : Nat → List UInt32 → List UInt32
  | _, [] => []
  | carry, x :: xs =>
      let n := carry + b32.toNat * x.toNat
      UInt32.ofNat n :: mulLimbs b32 (n / 2 ^ 32) xs

@[simp] theorem length_mulLimbs (b32 : UInt32) :
    ∀ (c : Nat) (l : List UInt32), (mulLimbs b32 c l).length = l.length
  | _, [] => rfl
  | c, _ :: xs => by simp [mulLimbs, length_mulLimbs b32 _ xs]

/-- `operator*=(uint32_t)`. -/
def mul32 (a : BaseUint BITS) (b32 : UInt32) : BaseUint BITS :=
  ⟨mulLimbs b32 0 a.pn, by simp [a.length_pn]⟩

/-! ### Multiplication -/

/-- The inner loop of `operator*=(const base_uint& b)` for one row, over the limbs of the
result from `j` up: `n = carry + pn[i + j] + (uint64_t)a.pn[j] * b.pn[i]`,
`pn[i + j] = n & 0xffffffff`, `carry = n >> 32`, while `i + j < WIDTH`. -/
def mulAddLimbs (x : UInt32) : Nat → List UInt32 → List UInt32 → List UInt32
  | carry, r :: rs, y :: ys =>
      let n := carry + r.toNat + x.toNat * y.toNat
      UInt32.ofNat n :: mulAddLimbs x (n / 2 ^ 32) rs ys
  | _, rs, _ => rs

@[simp] theorem length_mulAddLimbs (x : UInt32) :
    ∀ (c : Nat) (rs ys : List UInt32), (mulAddLimbs x c rs ys).length = rs.length
  | _, _ :: rs, _ :: ys => by simp [mulAddLimbs, length_mulAddLimbs x _ rs ys]
  | _, [], _ | _, _ :: _, [] => by simp [mulAddLimbs]

/-- The outer loop of `operator*=(const base_uint& b)`: row `j` adds `a.pn[j] * b` into the
limbs of the result from `j` up. -/
def mulRows (b : List UInt32) : Nat → List UInt32 → List UInt32 → List UInt32
  | _, [], r => r
  | j, x :: xs, r => mulRows b (j + 1) xs (r.take j ++ mulAddLimbs x 0 (r.drop j) b)

@[simp] theorem length_mulRows (b : List UInt32) :
    ∀ (j : Nat) (xs r : List UInt32), (mulRows b j xs r).length = r.length
  | _, [], _ => rfl
  | j, _ :: xs, r => by
      rw [mulRows, length_mulRows b (j + 1) xs, List.length_append, List.length_take,
        length_mulAddLimbs, List.length_drop]
      omega

/-- `operator*=(const base_uint& b)`: `base_uint<BITS> a = *this; *this = 0;`, then the rows.
`b` is a value here; the source reads it through a reference. -/
def mul (a b : BaseUint BITS) : BaseUint BITS :=
  ⟨mulRows b.pn 0 a.pn (List.replicate (BITS / 32) 0), by simp⟩

instance : Mul (BaseUint BITS) := ⟨mul⟩

/-! ### Shifts -/

/-- The bit part of `operator<<=`: limb `i` of the result is `a.pn[i] << s` joined with the
bits `a.pn[i-1] >> (32 - s)` carried out of the limb below; for `s = 0` nothing is
carried (the source tests `shift != 0`). -/
def shlBits (s : Nat) : UInt32 → List UInt32 → List UInt32
  | _, [] => []
  | low, x :: xs =>
      ((x <<< s.toUInt32) ||| low) ::
        shlBits s (if s = 0 then 0 else x >>> (32 - s).toUInt32) xs

@[simp] theorem length_shlBits (s : Nat) :
    ∀ (low : UInt32) (l : List UInt32), (shlBits s low l).length = l.length
  | _, [] => rfl
  | _, _ :: xs => by simp [shlBits, length_shlBits s _ xs]

/-- `operator<<=(unsigned int shift)`: with `k = shift / 32`, limb `a.pn[i]` lands in limbs
`i + k` and `i + k + 1`; limbs past `WIDTH` are dropped.  The source scatters each limb
upwards; this gathers, limb by limb, the same two contributions. -/
def shl (a : BaseUint BITS) (shift : Nat) : BaseUint BITS :=
  ⟨shlBits (shift % 32) 0 ((List.replicate (shift / 32) 0 ++ a.pn).take (BITS / 32)), by
    simp [a.length_pn]⟩

/-- The bit part of `operator>>=`: limb `i` of the result is `a.pn[i] >> s` joined with the
bits `a.pn[i+1] << (32 - s)` of the limb above (none for `s = 0`). -/
def shrBits (s : Nat) : List UInt32 → List UInt32
  | [] => []
  | x :: xs =>
      ((x >>> s.toUInt32) |||
        (if s = 0 then 0 else xs.headD 0 <<< (32 - s).toUInt32)) :: shrBits s xs

@[simp] theorem length_shrBits (s : Nat) : ∀ l : List UInt32, (shrBits s l).length = l.length
  | [] => rfl
  | _ :: xs => by simp [shrBits, length_shrBits s xs]

/-- `operator>>=(unsigned int shift)`: limb `a.pn[i]` lands in limbs `i - k` and `i - k - 1`
for `k = shift / 32`; limbs below zero are dropped. -/
def shr (a : BaseUint BITS) (shift : Nat) : BaseUint BITS :=
  ⟨shrBits (shift % 32) ((a.pn.drop (shift / 32) ++ List.replicate (BITS / 32) 0).take (BITS / 32)),
    by simp [a.length_pn]⟩

/-! ### Comparison, `bits()`, `GetLow64()` -/

/-- `CompareTo` on the limbs listed from the top: the first limb that differs decides. -/
def compareTop : List UInt32 → List UInt32 → Int
  | x :: xs, y :: ys => if x < y then -1 else if y < x then 1 else compareTop xs ys
  | _, _ => 0

/-- `CompareTo(b)`: `-1`, `0` or `1`. -/
def compareTo (a b : BaseUint BITS) : Int := compareTop a.pn.reverse b.pn.reverse

/-- `EqualTo(b)`, which `a == b` calls for a `uint64_t` `b`: the limbs from `pn[2]` up are zero,
`pn[1]` is `b >> 32` and `pn[0]` is `b & 0xffffffff`. -/
def EqualTo (a : BaseUint BITS) (b : UInt64) : Bool :=
  (a.pn.drop 2).all (· == 0) && a.pn.getD 1 0 == (b >>> 32).toUInt32 &&
    a.pn.getD 0 0 == b.toUInt32

instance : LT (BaseUint BITS) := ⟨fun a b => a.compareTo b < 0⟩
instance : LE (BaseUint BITS) := ⟨fun a b => a.compareTo b ≤ 0⟩
instance (a b : BaseUint BITS) : Decidable (a < b) := inferInstanceAs (Decidable (_ < _))
instance (a b : BaseUint BITS) : Decidable (a ≤ b) := inferInstanceAs (Decidable (_ ≤ _))

/-- The inner loop of `bits()` on a non-zero limb: the first `bits` from 31 down to 1 whose
bit is set gives `bits + 1`, and `1` when only bit 0 is. -/
def limbBits (x : UInt32) : Nat :=
  match (List.range 31).reverse.find? (fun b => x.toNat.testBit (b + 1)) with
  | some b => b + 2
  | none => 1

/-- The outer loop of `bits()`: limbs from the top, `pos` the index of the first. -/
def bitsTop : Nat → List UInt32 → Nat
  | _, [] => 0
  | pos, x :: xs => if x ≠ 0 then 32 * pos + limbBits x else bitsTop (pos - 1) xs

/-- `bits()`: the position of the highest set bit plus one, `0` for zero. -/
def bits (a : BaseUint BITS) : Nat := bitsTop (BITS / 32 - 1) a.pn.reverse

/-- `GetLow64()`: `pn[0] | (uint64_t)pn[1] << 32`. -/
def getLow64 (a : BaseUint BITS) : UInt64 :=
  (a.pn.getD 0 0).toUInt64 ||| ((a.pn.getD 1 0).toUInt64 <<< 32)

/-! ### Division -/

/-- `pn[shift / 32] |= (1 << (shift & 31))`: set one bit of the quotient. -/
def setBit (q : BaseUint BITS) (shift : Nat) : BaseUint BITS :=
  ⟨q.pn.modify (shift / 32) (· ||| ((1 : UInt32) <<< (shift % 32).toUInt32)), by
    simp [q.length_pn]⟩

/-- The `while (shift >= 0)` loop of `operator/=`: at each `shift`, subtract the aligned
divisor `div` from `num` when `num >= div` and set bit `shift` of the quotient, then shift
`div` right by one. -/
def divLoop : Nat → BaseUint BITS → BaseUint BITS → BaseUint BITS → BaseUint BITS
  | shift, num, div, q =>
    let q' := if div ≤ num then q.setBit shift else q
    let num' := if div ≤ num then num - div else num
    match shift with
    | 0 => q'
    | s + 1 => divLoop s num' (div.shr 1) q'

/-- `operator/=`: throws `uint_error("Division by zero")` on a zero divisor; the quotient is
`0` when the divisor has more bits than the numerator. -/
def div (num d : BaseUint BITS) : Except String (BaseUint BITS) :=
  if d.bits = 0 then .error "Division by zero"
  else if num.bits < d.bits then .ok zero
  else .ok (divLoop (num.bits - d.bits) num (d.shl (num.bits - d.bits)) zero)

end BaseUint

end Unitus
