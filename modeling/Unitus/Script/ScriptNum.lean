import Unitus.Script.Script

/-!
# Script — `CScriptNum`

`CScriptNum` (`script/script.h`) is the number the numeric opcodes read off and push onto the
stack: little-endian with a sign bit in the last byte.  Reading (`CScriptNum(vch,
fRequireMinimal, nMaxNumSize)`) throws `scriptnum_error` on a vector longer than
`nMaxNumSize` and, with `fRequireMinimal`, on one with a needless last byte; the value is an
`int64_t`, an `Int` here, as no opcode's operands or results come near its range.

Requiring minimal encodings only adds an error (`ofVch_of_requireMinimal`).
-/

namespace Unitus

/-- `scriptnum_error`, by its message. -/
inductive scriptnum_error
  /-- `"script number overflow"` -/
  | overflow
  /-- `"non-minimally encoded script number"` -/
  | nonMinimal
  deriving DecidableEq, Repr

namespace CScriptNum

/-- The bytes of `absvalue`, least significant first: `while (absvalue) {
result.push_back(absvalue & 0xff); absvalue >>= 8; }`, over the eight bytes of an
`uint64_t`. -/
def absBytes : Nat → Nat → List UInt8
  | 0, _ => []
  | fuel + 1, absvalue =>
    if absvalue = 0 then [] else UInt8.ofNat (absvalue % 256) :: absBytes fuel (absvalue / 256)

/-- `CScriptNum::serialize(value)`. -/
def serialize (value : Int) : List UInt8 :=
  if value = 0 then []
  else
    let neg := value < 0
    let result := absBytes 8 value.natAbs
    -- a set top bit needs a byte of its own for the sign
    if result.getLast?.getD 0 &&& 0x80 ≠ 0 then result ++ [if neg then 0x80 else 0]
    else if neg then result.dropLast ++ [result.getLast?.getD 0 ||| 0x80]
    else result

/-- The little-endian value of a byte vector: `result |= vch[i] << 8*i`. -/
def leValue : List UInt8 → Nat
  | [] => 0
  | b :: rest => b.toNat + 256 * leValue rest

/-- `set_vch(vch)`: a set top bit of the last byte is cleared, and makes the value negative. -/
def set_vch (vch : List UInt8) : Int :=
  if vch = [] then 0
  else
    let result := leValue vch
    if vch.getLast?.getD 0 &&& 0x80 ≠ 0 then
      -((result - 0x80 * 256 ^ (vch.length - 1) : Nat) : Int)
    else result

/-- `CScriptNum(vch, fRequireMinimal, nMaxNumSize)`: the value, or the `scriptnum_error` it
throws. -/
def ofVch (vch : List UInt8) (fRequireMinimal : Bool) (nMaxNumSize : Nat) :
    Except scriptnum_error Int :=
  if vch.length > nMaxNumSize then throw .overflow
  -- the last byte, but for the sign bit, is zero, and the one before does not need it
  else if fRequireMinimal ∧ vch.length > 0 ∧ vch.getLast?.getD 0 &&& 0x7f = 0 ∧
      (vch.length ≤ 1 ∨ vch.getD (vch.length - 2) 0 &&& 0x80 = 0) then throw .nonMinimal
  else pure (set_vch vch)

/-- `getint()`: the value clamped to an `int`. -/
def getint (m_value : Int) : Int :=
  if m_value > 2147483647 then 2147483647
  else if m_value < -2147483648 then -2147483648
  else m_value

/-- Requiring a minimal encoding only adds an error: a number read with it reads the same
without. -/
theorem ofVch_of_requireMinimal {vch : List UInt8} {fRequireMinimal : Bool} {nMaxNumSize : Nat}
    {v : Int} (h : ofVch vch fRequireMinimal nMaxNumSize = .ok v) :
    ofVch vch false nMaxNumSize = .ok v := by
  unfold ofVch at h ⊢
  by_cases h₁ : vch.length > nMaxNumSize
  · rw [if_pos h₁] at h
    cases h
  · rw [if_neg h₁] at h ⊢
    rw [if_neg (by simp)]
    -- the minimality check passed, so `h` reads the value
    split_ifs at h
    exact h

end CScriptNum

end Unitus
