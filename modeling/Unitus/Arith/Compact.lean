import Unitus.Arith.BaseUint

/-!
# Arith — the compact target encoding

`arith_uint256::SetCompact` and `GetCompact` (`arith_uint256.cpp`).  A compact value is
`nSize << 24 | sign << 23 | nWord` and stands for `nWord * 256 ^ (nSize - 3)`.  `setCompact`
returns the decoded number with the two flags the source writes through `pfNegative` and
`pfOverflow`; `getCompact` fails where the source's `assert`s would.
-/

namespace Unitus

namespace ArithUint256

/-- What `SetCompact(nCompact, &fNegative, &fOverflow)` leaves: the value and the flags. -/
structure Decoded where
  value : ArithUint256
  fNegative : Bool
  fOverflow : Bool
  deriving DecidableEq

/-- `arith_uint256::SetCompact`.  For `nSize <= 3` the mantissa is shifted down and the flags
read the shifted `nWord`, as the source does. -/
def setCompact (nCompact : UInt32) : Decoded :=
  let nSize := (nCompact >>> 24).toNat
  let nWord0 := nCompact &&& 0x007fffff
  let nWord := if nSize ≤ 3 then nWord0 >>> (8 * (3 - nSize)).toUInt32 else nWord0
  let value : ArithUint256 :=
    if nSize ≤ 3 then BaseUint.ofUInt64 nWord.toUInt64
    else (BaseUint.ofUInt64 nWord.toUInt64).shl (8 * (nSize - 3))
  { value
    fNegative := nWord != 0 && (nCompact &&& 0x00800000) != 0
    fOverflow := nWord != 0 &&
      (34 < nSize || (0xff < nWord && 33 < nSize) || (0xffff < nWord && 32 < nSize)) }

/-- `arith_uint256::GetCompact(fNegative)`.  `.error` is an `assert` that fails. -/
def getCompact (a : ArithUint256) (fNegative : Bool := false) : Except String UInt32 :=
  let nSize0 := (a.bits + 7) / 8
  let nCompact0 : UInt32 :=
    if nSize0 ≤ 3 then (a.getLow64 <<< (8 * (3 - nSize0)).toUInt64).toUInt32
    else (a.shr (8 * (nSize0 - 3))).getLow64.toUInt32
  -- the 0x00800000 bit is the sign: a mantissa that sets it moves one byte down
  let nCompact1 := if nCompact0 &&& 0x00800000 ≠ 0 then nCompact0 >>> 8 else nCompact0
  let nSize := if nCompact0 &&& 0x00800000 ≠ 0 then nSize0 + 1 else nSize0
  if nCompact1 &&& ~~~0x007fffff ≠ 0 then .error "assert (nCompact & ~0x007fffff) == 0"
  else if 256 ≤ nSize then .error "assert nSize < 256"
  else
    let nCompact2 := nCompact1 ||| (nSize.toUInt32 <<< 24)
    .ok (nCompact2 ||| (if fNegative && nCompact2 &&& 0x007fffff ≠ 0 then 0x00800000 else 0))

end ArithUint256

end Unitus
