import Unitus.Primitives.Transaction

/-!
# Address — base58 text, its checksummed form, and addresses (`base58.cpp`)

`EncodeBase58` and `DecodeBase58` convert between bytes and base-58 text by schoolbook
multiplication on a buffer of digits allocated from the input's length: `b58 = b58 * 256 + ch`
for every byte, `b256 = b256 * 58 + ch` for every character.  Both run the same inner loop
(`mulAddLoop`) from the buffer's end, as far as the highest digit written so far (`length`) or
as far as a carry is left, and then `assert(carry == 0)`; a failed `assert` is `.error`.
Leading zero bytes are written as leading `'1'`s and read back.  Text is bytes read as a C
string: its first `0`, or its end, terminates it.

`EncodeBase58Check` appends the first four bytes of the payload's hash, and `DecodeBase58Check`
checks and strips them; `Hash` (double SHA-256, `hash.h`) is a parameter.  A `CBase58Data` is a
version prefix and a payload; a `CBitcoinAddress` is one whose payload is a 20-byte key or script
id under the chain's `PUBKEY_ADDRESS` or `SCRIPT_ADDRESS` prefix (`CChainParams::Base58Prefix`).
-/

namespace Unitus

/-! ### Base 58 -/

/-- `pszBase58`: the digits, every alphanumeric character but `0`, `I`, `O` and `l`. -/
def pszBase58 : List UInt8 :=
  "123456789ABCDEFGHJKLMNPQRSTUVWXYZabcdefghijkmnopqrstuvwxyz".toList.map Char.toUInt8

/-- `isspace` in the C locale: `' '`, `'\t'`, `'\n'`, `'\v'`, `'\f'` and `'\r'`. -/
def isspace (c : UInt8) : Bool := c == 32 || (9 ≤ c && c ≤ 13)

/-- `*psz`: the character a C string starts with, `0` at its end. -/
def cur (psz : List UInt8) : UInt8 := psz.headD 0

/-- `strlen(psz)`. -/
def strlen (psz : List UInt8) : Nat := (psz.takeWhile (· != 0)).length

/-- `strchr(pszBase58, c) - pszBase58` for a character `c ≠ 0`: the digit it stands for, or
`none` where `strchr` gives the null pointer. -/
def strchrBase58 (c : UInt8) : Option Nat := pszBase58.idxOf? c

/-- The inner loop of both conversions, `b = b * base + carry` on a buffer of digits of base
`radix` read from its end (`rbegin()` onward): it goes on while `carry != 0 || i < length` and
the buffer lasts.  It returns the buffer as read, with the digits it passed rewritten, the carry
left and `i`. -/
def mulAddLoop (base radix length : Nat) : Nat → Nat → List UInt8 → List UInt8 × Nat × Nat
  | carry, i, [] => ([], carry, i)
  | carry, i, d :: ds =>
    if carry != 0 || decide (i < length) then
      let carry := carry + base * d.toNat
      let r := mulAddLoop base radix length (carry / radix) (i + 1) ds
      ((carry % radix).toUInt8 :: r.1, r.2)
    else (d :: ds, carry, i)

/-- One digit `ch` multiplied into the big-endian buffer `b`: the inner loop over `b` from its
end, `assert(carry == 0)`, and `length = i`. -/
def mulAddStep (base radix : Nat) (b : List UInt8) (length ch : Nat) :
    Except String (List UInt8 × Nat) :=
  let r := mulAddLoop base radix length ch 0 b.reverse
  if r.2.1 ≠ 0 then .error "assert(carry == 0)" else .ok (r.1.reverse, r.2.2)

/-- `EncodeBase58`'s loop over the bytes: "b58 = b58 * 256 + ch" for each. -/
def encodeBase58Loop : List UInt8 → List UInt8 → Nat → Except String (List UInt8 × Nat)
  | [], b58, length => .ok (b58, length)
  | c :: cs, b58, length => do
    let r ← mulAddStep 256 58 b58 length c.toNat
    encodeBase58Loop cs r.1 r.2

/-- `EncodeBase58(pbegin, pend)`: the leading zero bytes as `'1'`s, and the rest in base 58 with
the buffer's leading zero digits skipped.  The source keeps `zeroes`, `length` and `size` in
`int`; `size = (pend - pbegin) * 138 / 100 + 1` is computed in `ptrdiff_t` and narrows to `int`
past about `1.55e9` input bytes.  The model counts in `Nat`, the same below that length. -/
def EncodeBase58 (v : List UInt8) : Except String (List UInt8) := do
  let zeroes := (v.takeWhile (· == 0)).length
  let v := v.drop zeroes
  -- log(256) / log(58), rounded up
  let size := v.length * 138 / 100 + 1
  let r ← encodeBase58Loop v (List.replicate size 0) 0
  let digits := (r.1.drop (size - r.2)).dropWhile (· == 0)
  return List.replicate zeroes '1'.toUInt8 ++ digits.map (fun d => pszBase58.getD d.toNat 0)

/-- `DecodeBase58`'s loop over the characters up to a space or the end of the string:
"b256 = b256 * 58 + ch" for each.  `none` at a character that is no digit (the source's
`return false`), else the buffer, `length` and the text left. -/
def decodeBase58Loop : List UInt8 → List UInt8 → Nat →
    Except String (Option (List UInt8 × Nat × List UInt8))
  | [], b256, length => .ok (some (b256, length, []))
  | c :: psz, b256, length =>
    if c != 0 && !isspace c then
      match strchrBase58 c with
      | none => .ok none
      | some ch => do
        let r ← mulAddStep 58 256 b256 length ch
        decodeBase58Loop psz r.1 r.2
    else .ok (some (b256, length, c :: psz))

/-- `DecodeBase58(psz, vch)`: `some vch` where it returns `true`.  Spaces around the digits are
skipped; the leading `'1'`s are zero bytes; anything after the trailing spaces fails it.  The
source keeps `zeroes`, `length` and `size` in `int`; `size = strlen(psz) * 733 / 1000 + 1` is
computed in `size_t` and narrows to `int` past about `2.9e9` characters, and `zeroes` past
`2 ^ 31 - 1` leading `'1'`s.  The model counts in `Nat`, the same below those lengths. -/
def DecodeBase58 (psz : List UInt8) : Except String (Option (List UInt8)) := do
  let psz := psz.dropWhile isspace
  let zeroes := (psz.takeWhile (· == '1'.toUInt8)).length
  let psz := psz.drop zeroes
  -- log(58) / log(256), rounded up
  let size := strlen psz * 733 / 1000 + 1
  match ← decodeBase58Loop psz (List.replicate size 0) 0 with
  | none => return none
  | some (b256, length, psz) =>
    if cur (psz.dropWhile isspace) != 0 then return none
    else return some (List.replicate zeroes 0 ++ (b256.drop (size - length)).dropWhile (· == 0))

/-! ### With a checksum -/

section Check

variable (Hash : List UInt8 → Uint256)

/-- `EncodeBase58Check(vchIn)`: the payload and the first four bytes of its hash, in base 58. -/
def EncodeBase58Check (vchIn : List UInt8) : Except String (List UInt8) :=
  EncodeBase58 (vchIn ++ (Hash vchIn).data.take 4)

/-- `DecodeBase58Check(psz, vchRet)`: the payload where it returns `true`; `none` where it
returns `false`, with `vchRet` cleared. -/
def DecodeBase58Check (psz : List UInt8) : Except String (Option (List UInt8)) := do
  match ← DecodeBase58 psz with
  | none => return none
  | some vchRet =>
    if vchRet.length < 4 then return none
    else if (Hash (vchRet.take (vchRet.length - 4))).data.take 4 !=
        vchRet.drop (vchRet.length - 4) then return none
    else return some (vchRet.take (vchRet.length - 4))

/-- `CBase58Data`: a version prefix and a payload. -/
structure CBase58Data where
  vchVersion : List UInt8
  vchData : List UInt8
  deriving DecidableEq, Repr

namespace CBase58Data

/-- `SetData(vchVersionIn, pdata, nSize)`. -/
def SetData (vchVersionIn vchData : List UInt8) : CBase58Data := ⟨vchVersionIn, vchData⟩

/-- `SetString(psz, nVersionBytes)`: whether it returns `true`, and the data it leaves; both
fields are cleared where it returns `false`.  The one-argument `SetString(str)` passes
`nVersionBytes = 1`. -/
def SetString (psz : List UInt8) (nVersionBytes : Nat) : Except String (Bool × CBase58Data) := do
  match ← DecodeBase58Check Hash psz with
  | none => return (false, ⟨[], []⟩)
  | some vchTemp =>
    if vchTemp.length < nVersionBytes then return (false, ⟨[], []⟩)
    else return (true, ⟨vchTemp.take nVersionBytes, vchTemp.drop nVersionBytes⟩)

/-- `ToString()`: version and payload, with their checksum, in base 58. -/
def ToString (d : CBase58Data) : Except String (List UInt8) :=
  EncodeBase58Check Hash (d.vchVersion ++ d.vchData)

end CBase58Data

end Check

/-! ### Addresses -/

/-- `uint160`: 20 bytes. -/
structure Uint160 where
  data : List UInt8
  length_data : data.length = 20
  deriving DecidableEq

/-- `memcpy(&id, p, 20)`: the first 20 bytes of `p`, read where `p` has 20. -/
def Uint160.ofBytes (p : List UInt8) : Uint160 :=
  ⟨p.take 20 ++ List.replicate (20 - p.length) 0, by simp; omega⟩

/-- `CTxDestination`: no destination, the hash of a key, or the hash of a script. -/
inductive CTxDestination where
  | CNoDestination
  | CKeyID (id : Uint160)
  | CScriptID (id : Uint160)
  deriving DecidableEq

/-- `CChainParams::Base58Type`. -/
inductive Base58Type where
  | PUBKEY_ADDRESS
  | SCRIPT_ADDRESS
  | SECRET_KEY
  | EXT_PUBLIC_KEY
  | EXT_SECRET_KEY
  deriving DecidableEq, Repr

/-- `base58Prefixes` of `CMainParams`. -/
def mainBase58Prefixes : Base58Type → List UInt8
  | .PUBKEY_ADDRESS => [68]
  | .SCRIPT_ADDRESS => [10]
  | .SECRET_KEY => [132]
  | .EXT_PUBLIC_KEY => [0x04, 0x88, 0xB2, 0x1E]
  | .EXT_SECRET_KEY => [0x04, 0x88, 0xAD, 0xE4]

/-- `base58Prefixes` of `CTestNetParams`. -/
def testNetBase58Prefixes : Base58Type → List UInt8
  | .PUBKEY_ADDRESS => [130]
  | .SCRIPT_ADDRESS => [192]
  | .SECRET_KEY => [239]
  | .EXT_PUBLIC_KEY => [0x04, 0x35, 0x87, 0xCF]
  | .EXT_SECRET_KEY => [0x04, 0x35, 0x83, 0x94]

/-- `base58Prefixes` of `CRegTestParams`. -/
def regTestBase58Prefixes : Base58Type → List UInt8
  | .PUBKEY_ADDRESS => [111]
  | .SCRIPT_ADDRESS => [196]
  | .SECRET_KEY => [239]
  | .EXT_PUBLIC_KEY => [0x04, 0x35, 0x87, 0xCF]
  | .EXT_SECRET_KEY => [0x04, 0x35, 0x83, 0x94]

namespace CBitcoinAddress

variable (Base58Prefix : Base58Type → List UInt8)

/-- `CBitcoinAddress::Set(dest)`: the id under the prefix of its kind; `false`, with the data
unchanged, for no destination. -/
def Set (a : CBase58Data) : CTxDestination → Bool × CBase58Data
  | .CNoDestination => (false, a)
  | .CKeyID id => (true, CBase58Data.SetData (Base58Prefix .PUBKEY_ADDRESS) id.data)
  | .CScriptID id => (true, CBase58Data.SetData (Base58Prefix .SCRIPT_ADDRESS) id.data)

/-- `CBitcoinAddress::IsValid(params)`: a 20-byte payload under a key or a script prefix. -/
def IsValid (a : CBase58Data) : Bool :=
  a.vchData.length == 20 &&
    (a.vchVersion == Base58Prefix .PUBKEY_ADDRESS || a.vchVersion == Base58Prefix .SCRIPT_ADDRESS)

/-- `CBitcoinAddress::Get()`: the destination an address names. -/
def Get (a : CBase58Data) : CTxDestination :=
  if !IsValid Base58Prefix a then .CNoDestination
  else if a.vchVersion == Base58Prefix .PUBKEY_ADDRESS then .CKeyID (Uint160.ofBytes a.vchData)
  else if a.vchVersion == Base58Prefix .SCRIPT_ADDRESS then .CScriptID (Uint160.ofBytes a.vchData)
  else .CNoDestination

/-- `CBitcoinAddress::GetKeyID(keyID)`: the key id, where the address is one. -/
def GetKeyID (a : CBase58Data) : Option Uint160 :=
  if !IsValid Base58Prefix a || a.vchVersion != Base58Prefix .PUBKEY_ADDRESS then none
  else some (Uint160.ofBytes a.vchData)

/-- `CBitcoinAddress::IsScript()`. -/
def IsScript (a : CBase58Data) : Bool :=
  IsValid Base58Prefix a && a.vchVersion == Base58Prefix .SCRIPT_ADDRESS

end CBitcoinAddress

end Unitus
