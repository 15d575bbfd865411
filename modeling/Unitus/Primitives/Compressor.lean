import Unitus.Primitives.VarInt
import Unitus.Script.Script

/-!
# Primitives — the compressed serialization of outputs

`CTxOutCompressor` (`compressor.h`) writes an output as `VARINT(CompressAmount(nValue))` and its
script through `CScriptCompressor`.  The script compressor writes the three standard forms, pay
to a key hash, to a script hash and to a public key, as a kind byte and 20 or 32 bytes, and any
other script as `VARINT(size + 6)` and its bytes; a script read back with a size above
`MAX_SCRIPT_SIZE` is skipped and replaced by `OP_RETURN`.

`CompressAmount` and `DecompressAmount` (`compressor.cpp`) are on `uint64_t`, here `UInt64`,
whose arithmetic wraps as the source's does; the script's size is an `unsigned int`.  The
public-key operations come from libsecp256k1 and are a parameter, `PubKeyOps`.
-/

namespace Unitus

open Codec

/-! ### Amounts -/

/-- The loop `while (((n % 10) == 0) && e < 9) { n /= 10; e++; }` of `CompressAmount`, with
`k` passes left before `e` reaches nine. -/
def compressAmountLoop : Nat → UInt64 → Nat → UInt64 × Nat
  | 0, n, e => (n, e)
  | k + 1, n, e => if n % 10 = 0 then compressAmountLoop k (n / 10) (e + 1) else (n, e)

/-- `CTxOutCompressor::CompressAmount(n)`.  Its `assert(d >= 1 && d <= 9)` holds: the loop
stops below nine only at a last digit that is not zero. -/
def CompressAmount (n : UInt64) : UInt64 :=
  if n = 0 then 0
  else
    let r := compressAmountLoop 9 n 0
    if r.2 < 9 then
      let d := r.1 % 10
      1 + (r.1 / 10 * 9 + d - 1) * 10 + r.2.toUInt64
    else 1 + (r.1 - 1) * 10 + 9

/-- The loop `while (e) { n *= 10; e--; }` of `DecompressAmount`. -/
def decompressAmountLoop : Nat → UInt64 → UInt64
  | 0, n => n
  | e + 1, n => decompressAmountLoop e (n * 10)

/-- `CTxOutCompressor::DecompressAmount(x)`. -/
def DecompressAmount (x : UInt64) : UInt64 :=
  if x = 0 then 0
  else
    let e := (x - 1) % 10
    let x := (x - 1) / 10
    let n := if e < 9 then x / 9 * 10 + (x % 9 + 1) else x + 1
    decompressAmountLoop e.toNat n

/-! ### Scripts -/

/-- `nSpecialScripts`: the kinds of special script. -/
def nSpecialScripts : Nat := 6

/-- What the compressor uses of `CPubKey` (`pubkey.cpp`, over libsecp256k1): `IsFullyValid()`
of a key, and `Decompress()` of a compressed key, which gives the 65-byte key or fails. -/
structure PubKeyOps where
  IsFullyValid : List UInt8 → Bool
  Decompress : List UInt8 → Option {pubkey : List UInt8 // pubkey.length = 65}

/-- `CScriptCompressor::IsToKeyID`: `OP_DUP OP_HASH160 <20 bytes> OP_EQUALVERIFY OP_CHECKSIG`,
and its 20 bytes. -/
def IsToKeyID (script : CScript) : Option (List UInt8) :=
  if script.length = 25 ∧ script.getD 0 0 = OP_DUP ∧ script.getD 1 0 = OP_HASH160 ∧
      script.getD 2 0 = 20 ∧ script.getD 23 0 = OP_EQUALVERIFY ∧ script.getD 24 0 = OP_CHECKSIG
  then some ((script.drop 3).take 20) else none

/-- `CScriptCompressor::IsToScriptID`: `OP_HASH160 <20 bytes> OP_EQUAL`, and its 20 bytes. -/
def IsToScriptID (script : CScript) : Option (List UInt8) :=
  if script.length = 23 ∧ script.getD 0 0 = OP_HASH160 ∧ script.getD 1 0 = 20 ∧
      script.getD 22 0 = OP_EQUAL
  then some ((script.drop 2).take 20) else none

/-- `CScriptCompressor::IsToPubKey`: `<33-byte compressed key> OP_CHECKSIG`, or `<65-byte key>
OP_CHECKSIG` with the key fully valid, and the key. -/
def IsToPubKey (ops : PubKeyOps) (script : CScript) : Option (List UInt8) :=
  if script.length = 35 ∧ script.getD 0 0 = 33 ∧ script.getD 34 0 = OP_CHECKSIG ∧
      (script.getD 1 0 = 0x02 ∨ script.getD 1 0 = 0x03)
  then some ((script.drop 1).take 33)
  else if script.length = 67 ∧ script.getD 0 0 = 65 ∧ script.getD 66 0 = OP_CHECKSIG ∧
      script.getD 1 0 = 0x04
  then
    let pubkey := (script.drop 1).take 65
    if ops.IsFullyValid pubkey then some pubkey else none
  else none

/-- `CScriptCompressor::Compress`: the kind byte and the 20 bytes of a hash, or the kind byte
and the 32 bytes of a key's x coordinate; the kind of a full key, `4` or `5`, keeps the parity
of its y coordinate. -/
def Compress (ops : PubKeyOps) (script : CScript) : Option (List UInt8) :=
  match IsToKeyID script with
  | some keyID => some (0x00 :: keyID)
  | none =>
    match IsToScriptID script with
    | some scriptID => some (0x01 :: scriptID)
    | none =>
      match IsToPubKey ops script with
      | some pubkey =>
        if pubkey.getD 0 0 = 0x02 ∨ pubkey.getD 0 0 = 0x03 then
          some (pubkey.getD 0 0 :: (pubkey.drop 1).take 32)
        else if pubkey.getD 0 0 = 0x04 then
          some ((0x04 ||| (pubkey.getD 64 0 &&& 0x01)) :: (pubkey.drop 1).take 32)
        else none
      | none => none

/-- `CScriptCompressor::GetSpecialSize`: the bytes after a kind byte. -/
def GetSpecialSize (nSize : Nat) : Nat :=
  if nSize = 0 ∨ nSize = 1 then 20
  else if nSize = 2 ∨ nSize = 3 ∨ nSize = 4 ∨ nSize = 5 then 32
  else 0

/-- `CScriptCompressor::Decompress(nSize, in)`: the script of a special kind, or `none` where the
source returns `false` and leaves the script as it was. -/
def Decompress (ops : PubKeyOps) (nSize : Nat) (vin : List UInt8) : Option CScript :=
  if nSize = 0 then some ([OP_DUP, OP_HASH160, 20] ++ vin.take 20 ++ [OP_EQUALVERIFY, OP_CHECKSIG])
  else if nSize = 1 then some ([OP_HASH160, 20] ++ vin.take 20 ++ [OP_EQUAL])
  else if nSize = 2 ∨ nSize = 3 then some ([33, nSize.toUInt8] ++ vin.take 32 ++ [OP_CHECKSIG])
  else if nSize = 4 ∨ nSize = 5 then
    match ops.Decompress ((nSize - 2).toUInt8 :: vin.take 32) with
    | some pubkey => some ([65] ++ pubkey.1 ++ [OP_CHECKSIG])
    | none => none
  else none

/-- `CDataStream::ignore(int nSize)`, given an `unsigned int`: above `2^31 - 1` it is negative. -/
def ignore (nSize : Nat) : StreamReader Unit := fun s =>
  if 2 ^ 31 ≤ nSize then .error "CDataStream::ignore(): nSize negative"
  else if s.length < nSize then .error "CDataStream::ignore(): end of data"
  else .ok ((), s.drop nSize)

/-- `CScriptCompressor::Serialize`: the compressed form, or `VARINT(size + 6)` (an
`unsigned int`) and the script's bytes. -/
def CScriptCompressor.Serialize (ops : PubKeyOps) (script : CScript) : List UInt8 :=
  match Compress ops script with
  | some compr => compr
  | none => VarInt.WriteVarInt (BitVec.ofNat 32 (script.length + nSpecialScripts)) ++ script

/-- `CScriptCompressor::Unserialize` into a script that holds `script`. -/
def CScriptCompressor.Unserialize (ops : PubKeyOps) (script : CScript) : StreamReader CScript := do
  let nSize ← VarInt.ReadVarInt (w := 32)
  if nSize.toNat < nSpecialScripts then
    let vch ← readTokens endOfData (GetSpecialSize nSize.toNat)
    pure ((Decompress ops nSize.toNat vch.1).getD script)
  else if MAX_SCRIPT_SIZE < nSize.toNat - nSpecialScripts then
    -- an overly long script is replaced with a short invalid one
    ignore (nSize.toNat - nSpecialScripts)
    pure (script ++ [OP_RETURN])
  else
    let bytes ← readTokens endOfData (nSize.toNat - nSpecialScripts)
    pure bytes.1

/-! ### Outputs -/

/-- `CTxOutCompressor` serialized: the amount, as a `uint64_t`, compressed, then the script. -/
def CTxOutCompressor.Serialize (ops : PubKeyOps) (txout : CTxOut) : List UInt8 :=
  VarInt.WriteVarInt (CompressAmount (UInt64.ofInt txout.nValue)).toBitVec ++
    CScriptCompressor.Serialize ops txout.scriptPubKey

/-- `CTxOutCompressor` unserialized into `txout`: the amount decompressed and stored in the
`int64_t` `nValue`, then the script read into `txout.scriptPubKey`. -/
def CTxOutCompressor.Unserialize (ops : PubKeyOps) (txout : CTxOut) : StreamReader CTxOut := do
  let nVal ← VarInt.ReadVarInt (w := 64)
  let nValue := (DecompressAmount (UInt64.ofBitVec nVal)).toInt64.toInt
  let scriptPubKey ← CScriptCompressor.Unserialize ops txout.scriptPubKey
  pure ⟨nValue, scriptPubKey⟩

end Unitus
