import Mathlib

/-!
# Util — base64 and base32 (`utilstrencodings.cpp`)

`EncodeBase64` and `EncodeBase32` walk the bytes with a `mode` that says how many bits of the
last byte are still to be written and a `left` that holds them, shifted into place; at the end
a `mode` other than `0` writes `left` and the `=` padding.  `DecodeBase64` and `DecodeBase32`
walk the characters up to the first one their table rejects, with a `mode` that counts the
characters of the current group and a `left` that holds the bits not yet written; after the
loop, `*pfInvalid` is set unless the `mode` is one the encoder can end in, the bits in `left`
are clear and the padding the `mode` asks for follows.

A C string is the list of its bytes; a read at or past its end reads the terminating `NUL`,
which both tables reject, so the decoders' reads past the last character stop there.  The
`int`s of the source hold small non-negative values and are written on `Nat`; a byte pushed
onto `vchRet` is the `int` truncated to `unsigned char`.
-/

namespace Unitus

/-- `pbase64` of `EncodeBase64`. -/
def pbase64 : List UInt8 :=
  "ABCDEFGHIJKLMNOPQRSTUVWXYZabcdefghijklmnopqrstuvwxyz0123456789+/".toList.map Char.toUInt8

/-- `pbase32` of `EncodeBase32`. -/
def pbase32 : List UInt8 := "abcdefghijklmnopqrstuvwxyz234567".toList.map Char.toUInt8

/-- `decode64_table` of `DecodeBase64`: a character's six bits, or `-1`; the rows of the source,
twenty entries each. -/
def decode64_table : List Int := List.flatten
  [ [-1, -1, -1, -1, -1, -1, -1, -1, -1, -1, -1, -1, -1, -1, -1, -1, -1, -1, -1, -1],
    [-1, -1, -1, -1, -1, -1, -1, -1, -1, -1, -1, -1, -1, -1, -1, -1, -1, -1, -1, -1],
    [-1, -1, -1, 62, -1, -1, -1, 63, 52, 53, 54, 55, 56, 57, 58, 59, 60, 61, -1, -1],
    [-1, -1, -1, -1, -1,  0,  1,  2,  3,  4,  5,  6,  7,  8,  9, 10, 11, 12, 13, 14],
    [15, 16, 17, 18, 19, 20, 21, 22, 23, 24, 25, -1, -1, -1, -1, -1, -1, 26, 27, 28],
    [29, 30, 31, 32, 33, 34, 35, 36, 37, 38, 39, 40, 41, 42, 43, 44, 45, 46, 47, 48],
    [49, 50, 51, -1, -1, -1, -1, -1, -1, -1, -1, -1, -1, -1, -1, -1, -1, -1, -1, -1],
    [-1, -1, -1, -1, -1, -1, -1, -1, -1, -1, -1, -1, -1, -1, -1, -1, -1, -1, -1, -1],
    [-1, -1, -1, -1, -1, -1, -1, -1, -1, -1, -1, -1, -1, -1, -1, -1, -1, -1, -1, -1],
    [-1, -1, -1, -1, -1, -1, -1, -1, -1, -1, -1, -1, -1, -1, -1, -1, -1, -1, -1, -1],
    [-1, -1, -1, -1, -1, -1, -1, -1, -1, -1, -1, -1, -1, -1, -1, -1, -1, -1, -1, -1],
    [-1, -1, -1, -1, -1, -1, -1, -1, -1, -1, -1, -1, -1, -1, -1, -1, -1, -1, -1, -1],
    [-1, -1, -1, -1, -1, -1, -1, -1, -1, -1, -1, -1, -1, -1, -1, -1] ]

/-- `decode32_table` of `DecodeBase32`: a character's five bits, or `-1`, upper and lower case
letters alike; the rows of the source, twenty entries each. -/
def decode32_table : List Int := List.flatten
  [ [-1, -1, -1, -1, -1, -1, -1, -1, -1, -1, -1, -1, -1, -1, -1, -1, -1, -1, -1, -1],
    [-1, -1, -1, -1, -1, -1, -1, -1, -1, -1, -1, -1, -1, -1, -1, -1, -1, -1, -1, -1],
    [-1, -1, -1, -1, -1, -1, -1, -1, -1, -1, 26, 27, 28, 29, 30, 31, -1, -1, -1, -1],
    [-1, -1, -1, -1, -1,  0,  1,  2,  3,  4,  5,  6,  7,  8,  9, 10, 11, 12, 13, 14],
    [15, 16, 17, 18, 19, 20, 21, 22, 23, 24, 25, -1, -1, -1, -1, -1, -1,  0,  1,  2],
    [3,  4,  5,  6,  7,  8,  9, 10, 11, 12, 13, 14, 15, 16, 17, 18, 19, 20, 21, 22],
    [23, 24, 25, -1, -1, -1, -1, -1, -1, -1, -1, -1, -1, -1, -1, -1, -1, -1, -1, -1],
    [-1, -1, -1, -1, -1, -1, -1, -1, -1, -1, -1, -1, -1, -1, -1, -1, -1, -1, -1, -1],
    [-1, -1, -1, -1, -1, -1, -1, -1, -1, -1, -1, -1, -1, -1, -1, -1, -1, -1, -1, -1],
    [-1, -1, -1, -1, -1, -1, -1, -1, -1, -1, -1, -1, -1, -1, -1, -1, -1, -1, -1, -1],
    [-1, -1, -1, -1, -1, -1, -1, -1, -1, -1, -1, -1, -1, -1, -1, -1, -1, -1, -1, -1],
    [-1, -1, -1, -1, -1, -1, -1, -1, -1, -1, -1, -1, -1, -1, -1, -1, -1, -1, -1, -1],
    [-1, -1, -1, -1, -1, -1, -1, -1, -1, -1, -1, -1, -1, -1, -1, -1] ]

/-! ## The encoders -/

/-- What the encoders keep between bytes. -/
structure EncodeState where
  mode : Nat
  left : Nat
  strRet : List UInt8
  deriving DecidableEq, Repr

/-- One byte `enc` of `EncodeBase64`'s loop. -/
def encodeBase64Step (s : EncodeState) (enc : Nat) : EncodeState :=
  match s.mode with
  | 0 => -- we have no bits
    { mode := 1, left := (enc &&& 3) <<< 4, strRet := s.strRet ++ [pbase64.getD (enc >>> 2) 0] }
  | 1 => -- we have two bits
    { mode := 2, left := (enc &&& 15) <<< 2
      strRet := s.strRet ++ [pbase64.getD (s.left ||| (enc >>> 4)) 0] }
  | 2 => -- we have four bits
    { s with
      mode := 0
      strRet := s.strRet ++ [pbase64.getD (s.left ||| (enc >>> 6)) 0, pbase64.getD (enc &&& 63) 0] }
  | _ => s

/-- The end of `EncodeBase64`: with bits left over, their character and the `=` padding. -/
def encodeBase64Finish (s : EncodeState) : List UInt8 :=
  if s.mode ≠ 0 then
    s.strRet ++ [pbase64.getD s.left 0, '='.toUInt8] ++ (if s.mode = 1 then ['='.toUInt8] else [])
  else s.strRet

/-- `EncodeBase64(pch, len)`. -/
def EncodeBase64 (v : List UInt8) : List UInt8 :=
  encodeBase64Finish (v.foldl (fun s enc => encodeBase64Step s enc.toNat) ⟨0, 0, []⟩)

/-- One byte `enc` of `EncodeBase32`'s loop. -/
def encodeBase32Step (s : EncodeState) (enc : Nat) : EncodeState :=
  match s.mode with
  | 0 => -- we have no bits
    { mode := 1, left := (enc &&& 7) <<< 2, strRet := s.strRet ++ [pbase32.getD (enc >>> 3) 0] }
  | 1 => -- we have three bits
    { mode := 2, left := (enc &&& 1) <<< 4
      strRet := s.strRet ++
        [pbase32.getD (s.left ||| (enc >>> 6)) 0, pbase32.getD ((enc >>> 1) &&& 31) 0] }
  | 2 => -- we have one bit
    { mode := 3, left := (enc &&& 15) <<< 1
      strRet := s.strRet ++ [pbase32.getD (s.left ||| (enc >>> 4)) 0] }
  | 3 => -- we have four bits
    { mode := 4, left := (enc &&& 3) <<< 3
      strRet := s.strRet ++
        [pbase32.getD (s.left ||| (enc >>> 7)) 0, pbase32.getD ((enc >>> 2) &&& 31) 0] }
  | 4 => -- we have two bits
    { s with
      mode := 0
      strRet := s.strRet ++ [pbase32.getD (s.left ||| (enc >>> 5)) 0, pbase32.getD (enc &&& 31) 0] }
  | _ => s

/-- `nPadding` of `EncodeBase32`: the `=` written after the last character, by `mode`. -/
def nPadding : List Nat := [0, 6, 4, 3, 1]

/-- The end of `EncodeBase32`: with bits left over, their character and `nPadding[mode]` `=`. -/
def encodeBase32Finish (s : EncodeState) : List UInt8 :=
  if s.mode ≠ 0 then
    s.strRet ++ [pbase32.getD s.left 0] ++ List.replicate (nPadding.getD s.mode 0) '='.toUInt8
  else s.strRet

/-- `EncodeBase32(pch, len)`. -/
def EncodeBase32 (v : List UInt8) : List UInt8 :=
  encodeBase32Finish (v.foldl (fun s enc => encodeBase32Step s enc.toNat) ⟨0, 0, []⟩)

/-! ## The decoders -/

/-- What the decoders keep between characters. -/
structure DecodeState where
  mode : Nat
  left : Nat
  vchRet : List UInt8
  deriving DecidableEq, Repr

/-- The loop of `DecodeBase64` and `DecodeBase32` over the string `p`, with the decoder's table
and the body of its `switch`: the state at the first character the table rejects, and the
string from that character on. -/
def decodeLoop (table : List Int) (step : DecodeState → Nat → DecodeState) :
    List UInt8 → DecodeState → DecodeState × List UInt8
  | [], s => (s, [])
  | c :: p, s =>
    let dec := table.getD c.toNat (-1)
    if dec = -1 then (s, c :: p) else decodeLoop table step p (step s dec.toNat)

/-- The padding check of the decoders after the loop: `left || p[0] != '=' || ... ||
p[n-1] != '=' || table[p[n]] != -1`. -/
def paddingInvalid (table : List Int) (left : Nat) (p : List UInt8) (n : Nat) : Bool :=
  left != 0 || (List.range n).any (fun i => p.getD i 0 != '='.toUInt8) ||
    table.getD (p.getD n 0).toNat (-1) != -1

/-- One character's bits `dec` of `DecodeBase64`'s loop. -/
def decodeBase64Step (s : DecodeState) (dec : Nat) : DecodeState :=
  match s.mode with
  | 0 => -- we have no bits and get 6
    { s with left := dec, mode := 1 }
  | 1 => -- we have 6 bits and keep 4
    { vchRet := s.vchRet ++ [((s.left <<< 2) ||| (dec >>> 4)).toUInt8], left := dec &&& 15
      mode := 2 }
  | 2 => -- we have 4 bits and get 6, we keep 2
    { vchRet := s.vchRet ++ [((s.left <<< 4) ||| (dec >>> 2)).toUInt8], left := dec &&& 3
      mode := 3 }
  | 3 => -- we have 2 bits and get 6
    { s with vchRet := s.vchRet ++ [((s.left <<< 6) ||| dec).toUInt8], mode := 0 }
  | _ => s

/-- `*pfInvalid` after `DecodeBase64`'s loop, from its state and the string from where it
stopped. -/
def decodeBase64Invalid (s : DecodeState) (p : List UInt8) : Bool :=
  match s.mode with
  | 0 => false -- 4n base64 characters processed: ok
  | 1 => true -- 4n+1 base64 character processed: impossible
  | 2 => -- 4n+2 base64 characters processed: require '=='
    paddingInvalid decode64_table s.left p 2
  | 3 => -- 4n+3 base64 characters processed: require '='
    paddingInvalid decode64_table s.left p 1
  | _ => false

/-- `DecodeBase64(p, pfInvalid)`: the bytes and `*pfInvalid`. -/
def DecodeBase64 (p : List UInt8) : List UInt8 × Bool :=
  let r := decodeLoop decode64_table decodeBase64Step p ⟨0, 0, []⟩
  (r.1.vchRet, decodeBase64Invalid r.1 r.2)

/-- One character's bits `dec` of `DecodeBase32`'s loop. -/
def decodeBase32Step (s : DecodeState) (dec : Nat) : DecodeState :=
  match s.mode with
  | 0 => -- we have no bits and get 5
    { s with left := dec, mode := 1 }
  | 1 => -- we have 5 bits and keep 2
    { vchRet := s.vchRet ++ [((s.left <<< 3) ||| (dec >>> 2)).toUInt8], left := dec &&& 3
      mode := 2 }
  | 2 => -- we have 2 bits and keep 7
    { s with left := s.left <<< 5 ||| dec, mode := 3 }
  | 3 => -- we have 7 bits and keep 4
    { vchRet := s.vchRet ++ [((s.left <<< 1) ||| (dec >>> 4)).toUInt8], left := dec &&& 15
      mode := 4 }
  | 4 => -- we have 4 bits, and keep 1
    { vchRet := s.vchRet ++ [((s.left <<< 4) ||| (dec >>> 1)).toUInt8], left := dec &&& 1
      mode := 5 }
  | 5 => -- we have 1 bit, and keep 6
    { s with left := s.left <<< 5 ||| dec, mode := 6 }
  | 6 => -- we have 6 bits, and keep 3
    { vchRet := s.vchRet ++ [((s.left <<< 2) ||| (dec >>> 3)).toUInt8], left := dec &&& 7
      mode := 7 }
  | 7 => -- we have 3 bits, and keep 0
    { s with vchRet := s.vchRet ++ [((s.left <<< 5) ||| dec).toUInt8], mode := 0 }
  | _ => s

/-- `*pfInvalid` after `DecodeBase32`'s loop, from its state and the string from where it
stopped. -/
def decodeBase32Invalid (s : DecodeState) (p : List UInt8) : Bool :=
  match s.mode with
  | 0 => false -- 8n base32 characters processed: ok
  | 1 | 3 | 6 => true -- 8n+1, 8n+3, 8n+6 base32 characters processed: impossible
  | 2 => -- 8n+2 base32 characters processed: require '======'
    paddingInvalid decode32_table s.left p 6
  | 4 => -- 8n+4 base32 characters processed: require '===='
    paddingInvalid decode32_table s.left p 4
  | 5 => -- 8n+5 base32 characters processed: require '==='
    paddingInvalid decode32_table s.left p 3
  | 7 => -- 8n+7 base32 characters processed: require '='
    paddingInvalid decode32_table s.left p 1
  | _ => false

/-- `DecodeBase32(p, pfInvalid)`: the bytes and `*pfInvalid`. -/
def DecodeBase32 (p : List UInt8) : List UInt8 × Bool :=
  let r := decodeLoop decode32_table decodeBase32Step p ⟨0, 0, []⟩
  (r.1.vchRet, decodeBase32Invalid r.1 r.2)

end Unitus
