import Unitus.Primitives.Unserialize
import Unitus.Lib.Bytes

/-!
# Primitives — `VARINT`

`VARINT` (`serialize.h`) writes an unsigned integer as base-128 digits, most significant first,
every digit but the last with its top bit set, and one subtracted from every digit but the last,
so that, by the format comment, "every integer has exactly one encoding".  The template is over
the integer type `I` (`unsigned int`, `uint64_t`); here `I` has `w` bits and its values are
`BitVec w`.

`WriteVarInt` and `GetSizeOfVarInt` never wrap (`n >> 7` is at least one where one is taken off
it), so they are written on the value `n.toNat`; `ReadVarInt` does wrap, and is written on
`BitVec w`: it shifts and adds with no check, so an input longer than the type's encodings
reads as its value modulo `2 ^ w`.

The reader is read against `readNat`, the number a byte sequence stands for with no bound on
the width (the format comment's sum), and the writer against the same: every byte sequence the
reader accepts is the encoding of some number `v` and reads as `v` modulo `2 ^ w`, and it is
the encoding of what it reads exactly when `v < 2 ^ w` (`ReadVarInt_reads_modulo`).
-/

namespace Unitus

namespace VarInt

/-! ## The model -/

/-- The loop of `WriteVarInt(os, n)` filling `tmp`, on the value of `n`: `tmp[len] = (n & 0x7F)
| (len ? 0x80 : 0x00)`, then, while `n > 0x7F`, `n = (n >> 7) - 1` and `len++`; the digits from
`tmp[len]` up. -/
def varIntDigits (n len : Nat) : List UInt8 :=
  let d : UInt8 := UInt8.ofNat (n &&& 0x7F) ||| (if len ≠ 0 then 0x80 else 0x00)
  if n ≤ 0x7F then [d] else d :: varIntDigits ((n >>> 7) - 1) (len + 1)
termination_by n
decreasing_by rw [Nat.shiftRight_eq_div_pow]; omega

variable {w : Nat}

/-- `WriteVarInt(os, n)`: `tmp[len]` down to `tmp[0]`. -/
def WriteVarInt (n : BitVec w) : List UInt8 := (varIntDigits n.toNat 0).reverse

/-- The loop of `GetSizeOfVarInt(n)`, on the value of `n`. -/
def sizeLoop (n : Nat) : Nat :=
  if n ≤ 0x7F then 1 else 1 + sizeLoop ((n >>> 7) - 1)
termination_by n
decreasing_by rw [Nat.shiftRight_eq_div_pow]; omega

/-- `GetSizeOfVarInt(n)`. -/
def GetSizeOfVarInt (n : BitVec w) : Nat := sizeLoop n.toNat

/-- The loop of `ReadVarInt<I>(is)` from `n`: `n = (n << 7) | (chData & 0x7F)`, then, while
`chData & 0x80`, `n++` and the next byte; `ser_readdata8` throws at the end of the stream. -/
def readVarIntFrom (n : BitVec w) : List UInt8 → Except String (BitVec w × List UInt8)
  | [] => .error endOfData
  | chData :: rest =>
    let n := (n <<< 7) ||| BitVec.ofNat w (chData &&& 0x7F).toNat
    if chData &&& 0x80 ≠ 0 then readVarIntFrom (n + 1) rest else .ok (n, rest)

/-- `ReadVarInt<I>(is)`. -/
def ReadVarInt : StreamReader (BitVec w) := fun s => readVarIntFrom 0 s

/-- `WriteVarInt(os, n)` of an `int`: a negative `n` is at most `0x7F` at once, so only its low
seven bits `n & 0x7F` are written; from zero up its digits are those of its value. -/
def WriteVarIntInt (n : Int32) : List UInt8 :=
  if n < 0 then [UInt8.ofNat (n.toBitVec.toNat &&& 0x7F)] else WriteVarInt n.toBitVec

/-- `ReadVarInt<int>(is)`: the 32 bits of `ReadVarInt`, as an `int`. -/
def ReadVarIntInt : StreamReader Int32 := do
  let n ← ReadVarInt (w := 32)
  pure (Int32.ofBitVec n)

/-! ## With no bound on the width -/

/-- The number a `VARINT` stands for, read from `acc` as `ReadVarInt` reads it but with no bound
on the width: `(a[len-1] & 0x7F) + sum(i=1..len-1, 128^i*((a[len-i-1] & 0x7F)+1))` for `acc = 0`. -/
def readNat (acc : Nat) : List UInt8 → Except String (Nat × List UInt8)
  | [] => .error endOfData
  | b :: rest =>
    let acc := acc * 128 + b.toNat % 128
    if 128 ≤ b.toNat then readNat (acc + 1) rest else .ok (acc, rest)

/-! ## Bytes and digits -/

theorem and_7F (n : Nat) : n &&& 0x7F = n % 128 := Nat.and_two_pow_sub_one_eq_mod n 7

/-- A digit of `tmp`: the low seven bits of `n`, with the top bit set but in `tmp[0]`. -/
theorem toNat_digit (n len : Nat) :
    (UInt8.ofNat (n &&& 0x7F) ||| (if len ≠ 0 then 0x80 else 0x00)).toNat =
      n % 128 + if len ≠ 0 then 128 else 0 := by
  rw [UInt8.toNat_or, UInt8.toNat_ofNat', and_7F]
  have hlow : n % 128 % 2 ^ 8 = n % 128 := by omega
  rw [hlow]
  split_ifs
  · rw [show (0x80 : UInt8).toNat = 2 ^ 7 * 1 from rfl, Nat.or_comm,
      ← Nat.two_pow_add_eq_or_of_lt (by omega)]
    omega
  · simp

theorem varIntDigits_of_le {n : Nat} (len : Nat) (h : n ≤ 0x7F) :
    varIntDigits n len = [UInt8.ofNat (n &&& 0x7F) ||| (if len ≠ 0 then 0x80 else 0x00)] := by
  rw [varIntDigits]
  simp [h]

theorem varIntDigits_of_lt {n : Nat} (len : Nat) (h : 0x7F < n) :
    varIntDigits n len = (UInt8.ofNat (n &&& 0x7F) ||| (if len ≠ 0 then 0x80 else 0x00)) ::
      varIntDigits (n / 128 - 1) (len + 1) := by
  rw [varIntDigits, Nat.shiftRight_eq_div_pow]
  simp [show ¬n ≤ 0x7F by omega]

theorem sizeLoop_of_le {n : Nat} (h : n ≤ 0x7F) : sizeLoop n = 1 := by
  rw [sizeLoop, if_pos h]

theorem sizeLoop_of_lt {n : Nat} (h : 0x7F < n) : sizeLoop n = 1 + sizeLoop (n / 128 - 1) := by
  rw [sizeLoop, if_neg (by omega), Nat.shiftRight_eq_div_pow]

/-! ## Reading and writing with no bound on the width -/

theorem readNat_cons (acc : Nat) (b : UInt8) (rest : List UInt8) :
    readNat acc (b :: rest) =
      if 128 ≤ b.toNat then readNat (acc * 128 + b.toNat % 128 + 1) rest
      else .ok (acc * 128 + b.toNat % 128, rest) := rfl

/-- The digits of `tmp[1..]`, all with their top bit set, read on past themselves, having taken
in `n + 1`. -/
theorem readNat_flagged (n : Nat) : ∀ (acc len : Nat) (s : List UInt8), len ≠ 0 →
    readNat acc ((varIntDigits n len).reverse ++ s) =
      readNat (acc * 128 ^ (varIntDigits n len).length + n + 1) s := by
  induction n using Nat.strong_induction_on with
  | _ n ih =>
    intro acc len s hlen
    by_cases hn : n ≤ 0x7F
    · rw [varIntDigits_of_le len hn, List.reverse_singleton, List.singleton_append, readNat_cons,
        toNat_digit, if_pos hlen, if_pos (by omega)]
      simp only [List.length_singleton, pow_one]
      congr 1
      omega
    · -- the last digit written is read first, after the digits of `n / 128 - 1`
      rw [varIntDigits_of_lt len (by omega), List.reverse_cons, List.append_assoc,
        ih _ (by omega) acc (len + 1) _ (by omega), List.singleton_append, readNat_cons,
        toNat_digit, if_pos hlen, if_pos (by omega), List.length_cons, pow_succ, ← Nat.mul_assoc]
      generalize acc * 128 ^ (varIntDigits (n / 128 - 1) (len + 1)).length = X
      congr 1
      omega

/-- `WriteVarInt`'s bytes, on any width, read back as the number they were written from. -/
theorem readNat_varIntDigits (n : Nat) (s : List UInt8) :
    readNat 0 ((varIntDigits n 0).reverse ++ s) = .ok (n, s) := by
  have h0 : ¬(0 : Nat) ≠ 0 := fun h => h rfl
  by_cases hn : n ≤ 0x7F
  · rw [varIntDigits_of_le 0 hn, List.reverse_singleton, List.singleton_append, readNat_cons,
      toNat_digit, if_neg h0, if_neg (by omega)]
    congr 2
    omega
  · rw [varIntDigits_of_lt 0 (by omega), List.reverse_cons, List.append_assoc,
      readNat_flagged _ 0 1 _ (by omega), List.singleton_append, readNat_cons, toNat_digit,
      if_neg h0, if_neg (by omega)]
    congr 2
    omega

theorem length_varIntDigits (n len : Nat) : (varIntDigits n len).length = sizeLoop n := by
  induction n using Nat.strong_induction_on generalizing len with
  | _ n ih =>
    by_cases hn : n ≤ 0x7F
    · rw [varIntDigits_of_le len hn, sizeLoop_of_le hn, List.length_singleton]
    · rw [varIntDigits_of_lt len (by omega), sizeLoop_of_lt (by omega), List.length_cons,
        ih _ (by omega)]
      omega

/-- Each digit past the first stands for a factor of `128`: `k` digits carry at least
`128 ^ (k - 1)`. -/
theorem pow_length_varIntDigits_le (n len : Nat) (h : 2 ≤ (varIntDigits n len).length) :
    128 ^ ((varIntDigits n len).length - 1) ≤ n := by
  induction n using Nat.strong_induction_on generalizing len with
  | _ n ih =>
    by_cases hn : n ≤ 0x7F
    · rw [varIntDigits_of_le len hn] at h
      simp at h
    · rw [varIntDigits_of_lt len (by omega), List.length_cons] at h ⊢
      rw [Nat.add_sub_cancel]
      by_cases hk : 2 ≤ (varIntDigits (n / 128 - 1) (len + 1)).length
      · have hm := ih _ (by omega) (len + 1) hk
        obtain ⟨k, hk'⟩ : ∃ k, (varIntDigits (n / 128 - 1) (len + 1)).length = k + 1 :=
          ⟨_, (Nat.sub_add_cancel (by omega)).symm⟩
        rw [hk', Nat.add_sub_cancel] at hm
        rw [hk', pow_succ]
        omega
      · have h1 : (varIntDigits (n / 128 - 1) (len + 1)).length = 1 := by omega
        rw [h1]
        omega

/-- `WriteVarInt` of a value of `w` bits fills at most the `(w + 6) / 7` bytes of `tmp`. -/
theorem length_varIntDigits_le {n : Nat} (len : Nat) {w : Nat} (hw : 0 < w) (hn : n < 2 ^ w) :
    (varIntDigits n len).length ≤ (w + 6) / 7 := by
  by_cases hk : 2 ≤ (varIntDigits n len).length
  · have hpow := pow_length_varIntDigits_le n len hk
    have h128 : (2 : Nat) ^ (7 * ((varIntDigits n len).length - 1)) =
        128 ^ ((varIntDigits n len).length - 1) := by
      rw [pow_mul]
      norm_num
    have h7 : 2 ^ (7 * ((varIntDigits n len).length - 1)) < 2 ^ w := by
      omega
    have := (Nat.pow_lt_pow_iff_right (by omega)).mp h7
    omega
  · omega

/-- What `readNat` has taken in from `acc` after digits that all carry the top bit. -/
def contVal (acc : Nat) (c : List UInt8) : Nat :=
  c.foldl (fun a b => a * 128 + b.toNat % 128 + 1) acc

/-- What `readNat` accepts: digits with the top bit set, then one without. -/
theorem eq_of_readNat {s rest : List UInt8} {acc v : Nat} (h : readNat acc s = .ok (v, rest)) :
    ∃ c last, s = c ++ last :: rest ∧ (∀ b ∈ c, 128 ≤ b.toNat) ∧ last.toNat < 128 ∧
      v = contVal acc c * 128 + last.toNat := by
  induction s generalizing acc with
  | nil => cases h
  | cons b s ih =>
    rw [readNat_cons] at h
    split_ifs at h with hb
    · obtain ⟨c, last, rfl, hc, hlast, rfl⟩ := ih h
      refine ⟨b :: c, last, rfl, ?_, hlast, rfl⟩
      intro x hx
      rcases List.mem_cons.mp hx with rfl | hx
      · exact hb
      · exact hc x hx
    · cases h
      exact ⟨[], b, rfl, by simp, by omega, by simp [contVal]; omega⟩

/-- Digits with the top bit set, then one with it set exactly when `len ≠ 0`, are what
`WriteVarInt`'s loop writes from `tmp[len]` for the number they carry. -/
theorem varIntDigits_contVal (c : List UInt8) : ∀ (b : UInt8) (len : Nat),
    (∀ x ∈ c, 128 ≤ x.toNat) → (128 ≤ b.toNat ↔ len ≠ 0) →
      (varIntDigits (contVal 0 c * 128 + b.toNat % 128) len).reverse = c ++ [b] := by
  induction c using List.reverseRecOn with
  | nil =>
    intro b len _ hb
    have := b.toNat_lt
    have hbyte : UInt8.ofNat ((b.toNat % 128) &&& 0x7F) ||| (if len ≠ 0 then 0x80 else 0x00) = b := by
      apply UInt8.toNat_inj.mp
      rw [toNat_digit]
      split_ifs with hlen <;> omega
    simp only [contVal, List.foldl_nil, Nat.zero_mul, Nat.zero_add]
    rw [varIntDigits_of_le len (by omega), hbyte]
    rfl
  | append_singleton c b' ih =>
    intro b len hc hb
    have := b.toNat_lt
    have hc' : ∀ x ∈ c, 128 ≤ x.toNat := fun x hx => hc x (List.mem_append_left _ hx)
    have hb' : 128 ≤ b'.toNat := hc b' (List.mem_append_right _ List.mem_cons_self)
    have hval : contVal 0 (c ++ [b']) = contVal 0 c * 128 + b'.toNat % 128 + 1 := by
      simp [contVal, List.foldl_append]
    have hbyte : UInt8.ofNat ((contVal 0 (c ++ [b']) * 128 + b.toNat % 128) &&& 0x7F) |||
        (if len ≠ 0 then 0x80 else 0x00) = b := by
      apply UInt8.toNat_inj.mp
      rw [toNat_digit]
      split_ifs with hlen <;> omega
    rw [varIntDigits_of_lt len (by omega), hbyte, List.reverse_cons]
    -- the digits before the last carry `contVal c * 128 + b' % 128`, written from `tmp[len + 1]`
    have hnext : (contVal 0 (c ++ [b']) * 128 + b.toNat % 128) / 128 - 1 =
        contVal 0 c * 128 + b'.toNat % 128 := by
      rw [hval]; omega
    rw [hnext, ih b' (len + 1) hc' (by simp [hb'])]

/-- **Canonical** on any width: every sequence `readNat` accepts is what `WriteVarInt`'s loop
writes for the number it reads. -/
theorem eq_of_readNat_zero {s rest : List UInt8} {v : Nat} (h : readNat 0 s = .ok (v, rest)) :
    s = (varIntDigits v 0).reverse ++ rest := by
  obtain ⟨c, last, rfl, hc, hlast, rfl⟩ := eq_of_readNat h
  have hlow : last.toNat % 128 = last.toNat := Nat.mod_eq_of_lt hlast
  rw [← hlow, varIntDigits_contVal c last 0 hc (by simp; omega), List.append_assoc,
    List.singleton_append]

/-! ## The reader on `w` bits -/

/-- `(n << 7) | d` on `w` bits, for a digit `d` below `128`. -/
theorem shl7_or_ofNat (a : Nat) {d : Nat} (hd : d < 128) :
    (BitVec.ofNat w a <<< 7) ||| BitVec.ofNat w d = BitVec.ofNat w (a * 128 + d) := by
  have h : a * 128 + d = 2 ^ 7 * a ||| d := by
    rw [← Nat.two_pow_add_eq_or_of_lt hd]
    ring
  rw [h]
  apply BitVec.eq_of_toNat_eq
  simp [BitVec.toNat_or, BitVec.toNat_shiftLeft, Nat.shiftLeft_eq, Nat.mul_comm]

theorem ofNat_add_one (a : Nat) : BitVec.ofNat w a + 1 = BitVec.ofNat w (a + 1) := by
  apply BitVec.eq_of_toNat_eq
  simp [BitVec.toNat_add, Nat.add_mod]

/-- `ReadVarInt`'s loop on `w` bits is `readNat` modulo `2 ^ w`. -/
theorem readVarIntFrom_ofNat (a : Nat) (s : List UInt8) :
    readVarIntFrom (BitVec.ofNat w a) s =
      (readNat a s).map fun p => (BitVec.ofNat w p.1, p.2) := by
  induction s generalizing a with
  | nil => rfl
  | cons b s ih =>
    have hstep : (BitVec.ofNat w a <<< 7) ||| BitVec.ofNat w (b &&& 0x7F).toNat =
        BitVec.ofNat w (a * 128 + b.toNat % 128) := by
      rw [UInt8.toNat_and_7F]
      exact shl7_or_ofNat a (Nat.mod_lt _ (by omega))
    simp only [readVarIntFrom, readNat_cons, hstep, UInt8.and_80_ne_zero_iff, ofNat_add_one, ih]
    split_ifs <;> rfl

theorem run_ReadVarInt (s : List UInt8) :
    (ReadVarInt (w := w)).run s = (readNat 0 s).map fun p => (BitVec.ofNat w p.1, p.2) :=
  readVarIntFrom_ofNat 0 s

theorem ofNat_toNat_eq (n : BitVec w) : BitVec.ofNat w n.toNat = n := by
  apply BitVec.eq_of_toNat_eq
  simp

/-- `ReadVarInt` reads back what `WriteVarInt` wrote, and leaves what follows. -/
theorem roundTrip_ReadVarInt : Codec.RoundTrip (fun _ => True) (WriteVarInt (w := w)) ReadVarInt := by
  intro n rest _
  rw [run_ReadVarInt, WriteVarInt, readNat_varIntDigits]
  show Except.ok (BitVec.ofNat w n.toNat, rest) = _
  rw [ofNat_toNat_eq]

/-- `VARINT` of an `int` reads back from zero up. -/
theorem roundTrip_ReadVarIntInt : Codec.RoundTrip (fun n : Int32 => 0 ≤ n) WriteVarIntInt
    ReadVarIntInt := by
  intro n rest hn
  rw [WriteVarIntInt, if_neg (Int32.not_lt.mpr hn), ReadVarIntInt,
    roundTrip_ReadVarInt.run_bind trivial]
  rw [Codec.run_pure, Int32.ofBitVec_toBitVec]

/-- A byte below `0x80` is a `VARINT` on its own. -/
theorem run_ReadVarInt_of_lt {b : UInt8} (hb : b.toNat < 128) (rest : List UInt8) :
    (ReadVarInt (w := w)).run (b :: rest) = .ok (BitVec.ofNat w b.toNat, rest) := by
  rw [run_ReadVarInt, readNat_cons, if_neg (by omega), Nat.mod_eq_of_lt hb, Nat.zero_mul,
    Nat.zero_add]
  rfl

/-- Two numbers with the same `VARINT` are equal. -/
theorem varIntDigits_inj {a b : Nat} (h : (varIntDigits a 0).reverse = (varIntDigits b 0).reverse) :
    a = b := by
  have ha := readNat_varIntDigits a []
  rw [h, readNat_varIntDigits b []] at ha
  cases ha
  rfl

/-- **`VARINT`.**  On an unsigned type of `w` bits, `ReadVarInt` reads back what `WriteVarInt`
wrote and leaves what follows; `WriteVarInt` writes `GetSizeOfVarInt` bytes, within its buffer
`tmp`.  But `ReadVarInt` is not one to one: every byte sequence it accepts is the encoding of a
number `v` of any size, read as `v` modulo `2 ^ w`, and is the encoding of what it reads exactly
when `v < 2 ^ w`; every such encoding is accepted. -/
theorem ReadVarInt_reads_modulo (hw : 0 < w) :
    (∀ (n : BitVec w) (rest : List UInt8),
      ReadVarInt.run (WriteVarInt n ++ rest) = .ok (n, rest) ∧
        (WriteVarInt n).length = GetSizeOfVarInt n ∧ (WriteVarInt n).length ≤ (w + 6) / 7) ∧
    (∀ (s rest : List UInt8) (n : BitVec w), ReadVarInt.run s = .ok (n, rest) →
      ∃ v : Nat, s = (varIntDigits v 0).reverse ++ rest ∧ n = BitVec.ofNat w v ∧
        ((varIntDigits v 0).reverse = WriteVarInt n ↔ v < 2 ^ w)) ∧
    (∀ (v : Nat) (rest : List UInt8),
      (ReadVarInt (w := w)).run ((varIntDigits v 0).reverse ++ rest) =
        .ok (BitVec.ofNat w v, rest)) := by
  refine ⟨fun n rest => ⟨?_, ?_, ?_⟩, fun s rest n h => ?_, fun v rest => ?_⟩
  · rw [run_ReadVarInt, WriteVarInt, readNat_varIntDigits]
    show Except.ok (BitVec.ofNat w n.toNat, rest) = _
    rw [ofNat_toNat_eq]
  · rw [WriteVarInt, List.length_reverse, length_varIntDigits]
    rfl
  · rw [WriteVarInt, List.length_reverse]
    exact length_varIntDigits_le 0 hw n.isLt
  · rw [run_ReadVarInt] at h
    -- the number read with no bound on the width
    cases hread : readNat 0 s with
    | error e => rw [hread] at h; cases h
    | ok p =>
      obtain ⟨v, rest'⟩ := p
      rw [hread] at h
      cases h
      refine ⟨v, eq_of_readNat_zero hread, rfl, ?_⟩
      simp only [WriteVarInt, BitVec.toNat_ofNat]
      constructor
      · intro he
        rw [varIntDigits_inj he]
        exact Nat.mod_lt _ (by positivity)
      · intro hv
        rw [Nat.mod_eq_of_lt hv]
  · rw [run_ReadVarInt, readNat_varIntDigits]
    rfl

/-- The five bytes that the format comment gives for `2 ^ 32`. -/
theorem varIntDigits_two_pow_32 :
    (varIntDigits (2 ^ 32) 0).reverse = [0x8E, 0xFE, 0xFE, 0xFF, 0x00] := by
  simp [varIntDigits_of_lt, varIntDigits_of_le]
  decide

/-- On `unsigned int`, the five bytes of `2 ^ 32` read as `0`, whose own encoding is one byte. -/
theorem ReadVarInt_reads_modulo_uint32 :
    (0 : Nat) < 32 ∧ (ReadVarInt (w := 32)).run [0x8E, 0xFE, 0xFE, 0xFF, 0x00] = .ok (0, []) ∧
      WriteVarInt (0 : BitVec 32) = [0x00] := by
  have hread := (ReadVarInt_reads_modulo (w := 32) (by decide)).2.2 (2 ^ 32) []
  rw [varIntDigits_two_pow_32, List.append_nil] at hread
  refine ⟨by decide, ?_, ?_⟩
  · rw [hread]
    rfl
  · rw [WriteVarInt, varIntDigits_of_le 0 (by decide)]
    rfl

end VarInt

end Unitus
