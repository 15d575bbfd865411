import Unitus.Util.StrEncodings
import Unitus.Lib.Bytes
import Unitus.Lib.Lists

/-!
# Util — the base64 and base32 round trips

Both decoders run one loop, `decodeLoop`, over the characters their table accepts, and read them
as digits (`decodeLoop_eq`); where the characters are the alphabet's, at digits the table maps
back, the loop is the fold of the decoder's step over the digits (`decodeLoop_map_append`).
Each step only appends to `vchRet` (`decodeBase64Step_appends`), so a fold over a group of digits
can be read apart from what came before it (`foldl_frame`).  The padding check passes exactly
when no bits are left, the `=` asked for follow and then a character the table rejects
(`paddingInvalid_eq_false`).

The encoders write a group of bytes (three for base64) as a group of digits (four) and return to
`mode` `0`; the decoders read the digits of a group back to the bytes and return to `mode` `0`
as well.  A trailing one or two bytes end in `=` padding and in a decoder `mode` whose padding
check that padding passes.

Base32 runs the same way with five bytes to eight digits; its table reads upper case letters as
lower case ones, so what it accepts is the encoder's output up to the case of the letters.

* `DecodeBase64_EncodeBase64`, `DecodeBase32_EncodeBase32`: every byte string reads back from
  its encoding with `*pfInvalid` clear.
* `EncodeBase64_DecodeBase64_isPrefix`, `EncodeBase32_DecodeBase32_isPrefix`: a string that the
  decoder accepts starts with the encoding of what it reads (base32: in lower case), so each byte
  string has one accepted encoding up to what follows it.
-/

namespace Unitus

open Nat (and_eq_mod shiftLeft_or_eq_add)

/-! ## The decoders' loop -/

section Loop

variable (table : List Int) (step : DecodeState → Nat → DecodeState)

/-- A character the table does not reject. -/
def accepts (c : UInt8) : Bool := table.getD c.toNat (-1) != -1

/-- The digit the table gives a character. -/
def digitOf (c : UInt8) : Nat := (table.getD c.toNat (-1)).toNat

/-- The loop reads the characters the table accepts from the start of `p`, as their digits, and
stops at the first one it rejects. -/
theorem decodeLoop_eq : ∀ (p : List UInt8) (s : DecodeState),
    decodeLoop table step p s =
      (((p.takeWhile (accepts table)).map (digitOf table)).foldl step s,
        p.dropWhile (accepts table))
  | [], s => rfl
  | c :: p, s => by
    by_cases hc : table.getD c.toNat (-1) = -1
    · have hrej : ¬ accepts table c = true := by rw [accepts, hc]; decide
      rw [decodeLoop, if_pos hc, List.takeWhile_cons_of_neg hrej,
        List.dropWhile_cons_of_neg hrej]
      rfl
    · have hacc : accepts table c = true := by rw [accepts, bne_iff_ne]; exact hc
      rw [decodeLoop, if_neg hc, List.takeWhile_cons_of_pos hacc,
        List.dropWhile_cons_of_pos hacc, decodeLoop_eq p]
      rfl

/-- Characters of an alphabet that the table maps back to their digits are read as the digits. -/
theorem decodeLoop_map_append {alphabet : List UInt8} :
    ∀ {ds : List Nat}, (∀ d ∈ ds, table.getD (alphabet.getD d 0).toNat (-1) = d) →
      ∀ (p : List UInt8) (s : DecodeState),
        decodeLoop table step (ds.map (alphabet.getD · 0) ++ p) s =
          decodeLoop table step p (ds.foldl step s)
  | [], _, p, s => rfl
  | d :: ds, h, p, s => by
    have hd : table.getD (alphabet.getD d 0).toNat (-1) = d := h d List.mem_cons_self
    rw [List.map_cons, List.cons_append, decodeLoop, hd, if_neg (by omega), Int.toNat_natCast,
      decodeLoop_map_append (fun d' hd' => h d' (List.mem_cons_of_mem d hd')), List.foldl_cons]

/-- A step that only appends to `vchRet`, whatever was read before. -/
def Appends : Prop :=
  ∀ m l out d, step ⟨m, l, out⟩ d =
    ⟨(step ⟨m, l, []⟩ d).mode, (step ⟨m, l, []⟩ d).left,
      out ++ (step ⟨m, l, []⟩ d).vchRet⟩

/-- A fold of such steps appends to what was read before. -/
theorem foldl_frame (h : Appends step) : ∀ (ds : List Nat) (m l : Nat) (out : List UInt8),
    ds.foldl step ⟨m, l, out⟩ =
      ⟨(ds.foldl step ⟨m, l, []⟩).mode, (ds.foldl step ⟨m, l, []⟩).left,
        out ++ (ds.foldl step ⟨m, l, []⟩).vchRet⟩
  | [], m, l, out => by simp
  | d :: ds, m, l, out => by
    rw [List.foldl_cons, List.foldl_cons, h m l out d, foldl_frame h ds,
      foldl_frame h ds _ _ (step ⟨m, l, []⟩ d).vchRet, List.append_assoc]

end Loop

/-- The padding check passes exactly when no bits are left, `n` `=` follow, and then a character
the table rejects. -/
theorem paddingInvalid_eq_false {table : List Int} {left : Nat} {p : List UInt8} {n : Nat} :
    paddingInvalid table left p n = false ↔
      left = 0 ∧ List.replicate n '='.toUInt8 <+: p ∧ accepts table (p.getD n 0) = false := by
  rw [List.replicate_prefix_iff_getD (by decide : '='.toUInt8 ≠ 0)]
  simp [paddingInvalid, accepts, List.any_eq_false, and_assoc]

/-- A byte pushed onto `vchRet` is its value modulo `256`. -/
theorem toUInt8_eq_of_mod {n : Nat} {b : UInt8} (h : n % 256 = b.toNat) : n.toUInt8 = b :=
  UInt8.toNat_inj.mp (by rw [Nat.toUInt8_eq, UInt8.toNat_ofNat']; exact h)

/-! ## Base64 -/

section Base64

/-- The alphabet and the table, checked in one pass over each: the table reads every character
of the alphabet as its index, every character it accepts is the alphabet's at the digit it
gives, and its digits are below `64`. -/
theorem base64_tables :
    pbase64.length = 64 ∧ decode64_table.length = 256 ∧
      (∀ q ∈ pbase64.zipIdx, decode64_table.getD q.1.toNat (-1) = q.2) ∧
      (∀ q ∈ decode64_table.zipIdx, q.1 = -1 ∨ pbase64.getD q.1.toNat 0 = q.2.toUInt8) ∧
      (∀ v ∈ decode64_table, v < 64) := by
  decide +kernel

/-- The table reads each character of the alphabet as its index. -/
theorem decode64_table_pbase64 (i : Nat) (hi : i < 64) :
    decode64_table.getD (pbase64.getD i 0).toNat (-1) = i := by
  obtain ⟨hlen, -, hall, -⟩ := base64_tables
  exact List.forall_zipIdx_getD
    (p := fun (c : UInt8) (i : Nat) => decode64_table.getD c.toNat (-1) = i) hall
    (by rw [hlen]; exact hi) 0

/-- The characters the table accepts are the alphabet's, at their digits. -/
theorem pbase64_digitOf (c : UInt8) (hc : accepts decode64_table c = true) :
    pbase64.getD (digitOf decode64_table c) 0 = c := by
  obtain ⟨-, hlen, -, hall, -⟩ := base64_tables
  rcases List.forall_zipIdx_getD
    (p := fun (v : Int) (n : Nat) => v = -1 ∨ pbase64.getD v.toNat 0 = n.toUInt8)
    hall (by rw [hlen]; exact c.toNat_lt) (-1) with h | h
  · rw [accepts, h] at hc
    exact absurd hc (by decide)
  · rw [digitOf, h, Nat.toUInt8_eq, UInt8.ofNat_toNat]

theorem digitOf_decode64_table_lt (c : UInt8) : digitOf decode64_table c < 64 := by
  obtain ⟨-, -, -, -, hall⟩ := base64_tables
  rcases List.getD_mem_or_eq decode64_table c.toNat (-1) with h | h
  · have hv := hall _ h
    rw [digitOf]
    omega
  · rw [digitOf, h]
    decide

/-- The four digits `EncodeBase64` writes for three bytes. -/
def digits64 (b0 b1 b2 : Nat) : List Nat :=
  [b0 >>> 2, ((b0 &&& 3) <<< 4) ||| (b1 >>> 4), ((b1 &&& 15) <<< 2) ||| (b2 >>> 6), b2 &&& 63]

/-- Three bytes from `mode` `0` write their four digits and return to `mode` `0`. -/
theorem foldl_encodeBase64Step_three (b0 b1 b2 : UInt8) (l : Nat) (acc : List UInt8) :
    [b0, b1, b2].foldl (fun s enc => encodeBase64Step s enc.toNat) ⟨0, l, acc⟩ =
      ⟨0, (b1.toNat &&& 15) <<< 2,
        acc ++ (digits64 b0.toNat b1.toNat b2.toNat).map (pbase64.getD · 0)⟩ := by
  simp [encodeBase64Step, digits64]

/-- From `mode` `0`, the encoding goes on after what was written as `EncodeBase64` of the rest. -/
theorem encodeBase64Finish_foldl : ∀ (v : List UInt8) (l : Nat) (acc : List UInt8),
    encodeBase64Finish (v.foldl (fun s enc => encodeBase64Step s enc.toNat) ⟨0, l, acc⟩) =
      acc ++ EncodeBase64 v
  | [], l, acc => by simp [encodeBase64Finish, EncodeBase64]
  | [b0], l, acc => by simp [encodeBase64Finish, EncodeBase64, encodeBase64Step]
  | [b0, b1], l, acc => by simp [encodeBase64Finish, EncodeBase64, encodeBase64Step]
  | b0 :: b1 :: b2 :: v, l, acc => by
    have hsplit : b0 :: b1 :: b2 :: v = [b0, b1, b2] ++ v := rfl
    rw [EncodeBase64, hsplit, List.foldl_append, List.foldl_append, foldl_encodeBase64Step_three,
      foldl_encodeBase64Step_three, encodeBase64Finish_foldl v, encodeBase64Finish_foldl v,
      List.nil_append, List.append_assoc]

theorem EncodeBase64_cons_cons_cons (b0 b1 b2 : UInt8) (v : List UInt8) :
    EncodeBase64 (b0 :: b1 :: b2 :: v) =
      (digits64 b0.toNat b1.toNat b2.toNat).map (pbase64.getD · 0) ++ EncodeBase64 v := by
  have hsplit : b0 :: b1 :: b2 :: v = [b0, b1, b2] ++ v := rfl
  rw [EncodeBase64, hsplit, List.foldl_append, foldl_encodeBase64Step_three,
    encodeBase64Finish_foldl, List.nil_append]

/-- A last byte is the first two digits of the group it starts, with zero bits after it, and
`==`. -/
theorem EncodeBase64_singleton (b0 : UInt8) :
    EncodeBase64 [b0] =
      ((digits64 b0.toNat 0 0).take 2).map (pbase64.getD · 0) ++ ['='.toUInt8, '='.toUInt8] := by
  simp [EncodeBase64, encodeBase64Finish, encodeBase64Step, digits64]

/-- Two last bytes are the first three digits of their group, and `=`. -/
theorem EncodeBase64_pair (b0 b1 : UInt8) :
    EncodeBase64 [b0, b1] =
      ((digits64 b0.toNat b1.toNat 0).take 3).map (pbase64.getD · 0) ++ ['='.toUInt8] := by
  simp [EncodeBase64, encodeBase64Finish, encodeBase64Step, digits64]

theorem decodeBase64Step_appends : Appends decodeBase64Step := by
  intro m l out d
  rcases m with _ | _ | _ | _ | m <;> simp [decodeBase64Step]

theorem digits64_lt {b0 b1 b2 : Nat} (h0 : b0 < 256) (h1 : b1 < 256) (h2 : b2 < 256) :
    ∀ d ∈ digits64 b0 b1 b2, d < 64 := by
  simp (disch := omega) only [digits64, List.mem_cons, List.not_mem_nil, or_false,
    and_eq_mod (m := 3) 2 rfl, and_eq_mod (m := 15) 4 rfl, and_eq_mod (m := 63) 6 rfl,
    shiftLeft_or_eq_add, Nat.reducePow]
  rintro d (rfl | rfl | rfl | rfl) <;> omega

/-- Digits below `64` are read back by the table from their characters. -/
theorem decode64_table_pbase64_of_lt {ds : List Nat} (h : ∀ d ∈ ds, d < 64) :
    ∀ d ∈ ds, decode64_table.getD (pbase64.getD d 0).toNat (-1) = d :=
  fun d hd => decode64_table_pbase64 d (h d hd)

/-- The four digits of three bytes read back as the bytes, and return to `mode` `0`. -/
theorem foldl_decodeBase64Step_digits64 (b0 b1 b2 : UInt8) (l : Nat) (out : List UInt8) :
    ∃ l', (digits64 b0.toNat b1.toNat b2.toNat).foldl decodeBase64Step ⟨0, l, out⟩ =
      ⟨0, l', out ++ [b0, b1, b2]⟩ := by
  have h0 := b0.toNat_lt
  have h1 := b1.toNat_lt
  have h2 := b2.toNat_lt
  simp only [digits64, List.foldl_cons, List.foldl_nil, decodeBase64Step, DecodeState.mk.injEq,
    List.append_assoc, List.cons_append, List.nil_append, List.append_cancel_left_eq,
    List.cons.injEq, true_and, and_true, exists_eq_left']
  refine ⟨?_, ?_, ?_⟩ <;> apply toUInt8_eq_of_mod <;>
    simp (disch := omega) only [and_eq_mod (m := 3) 2 rfl, and_eq_mod (m := 15) 4 rfl,
      and_eq_mod (m := 63) 6 rfl, shiftLeft_or_eq_add, Nat.reducePow] <;> omega

/-- The two digits of a last byte read back as the byte, in `mode` `2` with no bits left. -/
theorem foldl_decodeBase64Step_singleton (b0 : UInt8) (l : Nat) (out : List UInt8) :
    ((digits64 b0.toNat 0 0).take 2).foldl decodeBase64Step ⟨0, l, out⟩ =
      ⟨2, 0, out ++ [b0]⟩ := by
  have h0 := b0.toNat_lt
  simp only [digits64, List.take_succ_cons, List.take_zero, List.foldl_cons, List.foldl_nil,
    decodeBase64Step, DecodeState.mk.injEq, List.append_cancel_left_eq, List.cons.injEq,
    true_and, and_true]
  refine ⟨?_, toUInt8_eq_of_mod ?_⟩ <;>
    simp (disch := omega) only [and_eq_mod (m := 3) 2 rfl, and_eq_mod (m := 15) 4 rfl,
      shiftLeft_or_eq_add, Nat.reducePow] <;> omega

/-- The three digits of two last bytes read back as the bytes, in `mode` `3` with no bits
left. -/
theorem foldl_decodeBase64Step_pair (b0 b1 : UInt8) (l : Nat) (out : List UInt8) :
    ((digits64 b0.toNat b1.toNat 0).take 3).foldl decodeBase64Step ⟨0, l, out⟩ =
      ⟨3, 0, out ++ [b0, b1]⟩ := by
  have h0 := b0.toNat_lt
  have h1 := b1.toNat_lt
  simp only [digits64, List.take_succ_cons, List.take_zero, List.foldl_cons, List.foldl_nil,
    decodeBase64Step, DecodeState.mk.injEq, List.append_assoc, List.cons_append,
    List.nil_append, List.append_cancel_left_eq, List.cons.injEq, true_and, and_true]
  refine ⟨?_, toUInt8_eq_of_mod ?_, toUInt8_eq_of_mod ?_⟩ <;>
    simp (disch := omega) only [and_eq_mod (m := 3) 2 rfl, and_eq_mod (m := 15) 4 rfl,
      shiftLeft_or_eq_add, Nat.reducePow] <;> omega

/-- Every byte string reads back from its base64, from any state of `mode` `0`, with the padding
check passed where the characters end. -/
theorem decodeLoop_EncodeBase64 : ∀ (v : List UInt8) (l : Nat) (out : List UInt8),
    ∃ s p,
      decodeLoop decode64_table decodeBase64Step (EncodeBase64 v) ⟨0, l, out⟩ = (s, p) ∧
      s.vchRet = out ++ v ∧ decodeBase64Invalid s p = false
  | [], l, out => ⟨⟨0, l, out⟩, [], rfl, (List.append_nil out).symm, rfl⟩
  | [b0], l, out => by
    have hds := @digits64_lt b0.toNat 0 0 b0.toNat_lt (by omega) (by omega)
    rw [EncodeBase64_singleton, decodeLoop_map_append _ _ (decode64_table_pbase64_of_lt
      fun d hd => hds d (List.mem_of_mem_take hd)), foldl_decodeBase64Step_singleton]
    exact ⟨_, _, rfl, rfl, rfl⟩
  | [b0, b1], l, out => by
    have hds := @digits64_lt b0.toNat b1.toNat 0 b0.toNat_lt b1.toNat_lt (by omega)
    rw [EncodeBase64_pair, decodeLoop_map_append _ _ (decode64_table_pbase64_of_lt
      fun d hd => hds d (List.mem_of_mem_take hd)), foldl_decodeBase64Step_pair]
    exact ⟨_, _, rfl, rfl, rfl⟩
  | b0 :: b1 :: b2 :: v, l, out => by
    obtain ⟨l', hl'⟩ := foldl_decodeBase64Step_digits64 b0 b1 b2 l out
    rw [EncodeBase64_cons_cons_cons, decodeLoop_map_append _ _ (decode64_table_pbase64_of_lt
      (digits64_lt b0.toNat_lt b1.toNat_lt b2.toNat_lt)), hl']
    obtain ⟨s, p, hsp, hv, hinv⟩ := decodeLoop_EncodeBase64 v l' (out ++ [b0, b1, b2])
    exact ⟨s, p, hsp, by rw [hv, List.append_assoc]; rfl, hinv⟩

theorem DecodeBase64_EncodeBase64 (v : List UInt8) :
    DecodeBase64 (EncodeBase64 v) = (v, false) := by
  obtain ⟨s, p, hsp, hv, hinv⟩ := decodeLoop_EncodeBase64 v 0 []
  simp only [DecodeBase64, hsp, hv, hinv, List.nil_append]

/-- Four digits read as three bytes whose digits they are, back in `mode` `0`. -/
theorem foldl_decodeBase64Step_four {d0 d1 d2 d3 : Nat} (h0 : d0 < 64) (h1 : d1 < 64)
    (h2 : d2 < 64) (h3 : d3 < 64) (l : Nat) :
    ∃ b0 b1 b2 l',
      [d0, d1, d2, d3].foldl decodeBase64Step ⟨0, l, []⟩ = ⟨0, l', [b0, b1, b2]⟩ ∧
      digits64 b0.toNat b1.toNat b2.toNat = [d0, d1, d2, d3] := by
  refine ⟨_, _, _, _, rfl, ?_⟩
  simp only [digits64, decodeBase64Step, List.cons.injEq, Nat.toUInt8_eq, UInt8.toNat_ofNat',
    and_true]
  refine ⟨?_, ?_, ?_, ?_⟩ <;>
    simp (disch := omega) only [and_eq_mod (m := 3) 2 rfl, and_eq_mod (m := 15) 4 rfl,
      and_eq_mod (m := 63) 6 rfl, shiftLeft_or_eq_add, Nat.reducePow] <;> omega

/-- Two digits read as one byte, in `mode` `2`; with their last four bits clear they are the
digits of the byte. -/
theorem foldl_decodeBase64Step_two_digits {d0 d1 : Nat} (h0 : d0 < 64) (h1 : d1 < 64) (l : Nat) :
    ∃ b0, [d0, d1].foldl decodeBase64Step ⟨0, l, []⟩ = ⟨2, d1 &&& 15, [b0]⟩ ∧
      (d1 &&& 15 = 0 → (digits64 b0.toNat 0 0).take 2 = [d0, d1]) := by
  refine ⟨_, rfl, fun hleft => ?_⟩
  simp only [digits64, decodeBase64Step, List.take_succ_cons, List.take_zero, List.cons.injEq,
    Nat.toUInt8_eq, UInt8.toNat_ofNat', and_true]
  simp (disch := omega) only [and_eq_mod (m := 3) 2 rfl, and_eq_mod (m := 15) 4 rfl,
    shiftLeft_or_eq_add, Nat.reducePow] at hleft ⊢
  omega

/-- Three digits read as two bytes, in `mode` `3`; with their last two bits clear they are the
digits of the bytes. -/
theorem foldl_decodeBase64Step_three_digits {d0 d1 d2 : Nat} (h0 : d0 < 64) (h1 : d1 < 64)
    (h2 : d2 < 64) (l : Nat) :
    ∃ b0 b1, [d0, d1, d2].foldl decodeBase64Step ⟨0, l, []⟩ = ⟨3, d2 &&& 3, [b0, b1]⟩ ∧
      (d2 &&& 3 = 0 → (digits64 b0.toNat b1.toNat 0).take 3 = [d0, d1, d2]) := by
  refine ⟨_, _, rfl, fun hleft => ?_⟩
  simp only [digits64, decodeBase64Step, List.take_succ_cons, List.take_zero, List.cons.injEq,
    Nat.toUInt8_eq, UInt8.toNat_ofNat', and_true]
  simp (disch := omega) only [and_eq_mod (m := 3) 2 rfl, and_eq_mod (m := 15) 4 rfl,
    shiftLeft_or_eq_add, Nat.reducePow] at hleft ⊢
  refine ⟨?_, ?_, ?_⟩ <;> omega

/-- Digits that the decoder reads with the padding check passed are, with that padding, the
start of the base64 of what it read. -/
theorem EncodeBase64_foldl_isPrefix : ∀ (ds : List Nat), (∀ d ∈ ds, d < 64) →
    ∀ (l : Nat) (rest : List UInt8),
      decodeBase64Invalid (ds.foldl decodeBase64Step ⟨0, l, []⟩) rest = false →
        EncodeBase64 (ds.foldl decodeBase64Step ⟨0, l, []⟩).vchRet <+:
          ds.map (pbase64.getD · 0) ++ rest
  | [], _, l, rest, _ => by simp [EncodeBase64, encodeBase64Finish]
  | [d0], _, l, rest, h => absurd h (by simp [decodeBase64Step, decodeBase64Invalid])
  | [d0, d1], hds, l, rest, h => by
    obtain ⟨b0, hr, hb⟩ :=
      foldl_decodeBase64Step_two_digits (hds d0 (by simp)) (hds d1 (by simp)) l
    rw [hr] at h ⊢
    -- `mode` `2` asks for no bits left and `==`
    obtain ⟨hleft, hpad, -⟩ := paddingInvalid_eq_false.mp h
    rw [EncodeBase64_singleton, hb hleft]
    exact (List.prefix_append_right_inj _).mpr hpad
  | [d0, d1, d2], hds, l, rest, h => by
    obtain ⟨b0, b1, hr, hb⟩ := foldl_decodeBase64Step_three_digits (hds d0 (by simp))
      (hds d1 (by simp)) (hds d2 (by simp)) l
    rw [hr] at h ⊢
    -- `mode` `3` asks for no bits left and `=`
    obtain ⟨hleft, hpad, -⟩ := paddingInvalid_eq_false.mp h
    rw [EncodeBase64_pair, hb hleft]
    exact (List.prefix_append_right_inj _).mpr hpad
  | d0 :: d1 :: d2 :: d3 :: ds, hds, l, rest, h => by
    obtain ⟨b0, b1, b2, l', hr, hb⟩ := foldl_decodeBase64Step_four (hds d0 (by simp))
      (hds d1 (by simp)) (hds d2 (by simp)) (hds d3 (by simp)) l
    have hsplit : d0 :: d1 :: d2 :: d3 :: ds = [d0, d1, d2, d3] ++ ds := rfl
    rw [hsplit, List.foldl_append, hr, foldl_frame _ decodeBase64Step_appends] at h ⊢
    rw [List.cons_append, List.cons_append, List.cons_append, List.nil_append,
      EncodeBase64_cons_cons_cons, hb, List.map_append, List.append_assoc]
    exact (List.prefix_append_right_inj _).mpr
      (EncodeBase64_foldl_isPrefix ds (fun d hd => hds d (by simp [hd])) l' rest h)

/-- A string that `DecodeBase64` accepts starts with the base64 of the bytes it reads. -/
theorem EncodeBase64_DecodeBase64_isPrefix (p : List UInt8) (h : (DecodeBase64 p).2 = false) :
    EncodeBase64 (DecodeBase64 p).1 <+: p := by
  simp only [DecodeBase64, decodeLoop_eq] at h ⊢
  have hlt :
      ∀ d ∈ (p.takeWhile (accepts decode64_table)).map (digitOf decode64_table), d < 64 := by
    simp only [List.mem_map]
    rintro _ ⟨c, -, rfl⟩
    exact digitOf_decode64_table_lt c
  -- the characters read are the alphabet's at their digits
  have hcs : ((p.takeWhile (accepts decode64_table)).map (digitOf decode64_table)).map
      (pbase64.getD · 0) = p.takeWhile (accepts decode64_table) := by
    rw [List.map_map]
    conv_rhs => rw [← List.map_id (p.takeWhile _)]
    exact List.map_congr_left fun c hc => pbase64_digitOf c (List.mem_takeWhile_imp hc)
  have hpre := EncodeBase64_foldl_isPrefix _ hlt 0 _ h
  rwa [hcs, List.takeWhile_append_dropWhile] at hpre

/-- `QQ==` is accepted, and is the base64 of the byte it reads. -/
theorem EncodeBase64_DecodeBase64_isPrefix_QQ :
    (DecodeBase64 ("QQ==".toList.map Char.toUInt8)).2 = false ∧
      EncodeBase64 (DecodeBase64 ("QQ==".toList.map Char.toUInt8)).1 <+:
        "QQ==".toList.map Char.toUInt8 :=
  have h : (DecodeBase64 ("QQ==".toList.map Char.toUInt8)).2 = false := by decide
  ⟨h, EncodeBase64_DecodeBase64_isPrefix _ h⟩

end Base64

/-! ## Base32 -/

section Base32

/-- ASCII upper case letters to lower case. -/
def toLowerAscii (c : UInt8) : UInt8 := if 65 ≤ c ∧ c ≤ 90 then c + 32 else c

/-- The alphabet and the table, checked in one pass over each: the table reads every character
of the alphabet as its index, every character it accepts is, in lower case, the alphabet's at
the digit it gives, and its digits are below `32`. -/
theorem base32_tables :
    pbase32.length = 32 ∧ decode32_table.length = 256 ∧
      (∀ q ∈ pbase32.zipIdx, decode32_table.getD q.1.toNat (-1) = q.2) ∧
      (∀ q ∈ decode32_table.zipIdx,
        q.1 = -1 ∨ pbase32.getD q.1.toNat 0 = toLowerAscii q.2.toUInt8) ∧
      (∀ v ∈ decode32_table, v < 32) := by
  decide +kernel

/-- The table reads each character of the alphabet as its index. -/
theorem decode32_table_pbase32 (i : Nat) (hi : i < 32) :
    decode32_table.getD (pbase32.getD i 0).toNat (-1) = i := by
  obtain ⟨hlen, -, hall, -⟩ := base32_tables
  exact List.forall_zipIdx_getD
    (p := fun (c : UInt8) (i : Nat) => decode32_table.getD c.toNat (-1) = i) hall
    (by rw [hlen]; exact hi) 0

/-- The table reads upper and lower case letters alike: the alphabet gives back a character's
lower case. -/
theorem pbase32_digitOf (c : UInt8) (hc : accepts decode32_table c = true) :
    pbase32.getD (digitOf decode32_table c) 0 = toLowerAscii c := by
  obtain ⟨-, hlen, -, hall, -⟩ := base32_tables
  rcases List.forall_zipIdx_getD
    (p := fun (v : Int) (n : Nat) => v = -1 ∨ pbase32.getD v.toNat 0 = toLowerAscii n.toUInt8)
    hall (by rw [hlen]; exact c.toNat_lt) (-1) with h | h
  · rw [accepts, h] at hc
    exact absurd hc (by decide)
  · rw [digitOf, h, Nat.toUInt8_eq, UInt8.ofNat_toNat]

theorem digitOf_decode32_table_lt (c : UInt8) : digitOf decode32_table c < 32 := by
  obtain ⟨-, -, -, -, hall⟩ := base32_tables
  rcases List.getD_mem_or_eq decode32_table c.toNat (-1) with h | h
  · have hv := hall _ h
    rw [digitOf]
    omega
  · rw [digitOf, h]
    decide

/-- `=` padding is its own lower case. -/
theorem replicate_prefix_map_toLowerAscii {k : Nat} {rest : List UInt8}
    (h : List.replicate k '='.toUInt8 <+: rest) :
    List.replicate k '='.toUInt8 <+: rest.map toLowerAscii := by
  have hmap := h.map toLowerAscii
  rwa [List.map_replicate, show toLowerAscii '='.toUInt8 = '='.toUInt8 by decide] at hmap

/-- The eight digits `EncodeBase32` writes for five bytes. -/
def digits32 (b0 b1 b2 b3 b4 : Nat) : List Nat :=
  [b0 >>> 3, ((b0 &&& 7) <<< 2) ||| (b1 >>> 6), (b1 >>> 1) &&& 31,
    ((b1 &&& 1) <<< 4) ||| (b2 >>> 4), ((b2 &&& 15) <<< 1) ||| (b3 >>> 7), (b3 >>> 2) &&& 31,
    ((b3 &&& 3) <<< 3) ||| (b4 >>> 5), b4 &&& 31]

/-- Five bytes from `mode` `0` write their eight digits and return to `mode` `0`. -/
theorem foldl_encodeBase32Step_five (b0 b1 b2 b3 b4 : UInt8) (l : Nat) (acc : List UInt8) :
    [b0, b1, b2, b3, b4].foldl (fun s enc => encodeBase32Step s enc.toNat) ⟨0, l, acc⟩ =
      ⟨0, (b3.toNat &&& 3) <<< 3, acc ++
        (digits32 b0.toNat b1.toNat b2.toNat b3.toNat b4.toNat).map (pbase32.getD · 0)⟩ := by
  simp [encodeBase32Step, digits32]

/-- From `mode` `0`, the encoding goes on after what was written as `EncodeBase32` of the rest. -/
theorem encodeBase32Finish_foldl : ∀ (v : List UInt8) (l : Nat) (acc : List UInt8),
    encodeBase32Finish (v.foldl (fun s enc => encodeBase32Step s enc.toNat) ⟨0, l, acc⟩) =
      acc ++ EncodeBase32 v
  | [], l, acc => by simp [encodeBase32Finish, EncodeBase32]
  | [b0], l, acc => by simp [encodeBase32Finish, EncodeBase32, encodeBase32Step]
  | [b0, b1], l, acc => by simp [encodeBase32Finish, EncodeBase32, encodeBase32Step]
  | [b0, b1, b2], l, acc => by simp [encodeBase32Finish, EncodeBase32, encodeBase32Step]
  | [b0, b1, b2, b3], l, acc => by simp [encodeBase32Finish, EncodeBase32, encodeBase32Step]
  | b0 :: b1 :: b2 :: b3 :: b4 :: v, l, acc => by
    have hsplit : b0 :: b1 :: b2 :: b3 :: b4 :: v = [b0, b1, b2, b3, b4] ++ v := rfl
    rw [EncodeBase32, hsplit, List.foldl_append, List.foldl_append, foldl_encodeBase32Step_five,
      foldl_encodeBase32Step_five, encodeBase32Finish_foldl v, encodeBase32Finish_foldl v,
      List.nil_append, List.append_assoc]

theorem EncodeBase32_cons_five (b0 b1 b2 b3 b4 : UInt8) (v : List UInt8) :
    EncodeBase32 (b0 :: b1 :: b2 :: b3 :: b4 :: v) =
      (digits32 b0.toNat b1.toNat b2.toNat b3.toNat b4.toNat).map (pbase32.getD · 0) ++
        EncodeBase32 v := by
  have hsplit : b0 :: b1 :: b2 :: b3 :: b4 :: v = [b0, b1, b2, b3, b4] ++ v := rfl
  rw [EncodeBase32, hsplit, List.foldl_append, foldl_encodeBase32Step_five,
    encodeBase32Finish_foldl, List.nil_append]

/-- One last byte: the first two digits of its group and six `=`. -/
theorem EncodeBase32_one (b0 : UInt8) :
    EncodeBase32 [b0] =
      ((digits32 b0.toNat 0 0 0 0).take 2).map (pbase32.getD · 0) ++
        List.replicate 6 '='.toUInt8 := by
  simp [EncodeBase32, encodeBase32Finish, encodeBase32Step, digits32, nPadding]

/-- Two last bytes: the first four digits of their group and four `=`. -/
theorem EncodeBase32_two (b0 b1 : UInt8) :
    EncodeBase32 [b0, b1] =
      ((digits32 b0.toNat b1.toNat 0 0 0).take 4).map (pbase32.getD · 0) ++
        List.replicate 4 '='.toUInt8 := by
  simp [EncodeBase32, encodeBase32Finish, encodeBase32Step, digits32, nPadding]

/-- Three last bytes: the first five digits of their group and three `=`. -/
theorem EncodeBase32_three (b0 b1 b2 : UInt8) :
    EncodeBase32 [b0, b1, b2] =
      ((digits32 b0.toNat b1.toNat b2.toNat 0 0).take 5).map (pbase32.getD · 0) ++
        List.replicate 3 '='.toUInt8 := by
  simp [EncodeBase32, encodeBase32Finish, encodeBase32Step, digits32, nPadding]

/-- Four last bytes: the first seven digits of their group and one `=`. -/
theorem EncodeBase32_four (b0 b1 b2 b3 : UInt8) :
    EncodeBase32 [b0, b1, b2, b3] =
      ((digits32 b0.toNat b1.toNat b2.toNat b3.toNat 0).take 7).map (pbase32.getD · 0) ++
        List.replicate 1 '='.toUInt8 := by
  simp [EncodeBase32, encodeBase32Finish, encodeBase32Step, digits32, nPadding]

theorem decodeBase32Step_appends : Appends decodeBase32Step := by
  intro m l out d
  rcases m with _ | _ | _ | _ | _ | _ | _ | _ | m <;> simp [decodeBase32Step]

theorem digits32_lt {b0 b1 b2 b3 b4 : Nat} (h0 : b0 < 256) (h1 : b1 < 256) (h2 : b2 < 256)
    (h3 : b3 < 256) (h4 : b4 < 256) : ∀ d ∈ digits32 b0 b1 b2 b3 b4, d < 32 := by
  simp (disch := omega) only [digits32, List.mem_cons, List.not_mem_nil, or_false,
    and_eq_mod (m := 1) 1 rfl, and_eq_mod (m := 3) 2 rfl, and_eq_mod (m := 7) 3 rfl,
    and_eq_mod (m := 15) 4 rfl, and_eq_mod (m := 31) 5 rfl, shiftLeft_or_eq_add, Nat.reducePow]
  rintro d (rfl | rfl | rfl | rfl | rfl | rfl | rfl | rfl) <;> omega

/-- Digits below `32` are read back by the table from their characters. -/
theorem decode32_table_pbase32_of_lt {ds : List Nat} (h : ∀ d ∈ ds, d < 32) :
    ∀ d ∈ ds, decode32_table.getD (pbase32.getD d 0).toNat (-1) = d :=
  fun d hd => decode32_table_pbase32 d (h d hd)

/-- The eight digits of five bytes read back as the bytes, and return to `mode` `0`. -/
theorem foldl_decodeBase32Step_digits32 (b0 b1 b2 b3 b4 : UInt8) (l : Nat) (out : List UInt8) :
    ∃ l', (digits32 b0.toNat b1.toNat b2.toNat b3.toNat b4.toNat).foldl decodeBase32Step
      ⟨0, l, out⟩ = ⟨0, l', out ++ [b0, b1, b2, b3, b4]⟩ := by
  have h0 := b0.toNat_lt
  have h1 := b1.toNat_lt
  have h2 := b2.toNat_lt
  have h3 := b3.toNat_lt
  have h4 := b4.toNat_lt
  simp only [digits32, List.foldl_cons, List.foldl_nil, decodeBase32Step, DecodeState.mk.injEq,
    List.append_assoc, List.cons_append, List.nil_append, List.append_cancel_left_eq,
    List.cons.injEq, true_and, and_true, exists_eq_left']
  refine ⟨?_, ?_, ?_, ?_, ?_⟩ <;> apply toUInt8_eq_of_mod <;>
    simp (disch := omega) only [and_eq_mod (m := 1) 1 rfl, and_eq_mod (m := 3) 2 rfl,
      and_eq_mod (m := 7) 3 rfl, and_eq_mod (m := 15) 4 rfl, and_eq_mod (m := 31) 5 rfl,
      shiftLeft_or_eq_add, Nat.reducePow] <;> omega

/-- The two digits of one last byte read back as the byte, in `mode` `2` with no bits left. -/
theorem foldl_decodeBase32Step_one (b0 : UInt8) (l : Nat) (out : List UInt8) :
    ((digits32 b0.toNat 0 0 0 0).take 2).foldl decodeBase32Step ⟨0, l, out⟩ =
      ⟨2, 0, out ++ [b0]⟩ := by
  have h0 := b0.toNat_lt
  simp only [digits32, List.take_succ_cons, List.take_zero, List.foldl_cons, List.foldl_nil,
    decodeBase32Step, DecodeState.mk.injEq, List.append_cancel_left_eq,
    List.cons.injEq, true_and, and_true]
  refine ⟨?_, toUInt8_eq_of_mod ?_⟩ <;>
    simp (disch := omega) only [and_eq_mod (m := 3) 2 rfl, and_eq_mod (m := 7) 3 rfl,
      shiftLeft_or_eq_add, Nat.reducePow] <;> omega

/-- The four digits of two last bytes read back as the bytes, in `mode` `4` with no bits left. -/
theorem foldl_decodeBase32Step_two (b0 b1 : UInt8) (l : Nat) (out : List UInt8) :
    ((digits32 b0.toNat b1.toNat 0 0 0).take 4).foldl decodeBase32Step ⟨0, l, out⟩ =
      ⟨4, 0, out ++ [b0, b1]⟩ := by
  have h0 := b0.toNat_lt
  have h1 := b1.toNat_lt
  simp only [digits32, List.take_succ_cons, List.take_zero, List.foldl_cons, List.foldl_nil,
    decodeBase32Step, DecodeState.mk.injEq, List.append_assoc, List.cons_append,
    List.nil_append, List.append_cancel_left_eq, List.cons.injEq, true_and, and_true]
  refine ⟨?_, toUInt8_eq_of_mod ?_, toUInt8_eq_of_mod ?_⟩ <;>
    simp (disch := omega) only [and_eq_mod (m := 1) 1 rfl, and_eq_mod (m := 3) 2 rfl,
      and_eq_mod (m := 7) 3 rfl, and_eq_mod (m := 15) 4 rfl, and_eq_mod (m := 31) 5 rfl,
      shiftLeft_or_eq_add, Nat.reducePow] <;> omega

/-- The five digits of three last bytes read back as the bytes, in `mode` `5` with no bits
left. -/
theorem foldl_decodeBase32Step_three (b0 b1 b2 : UInt8) (l : Nat) (out : List UInt8) :
    ((digits32 b0.toNat b1.toNat b2.toNat 0 0).take 5).foldl decodeBase32Step ⟨0, l, out⟩ =
      ⟨5, 0, out ++ [b0, b1, b2]⟩ := by
  have h0 := b0.toNat_lt
  have h1 := b1.toNat_lt
  have h2 := b2.toNat_lt
  simp only [digits32, List.take_succ_cons, List.take_zero, List.foldl_cons, List.foldl_nil,
    decodeBase32Step, DecodeState.mk.injEq, List.append_assoc, List.cons_append,
    List.nil_append, List.append_cancel_left_eq, List.cons.injEq, true_and, and_true]
  refine ⟨?_, toUInt8_eq_of_mod ?_, toUInt8_eq_of_mod ?_, toUInt8_eq_of_mod ?_⟩ <;>
    simp (disch := omega) only [and_eq_mod (m := 1) 1 rfl, and_eq_mod (m := 3) 2 rfl,
      and_eq_mod (m := 7) 3 rfl, and_eq_mod (m := 15) 4 rfl, and_eq_mod (m := 31) 5 rfl,
      shiftLeft_or_eq_add, Nat.reducePow] <;> omega

/-- The seven digits of four last bytes read back as the bytes, in `mode` `7` with no bits
left. -/
theorem foldl_decodeBase32Step_four (b0 b1 b2 b3 : UInt8) (l : Nat) (out : List UInt8) :
    ((digits32 b0.toNat b1.toNat b2.toNat b3.toNat 0).take 7).foldl decodeBase32Step
      ⟨0, l, out⟩ = ⟨7, 0, out ++ [b0, b1, b2, b3]⟩ := by
  have h0 := b0.toNat_lt
  have h1 := b1.toNat_lt
  have h2 := b2.toNat_lt
  have h3 := b3.toNat_lt
  simp only [digits32, List.take_succ_cons, List.take_zero, List.foldl_cons, List.foldl_nil,
    decodeBase32Step, DecodeState.mk.injEq, List.append_assoc, List.cons_append,
    List.nil_append, List.append_cancel_left_eq, List.cons.injEq, true_and, and_true]
  refine ⟨?_, toUInt8_eq_of_mod ?_, toUInt8_eq_of_mod ?_, toUInt8_eq_of_mod ?_,
    toUInt8_eq_of_mod ?_⟩ <;>
    simp (disch := omega) only [and_eq_mod (m := 1) 1 rfl, and_eq_mod (m := 3) 2 rfl,
      and_eq_mod (m := 7) 3 rfl, and_eq_mod (m := 15) 4 rfl, and_eq_mod (m := 31) 5 rfl,
      shiftLeft_or_eq_add, Nat.reducePow] <;> omega

/-- Every byte string reads back from its base32, from any state of `mode` `0`, with the padding
check passed where the characters end. -/
theorem decodeLoop_EncodeBase32 : ∀ (v : List UInt8) (l : Nat) (out : List UInt8),
    ∃ s p,
      decodeLoop decode32_table decodeBase32Step (EncodeBase32 v) ⟨0, l, out⟩ = (s, p) ∧
      s.vchRet = out ++ v ∧ decodeBase32Invalid s p = false
  | [], l, out => ⟨⟨0, l, out⟩, [], rfl, (List.append_nil out).symm, rfl⟩
  | [b0], l, out => by
    have hds := @digits32_lt b0.toNat 0 0 0 0 b0.toNat_lt (by omega) (by omega) (by omega)
      (by omega)
    rw [EncodeBase32_one, decodeLoop_map_append _ _ (decode32_table_pbase32_of_lt
      fun d hd => hds d (List.mem_of_mem_take hd)), foldl_decodeBase32Step_one]
    exact ⟨_, _, rfl, rfl, rfl⟩
  | [b0, b1], l, out => by
    have hds := @digits32_lt b0.toNat b1.toNat 0 0 0 b0.toNat_lt b1.toNat_lt (by omega)
      (by omega) (by omega)
    rw [EncodeBase32_two, decodeLoop_map_append _ _ (decode32_table_pbase32_of_lt
      fun d hd => hds d (List.mem_of_mem_take hd)), foldl_decodeBase32Step_two]
    exact ⟨_, _, rfl, rfl, rfl⟩
  | [b0, b1, b2], l, out => by
    have hds := @digits32_lt b0.toNat b1.toNat b2.toNat 0 0 b0.toNat_lt b1.toNat_lt b2.toNat_lt
      (by omega) (by omega)
    rw [EncodeBase32_three, decodeLoop_map_append _ _ (decode32_table_pbase32_of_lt
      fun d hd => hds d (List.mem_of_mem_take hd)), foldl_decodeBase32Step_three]
    exact ⟨_, _, rfl, rfl, rfl⟩
  | [b0, b1, b2, b3], l, out => by
    have hds := @digits32_lt b0.toNat b1.toNat b2.toNat b3.toNat 0 b0.toNat_lt b1.toNat_lt
      b2.toNat_lt b3.toNat_lt (by omega)
    rw [EncodeBase32_four, decodeLoop_map_append _ _ (decode32_table_pbase32_of_lt
      fun d hd => hds d (List.mem_of_mem_take hd)), foldl_decodeBase32Step_four]
    exact ⟨_, _, rfl, rfl, rfl⟩
  | b0 :: b1 :: b2 :: b3 :: b4 :: v, l, out => by
    obtain ⟨l', hl'⟩ := foldl_decodeBase32Step_digits32 b0 b1 b2 b3 b4 l out
    rw [EncodeBase32_cons_five, decodeLoop_map_append _ _ (decode32_table_pbase32_of_lt
      (digits32_lt b0.toNat_lt b1.toNat_lt b2.toNat_lt b3.toNat_lt b4.toNat_lt)), hl']
    obtain ⟨s, p, hsp, hv, hinv⟩ := decodeLoop_EncodeBase32 v l' (out ++ [b0, b1, b2, b3, b4])
    exact ⟨s, p, hsp, by rw [hv, List.append_assoc]; rfl, hinv⟩

theorem DecodeBase32_EncodeBase32 (v : List UInt8) :
    DecodeBase32 (EncodeBase32 v) = (v, false) := by
  obtain ⟨s, p, hsp, hv, hinv⟩ := decodeLoop_EncodeBase32 v 0 []
  simp only [DecodeBase32, hsp, hv, hinv, List.nil_append]

/-- Eight digits read as five bytes whose digits they are, back in `mode` `0`. -/
theorem foldl_decodeBase32Step_eight {d0 d1 d2 d3 d4 d5 d6 d7 : Nat} (h0 : d0 < 32)
    (h1 : d1 < 32) (h2 : d2 < 32) (h3 : d3 < 32) (h4 : d4 < 32) (h5 : d5 < 32) (h6 : d6 < 32)
    (h7 : d7 < 32) (l : Nat) :
    ∃ b0 b1 b2 b3 b4 l', [d0, d1, d2, d3, d4, d5, d6, d7].foldl decodeBase32Step ⟨0, l, []⟩ =
      ⟨0, l', [b0, b1, b2, b3, b4]⟩ ∧
        digits32 b0.toNat b1.toNat b2.toNat b3.toNat b4.toNat =
          [d0, d1, d2, d3, d4, d5, d6, d7] := by
  simp only [List.foldl_cons, List.foldl_nil, decodeBase32Step, List.nil_append]
  refine ⟨_, _, _, _, _, _, rfl, ?_⟩
  simp only [digits32, List.cons.injEq, Nat.toUInt8_eq, UInt8.toNat_ofNat', and_true]
  refine ⟨?_, ?_, ?_, ?_, ?_, ?_, ?_, ?_⟩ <;>
    simp (disch := omega) only [and_eq_mod (m := 1) 1 rfl, and_eq_mod (m := 3) 2 rfl,
      and_eq_mod (m := 7) 3 rfl, and_eq_mod (m := 15) 4 rfl, and_eq_mod (m := 31) 5 rfl,
      shiftLeft_or_eq_add, Nat.reducePow] <;> omega

/-- Two digits read as one byte, in `mode` `2`; with their last two bits clear they are the
digits of the byte. -/
theorem foldl_decodeBase32Step_two_digits {d0 d1 : Nat} (h0 : d0 < 32) (h1 : d1 < 32) (l : Nat) :
    ∃ b0, [d0, d1].foldl decodeBase32Step ⟨0, l, []⟩ = ⟨2, d1 &&& 3, [b0]⟩ ∧
      (d1 &&& 3 = 0 → (digits32 b0.toNat 0 0 0 0).take 2 = [d0, d1]) := by
  simp only [List.foldl_cons, List.foldl_nil, decodeBase32Step, List.nil_append]
  refine ⟨_, rfl, fun hleft => ?_⟩
  simp only [digits32, List.take_succ_cons, List.take_zero, List.cons.injEq, Nat.toUInt8_eq,
    UInt8.toNat_ofNat', and_true]
  simp (disch := omega) only [and_eq_mod (m := 3) 2 rfl, and_eq_mod (m := 7) 3 rfl,
    shiftLeft_or_eq_add, Nat.reducePow] at hleft ⊢
  omega

/-- Four digits read as two bytes, in `mode` `4`; with their last four bits clear they are the
digits of the bytes. -/
theorem foldl_decodeBase32Step_four_digits {d0 d1 d2 d3 : Nat} (h0 : d0 < 32) (h1 : d1 < 32)
    (h2 : d2 < 32) (h3 : d3 < 32) (l : Nat) :
    ∃ b0 b1,
      [d0, d1, d2, d3].foldl decodeBase32Step ⟨0, l, []⟩ = ⟨4, d3 &&& 15, [b0, b1]⟩ ∧
      (d3 &&& 15 = 0 → (digits32 b0.toNat b1.toNat 0 0 0).take 4 = [d0, d1, d2, d3]) := by
  simp only [List.foldl_cons, List.foldl_nil, decodeBase32Step, List.nil_append,
    List.cons_append]
  refine ⟨_, _, rfl, fun hleft => ?_⟩
  simp only [digits32, List.take_succ_cons, List.take_zero, List.cons.injEq, Nat.toUInt8_eq,
    UInt8.toNat_ofNat', and_true]
  simp (disch := omega) only [and_eq_mod (m := 1) 1 rfl, and_eq_mod (m := 3) 2 rfl,
    and_eq_mod (m := 7) 3 rfl, and_eq_mod (m := 15) 4 rfl, and_eq_mod (m := 31) 5 rfl,
    shiftLeft_or_eq_add, Nat.reducePow] at hleft ⊢
  refine ⟨?_, ?_, ?_, ?_⟩ <;> omega

/-- Five digits read as three bytes, in `mode` `5`; with their last bit clear they are the
digits of the bytes. -/
theorem foldl_decodeBase32Step_five_digits {d0 d1 d2 d3 d4 : Nat} (h0 : d0 < 32) (h1 : d1 < 32)
    (h2 : d2 < 32) (h3 : d3 < 32) (h4 : d4 < 32) (l : Nat) :
    ∃ b0 b1 b2, [d0, d1, d2, d3, d4].foldl decodeBase32Step ⟨0, l, []⟩ =
      ⟨5, d4 &&& 1, [b0, b1, b2]⟩ ∧
        (d4 &&& 1 = 0 →
          (digits32 b0.toNat b1.toNat b2.toNat 0 0).take 5 = [d0, d1, d2, d3, d4]) := by
  simp only [List.foldl_cons, List.foldl_nil, decodeBase32Step, List.nil_append,
    List.cons_append]
  refine ⟨_, _, _, rfl, fun hleft => ?_⟩
  simp only [digits32, List.take_succ_cons, List.take_zero, List.cons.injEq, Nat.toUInt8_eq,
    UInt8.toNat_ofNat', and_true]
  simp (disch := omega) only [and_eq_mod (m := 1) 1 rfl, and_eq_mod (m := 3) 2 rfl,
    and_eq_mod (m := 7) 3 rfl, and_eq_mod (m := 15) 4 rfl, and_eq_mod (m := 31) 5 rfl,
    shiftLeft_or_eq_add, Nat.reducePow] at hleft ⊢
  refine ⟨?_, ?_, ?_, ?_, ?_⟩ <;> omega

/-- Seven digits read as four bytes, in `mode` `7`; with their last three bits clear they are
the digits of the bytes. -/
theorem foldl_decodeBase32Step_seven_digits {d0 d1 d2 d3 d4 d5 d6 : Nat} (h0 : d0 < 32)
    (h1 : d1 < 32) (h2 : d2 < 32) (h3 : d3 < 32) (h4 : d4 < 32) (h5 : d5 < 32) (h6 : d6 < 32)
    (l : Nat) :
    ∃ b0 b1 b2 b3, [d0, d1, d2, d3, d4, d5, d6].foldl decodeBase32Step ⟨0, l, []⟩ =
      ⟨7, d6 &&& 7, [b0, b1, b2, b3]⟩ ∧
        (d6 &&& 7 = 0 → (digits32 b0.toNat b1.toNat b2.toNat b3.toNat 0).take 7 =
          [d0, d1, d2, d3, d4, d5, d6]) := by
  simp only [List.foldl_cons, List.foldl_nil, decodeBase32Step, List.nil_append,
    List.cons_append]
  refine ⟨_, _, _, _, rfl, fun hleft => ?_⟩
  simp only [digits32, List.take_succ_cons, List.take_zero, List.cons.injEq, Nat.toUInt8_eq,
    UInt8.toNat_ofNat', and_true]
  simp (disch := omega) only [and_eq_mod (m := 1) 1 rfl, and_eq_mod (m := 3) 2 rfl,
    and_eq_mod (m := 7) 3 rfl, and_eq_mod (m := 15) 4 rfl, and_eq_mod (m := 31) 5 rfl,
    shiftLeft_or_eq_add, Nat.reducePow] at hleft ⊢
  refine ⟨?_, ?_, ?_, ?_, ?_, ?_, ?_⟩ <;> omega

/-- Digits that the decoder reads with the padding check passed are, with that padding, the
start of the base32 of what it read. -/
theorem EncodeBase32_foldl_isPrefix (ds : List Nat) (hds : ∀ d ∈ ds, d < 32) (l : Nat)
    (rest : List UInt8)
    (h : decodeBase32Invalid (ds.foldl decodeBase32Step ⟨0, l, []⟩) rest = false) :
    EncodeBase32 (ds.foldl decodeBase32Step ⟨0, l, []⟩).vchRet <+:
      ds.map (pbase32.getD · 0) ++ rest.map toLowerAscii := by
  -- a group of eight digits at a time; the cases are split by `rcases`, as a `match` on eight
  -- levels of digits is slow to elaborate against the folds in the statement
  induction ds using Nat.strongRecMeasure List.length generalizing l with
  | ind ds ih =>
  rcases ds with
    _ | ⟨d0, _ | ⟨d1, _ | ⟨d2, _ | ⟨d3, _ | ⟨d4, _ | ⟨d5, _ | ⟨d6, _ | ⟨d7, ds⟩⟩⟩⟩⟩⟩⟩⟩
  · simp [EncodeBase32, encodeBase32Finish]
  · exact absurd h (by simp [decodeBase32Step, decodeBase32Invalid])
  · obtain ⟨b0, hr, hb⟩ :=
      foldl_decodeBase32Step_two_digits (hds d0 (by simp)) (hds d1 (by simp)) l
    rw [hr] at h ⊢
    -- `mode` `2` asks for no bits left and `======`
    obtain ⟨hleft, hpad, -⟩ := paddingInvalid_eq_false.mp h
    rw [EncodeBase32_one, hb hleft]
    exact (List.prefix_append_right_inj _).mpr (replicate_prefix_map_toLowerAscii hpad)
  · exact absurd h (by simp [decodeBase32Step, decodeBase32Invalid])
  · obtain ⟨b0, b1, hr, hb⟩ := foldl_decodeBase32Step_four_digits (hds d0 (by simp))
      (hds d1 (by simp)) (hds d2 (by simp)) (hds d3 (by simp)) l
    rw [hr] at h ⊢
    obtain ⟨hleft, hpad, -⟩ := paddingInvalid_eq_false.mp h
    rw [EncodeBase32_two, hb hleft]
    exact (List.prefix_append_right_inj _).mpr (replicate_prefix_map_toLowerAscii hpad)
  · obtain ⟨b0, b1, b2, hr, hb⟩ := foldl_decodeBase32Step_five_digits (hds d0 (by simp))
      (hds d1 (by simp)) (hds d2 (by simp)) (hds d3 (by simp)) (hds d4 (by simp)) l
    rw [hr] at h ⊢
    obtain ⟨hleft, hpad, -⟩ := paddingInvalid_eq_false.mp h
    rw [EncodeBase32_three, hb hleft]
    exact (List.prefix_append_right_inj _).mpr (replicate_prefix_map_toLowerAscii hpad)
  · exact absurd h (by simp [decodeBase32Step, decodeBase32Invalid])
  · obtain ⟨b0, b1, b2, b3, hr, hb⟩ := foldl_decodeBase32Step_seven_digits (hds d0 (by simp))
      (hds d1 (by simp)) (hds d2 (by simp)) (hds d3 (by simp)) (hds d4 (by simp))
      (hds d5 (by simp)) (hds d6 (by simp)) l
    rw [hr] at h ⊢
    obtain ⟨hleft, hpad, -⟩ := paddingInvalid_eq_false.mp h
    rw [EncodeBase32_four, hb hleft]
    exact (List.prefix_append_right_inj _).mpr (replicate_prefix_map_toLowerAscii hpad)
  · obtain ⟨b0, b1, b2, b3, b4, l', hr, hb⟩ := foldl_decodeBase32Step_eight (hds d0 (by simp))
      (hds d1 (by simp)) (hds d2 (by simp)) (hds d3 (by simp)) (hds d4 (by simp))
      (hds d5 (by simp)) (hds d6 (by simp)) (hds d7 (by simp)) l
    have hsplit : d0 :: d1 :: d2 :: d3 :: d4 :: d5 :: d6 :: d7 :: ds =
        [d0, d1, d2, d3, d4, d5, d6, d7] ++ ds := rfl
    rw [hsplit, List.foldl_append, hr, foldl_frame _ decodeBase32Step_appends] at h ⊢
    rw [List.cons_append, List.cons_append, List.cons_append, List.cons_append, List.cons_append,
      List.nil_append, EncodeBase32_cons_five, hb, List.map_append, List.append_assoc]
    exact (List.prefix_append_right_inj _).mpr
      (ih ds (by simp only [List.length_cons]; omega) (fun d hd => hds d (by simp [hd])) l' h)

/-- A string that `DecodeBase32` accepts starts, read in lower case, with the base32 of the
bytes it reads. -/
theorem EncodeBase32_DecodeBase32_isPrefix (p : List UInt8) (h : (DecodeBase32 p).2 = false) :
    EncodeBase32 (DecodeBase32 p).1 <+: p.map toLowerAscii := by
  simp only [DecodeBase32, decodeLoop_eq] at h ⊢
  have hlt :
      ∀ d ∈ (p.takeWhile (accepts decode32_table)).map (digitOf decode32_table), d < 32 := by
    simp only [List.mem_map]
    rintro _ ⟨c, -, rfl⟩
    exact digitOf_decode32_table_lt c
  -- the characters read are, in lower case, the alphabet's at their digits
  have hcs : ((p.takeWhile (accepts decode32_table)).map (digitOf decode32_table)).map
      (pbase32.getD · 0) = (p.takeWhile (accepts decode32_table)).map toLowerAscii := by
    rw [List.map_map]
    exact List.map_congr_left fun c hc => pbase32_digitOf c (List.mem_takeWhile_imp hc)
  have hpre := EncodeBase32_foldl_isPrefix _ hlt 0 _ h
  rwa [hcs, ← List.map_append, List.takeWhile_append_dropWhile] at hpre

/-- `ME======`, in upper case, is accepted, and is in lower case the base32 of the byte it
reads. -/
theorem EncodeBase32_DecodeBase32_isPrefix_ME :
    (DecodeBase32 ("ME======".toList.map Char.toUInt8)).2 = false ∧
      EncodeBase32 (DecodeBase32 ("ME======".toList.map Char.toUInt8)).1 <+:
        ("ME======".toList.map Char.toUInt8).map toLowerAscii :=
  have h : (DecodeBase32 ("ME======".toList.map Char.toUInt8)).2 = false := by decide
  ⟨h, EncodeBase32_DecodeBase32_isPrefix _ h⟩

end Base32

end Unitus
