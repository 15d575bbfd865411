import Unitus.Script.Interpreter
import Unitus.Lib.Bytes

/-!
# Script — the signature encoding of BIP66

`IsValidSignatureEncoding` reads a signature only where its length checks have put the index
inside it, and accepts exactly the strict DER encodings of BIP66:
`0x30 [total-length] 0x02 [R-length] [R] 0x02 [S-length] [S] [sighash]`, of 9 to 73 bytes, with
`R` and `S` not empty, not negative and not padded (`IsValidSignatureEncoding_spec`).

To say where it reads, `IsValidSignatureEncodingAt` is the same function with each `sig[i]` a read
through a function `read`; where `read` agrees with the signature inside its length, the result
is the same whatever `read` returns outside it.  The grammar is read off a signature laid out as
`[a0, a1, a2, a3] ++ R ++ [c0, c1] ++ S ++ [sighash]`, with the two length bytes matching `R`
and `S` (`IsValidSignatureEncoding_shape`); every signature that passes the length checks is laid
out so (`exists_shape`).
-/

namespace Unitus

/-- `IsValidSignatureEncoding(sig)` with `sig.size()` given as `size` and each `sig[i]` read
through `read`. -/
def IsValidSignatureEncodingAt (size : Nat) (read : Nat → UInt8) : Bool :=
  if size < 9 then false
  else if size > 73 then false
  else if read 0 ≠ 0x30 then false
  else if (read 1).toNat ≠ size - 3 then false
  else
    let lenR := (read 3).toNat
    if 5 + lenR ≥ size then false
    else
      let lenS := (read (5 + lenR)).toNat
      if lenR + lenS + 7 ≠ size then false
      else if read 2 ≠ 0x02 then false
      else if lenR = 0 then false
      else if read 4 &&& 0x80 ≠ 0 then false
      else if lenR > 1 ∧ read 4 = 0x00 ∧ read 5 &&& 0x80 = 0 then false
      else if read (lenR + 4) ≠ 0x02 then false
      else if lenS = 0 then false
      else if read (lenR + 6) &&& 0x80 ≠ 0 then false
      else if lenS > 1 ∧ read (lenR + 6) = 0x00 ∧ read (lenR + 7) &&& 0x80 = 0 then false
      else true

theorem IsValidSignatureEncoding_eq_at (sig : valtype) :
    IsValidSignatureEncoding sig =
      IsValidSignatureEncodingAt sig.length (fun i => sig.getD i 0) := rfl

theorem IsValidSignatureEncodingAt_congr {size : Nat} {read read' : Nat → UInt8}
    (h : ∀ i < size, read i = read' i) :
    IsValidSignatureEncodingAt size read = IsValidSignatureEncodingAt size read' := by
  unfold IsValidSignatureEncodingAt
  by_cases h9 : size < 9
  · simp [h9]
  by_cases h73 : size > 73
  · simp [h73]
  -- the first nine bytes are inside the signature
  rw [h 0 (by omega), h 1 (by omega), h 2 (by omega), h 3 (by omega), h 4 (by omega),
    h 5 (by omega)]
  -- `lenR` and `lenS` are read through `read'` from here on
  dsimp only
  by_cases hR : 5 + (read' 3).toNat ≥ size
  · simp [hR]
  rw [h (5 + (read' 3).toNat) (by omega)]
  by_cases hsum : (read' 3).toNat + (read' (5 + (read' 3).toNat)).toNat + 7 ≠ size
  · simp [hR, hsum]
  rw [h ((read' 3).toNat + 4) (by omega)]
  by_cases hS : (read' (5 + (read' 3).toNat)).toNat = 0
  · simp [hR, hS]
  rw [h ((read' 3).toNat + 6) (by omega)]
  by_cases hS1 : (read' (5 + (read' 3).toNat)).toNat > 1
  · rw [h ((read' 3).toNat + 7) (by omega)]
  · simp [hR, hsum, hS, hS1]

/-- A DER integer as BIP66 admits it: not empty, not negative (its first byte below `0x80`), and
not padded (a first byte `0x00` only before a byte with its top bit set). -/
def MinimalDERInt : List UInt8 → Prop
  | [] => False
  | [x] => x.toNat < 0x80
  | x :: y :: _ => x.toNat < 0x80 ∧ (x = 0x00 → 0x80 ≤ y.toNat)

/-- BIP66's signature: `0x30 [total-length] 0x02 [R-length] [R] 0x02 [S-length] [S] [sighash]`
of 9 to 73 bytes, the total length counting the bytes from `0x02` to the end of `S`. -/
def BIP66Signature (sig : List UInt8) : Prop :=
  9 ≤ sig.length ∧ sig.length ≤ 73 ∧
    ∃ (R S : List UInt8) (sighash : UInt8),
      sig = [0x30, UInt8.ofNat (sig.length - 3), 0x02, UInt8.ofNat R.length] ++ R ++
        [0x02, UInt8.ofNat S.length] ++ S ++ [sighash] ∧
      MinimalDERInt R ∧ MinimalDERInt S

theorem minimalDERInt_iff {R : List UInt8} :
    MinimalDERInt R ↔ R ≠ [] ∧ (R.getD 0 0).toNat < 0x80 ∧
      (1 < R.length → R.getD 0 0 = 0x00 → 0x80 ≤ (R.getD 1 0).toNat) := by
  match R with
  | [] => simp [MinimalDERInt]
  | [x] => simp [MinimalDERInt]
  | x :: y :: R => simp [MinimalDERInt]

section Shape

variable {a0 a1 a2 a3 c0 c1 sighash : UInt8} {R S : List UInt8}

theorem length_shape :
    ([a0, a1, a2, a3] ++ R ++ [c0, c1] ++ S ++ [sighash]).length = R.length + S.length + 7 := by
  simp
  omega

theorem getD_shape_R {j : Nat} (hj : j < R.length) :
    ([a0, a1, a2, a3] ++ R ++ [c0, c1] ++ S ++ [sighash]).getD (4 + j) 0 = R.getD j 0 := by
  simp only [List.append_assoc, List.cons_append, List.nil_append]
  rw [Nat.add_comm]
  simp [List.getElem?_append_left hj]

theorem getD_shape_c0 :
    ([a0, a1, a2, a3] ++ R ++ [c0, c1] ++ S ++ [sighash]).getD (R.length + 4) 0 = c0 := by
  simp

theorem getD_shape_c1 :
    ([a0, a1, a2, a3] ++ R ++ [c0, c1] ++ S ++ [sighash]).getD (5 + R.length) 0 = c1 := by
  rw [show 5 + R.length = R.length + 1 + 4 by omega]
  simp

theorem getD_shape_S {j : Nat} (hj : j < S.length) :
    ([a0, a1, a2, a3] ++ R ++ [c0, c1] ++ S ++ [sighash]).getD (R.length + 6 + j) 0 =
      S.getD j 0 := by
  simp only [List.append_assoc, List.cons_append, List.nil_append]
  rw [show R.length + 6 + j = (R.length + (j + 2)) + 4 by omega]
  simp [List.getElem?_append_right, List.getElem?_append_left hj]

theorem IsValidSignatureEncoding_shape (hR : a3.toNat = R.length) (hS : c1.toNat = S.length) :
    IsValidSignatureEncoding ([a0, a1, a2, a3] ++ R ++ [c0, c1] ++ S ++ [sighash]) = true ↔
      9 ≤ R.length + S.length + 7 ∧ R.length + S.length + 7 ≤ 73 ∧ a0 = 0x30 ∧
        a1.toNat = R.length + S.length + 4 ∧ a2 = 0x02 ∧ MinimalDERInt R ∧ c0 = 0x02 ∧
        MinimalDERInt S := by
  rw [IsValidSignatureEncoding_eq_at, length_shape, minimalDERInt_iff, minimalDERInt_iff]
  have r3 : ([a0, a1, a2, a3] ++ R ++ [c0, c1] ++ S ++ [sighash]).getD 3 0 = a3 := by simp
  have r4 : 0 < R.length →
      ([a0, a1, a2, a3] ++ R ++ [c0, c1] ++ S ++ [sighash]).getD 4 0 = R.getD 0 0 :=
    fun h => getD_shape_R (j := 0) h
  have r5 : 1 < R.length →
      ([a0, a1, a2, a3] ++ R ++ [c0, c1] ++ S ++ [sighash]).getD 5 0 = R.getD 1 0 :=
    fun h => getD_shape_R (j := 1) h
  have r6 : 0 < S.length →
      ([a0, a1, a2, a3] ++ R ++ [c0, c1] ++ S ++ [sighash]).getD (R.length + 6) 0 = S.getD 0 0 :=
    fun h => getD_shape_S (j := 0) h
  have r7 : 1 < S.length →
      ([a0, a1, a2, a3] ++ R ++ [c0, c1] ++ S ++ [sighash]).getD (R.length + 7) 0 = S.getD 1 0 :=
    fun h => getD_shape_S (j := 1) h
  unfold IsValidSignatureEncodingAt
  simp only [r3, hR, getD_shape_c1, hS, getD_shape_c0]
  by_cases hR0 : R.length = 0
  · simp [List.length_eq_zero_iff.mp hR0]
  by_cases hS0 : S.length = 0
  · simp [List.length_eq_zero_iff.mp hS0]
  have hRne : R ≠ [] := fun h => hR0 (by simp [h])
  have hSne : S ≠ [] := fun h => hS0 (by simp [h])
  have h5 : 5 + R.length < R.length + S.length + 7 := by omega
  rw [r4 (by omega), r6 (by omega)]
  by_cases hR2 : 1 < R.length <;> by_cases hS2 : 1 < S.length
  · rw [r5 hR2, r7 hS2]
    simp [hR2, hS2, hRne, hSne, h5, UInt8.and_80_eq_zero_iff, imp_iff_not_or, and_assoc]
  · rw [r5 hR2]
    simp [hR2, hS2, hRne, hSne, h5, UInt8.and_80_eq_zero_iff, imp_iff_not_or, and_assoc]
  · rw [r7 hS2]
    simp [hR2, hS2, hRne, hSne, h5, UInt8.and_80_eq_zero_iff, imp_iff_not_or]
  · simp [hR2, hS2, hRne, hSne, h5, UInt8.and_80_eq_zero_iff]

/-- A signature that passes has 9 to 73 bytes, `R` ends inside it, and the two lengths add up
to it. -/
theorem IsValidSignatureEncodingAt_lengths {size : Nat} {read : Nat → UInt8}
    (h : IsValidSignatureEncodingAt size read = true) :
    9 ≤ size ∧ size ≤ 73 ∧ 5 + (read 3).toNat < size ∧
      (read 3).toNat + (read (5 + (read 3).toNat)).toNat + 7 = size := by
  unfold IsValidSignatureEncodingAt at h
  -- each fact is a check that would otherwise have returned `false`
  refine ⟨?_, ?_, ?_, ?_⟩ <;> by_contra hc <;> push Not at hc <;> simp [hc] at h

/-- A signature of nine bytes or more whose length bytes fit, laid out as BIP66 lays it out. -/
theorem exists_shape {sig : List UInt8} (h9 : 9 ≤ sig.length)
    (hR : 5 + (sig.getD 3 0).toNat < sig.length)
    (hsum : (sig.getD 3 0).toNat + (sig.getD (5 + (sig.getD 3 0).toNat) 0).toNat + 7 =
      sig.length) :
    ∃ (a0 a1 a2 a3 c0 c1 sighash : UInt8) (R S : List UInt8),
      sig = [a0, a1, a2, a3] ++ R ++ [c0, c1] ++ S ++ [sighash] ∧
        a3.toNat = R.length ∧ c1.toNat = S.length := by
  match sig, h9 with
  | a0 :: a1 :: a2 :: a3 :: rest, _ =>
    simp only [List.getD_cons_succ, List.getD_cons_zero, List.length_cons] at hR hsum
    -- `R` is the `a3` bytes after the header, then come the marker, `lenS` and the rest
    obtain ⟨c0, c1, rest3, hrest⟩ : ∃ c0 c1 rest3, rest.drop a3.toNat = c0 :: c1 :: rest3 := by
      match h : rest.drop a3.toNat with
      | c0 :: c1 :: rest3 => exact ⟨c0, c1, rest3, rfl⟩
      | [] | [_] =>
        have := congrArg List.length h
        simp at this
        omega
    have hRlen : (rest.take a3.toNat).length = a3.toNat := by simp; omega
    have hsplit : rest = rest.take a3.toNat ++ c0 :: c1 :: rest3 := by
      rw [← hrest, List.take_append_drop]
    have hc1 : (a0 :: a1 :: a2 :: a3 :: rest).getD (5 + a3.toNat) 0 = c1 := by
      rw [hsplit, show 5 + a3.toNat = (rest.take a3.toNat).length + 1 + 4 by omega]
      simp
    rw [hc1] at hsum
    have hlen : rest.length = a3.toNat + 2 + rest3.length := by
      rw [hsplit]
      simp
      omega
    -- what is left after `lenS` is `S` and the sighash byte
    have hne : rest3 ≠ [] := by
      rintro rfl
      simp at hlen
      omega
    refine ⟨a0, a1, a2, a3, c0, c1, rest3.getLast hne, rest.take a3.toNat, rest3.dropLast,
      ?_, hRlen.symm, ?_⟩
    · rw [List.append_assoc _ rest3.dropLast, List.dropLast_append_getLast hne]
      conv_lhs => rw [hsplit]
      simp
    · simp
      omega

end Shape
/-- **BIP66.**  `IsValidSignatureEncoding` reads only inside the signature: any reads that agree
with it there give its result.  And it accepts exactly the BIP66 encodings. -/
theorem IsValidSignatureEncoding_spec (sig : valtype) :
    (∀ read : Nat → UInt8, (∀ i < sig.length, read i = sig.getD i 0) →
      IsValidSignatureEncodingAt sig.length read = IsValidSignatureEncoding sig) ∧
    (IsValidSignatureEncoding sig = true ↔ BIP66Signature sig) := by
  refine ⟨fun read h => IsValidSignatureEncodingAt_congr h, ⟨fun h => ?_, fun h => ?_⟩⟩
  · rw [IsValidSignatureEncoding_eq_at] at h
    obtain ⟨h9, h73, hR, hsum⟩ := IsValidSignatureEncodingAt_lengths h
    rw [← IsValidSignatureEncoding_eq_at] at h
    obtain ⟨a0, a1, a2, a3, c0, c1, sighash, R, S, rfl, hR', hS'⟩ := exists_shape h9 hR hsum
    obtain ⟨-, -, rfl, ha1, rfl, hmR, rfl, hmS⟩ := (IsValidSignatureEncoding_shape hR' hS').mp h
    refine ⟨h9, h73, R, S, sighash, ?_, hmR, hmS⟩
    -- the length bytes are the lengths that BIP66 writes
    have ha1' : UInt8.ofNat (R.length + S.length + 7 - 3) = a1 := by
      rw [show R.length + S.length + 7 - 3 = a1.toNat by omega, UInt8.ofNat_toNat]
    rw [length_shape, ha1', ← hR', ← hS', UInt8.ofNat_toNat, UInt8.ofNat_toNat]
  · obtain ⟨h9, h73, R, S, sighash, hsig, hmR, hmS⟩ := h
    have hlen : sig.length = R.length + S.length + 7 := by
      have := congrArg List.length hsig
      rwa [length_shape] at this
    rw [hsig]
    refine (IsValidSignatureEncoding_shape ?_ ?_).mpr ⟨by omega, by omega, rfl, ?_, rfl, hmR, rfl, hmS⟩
    · rw [UInt8.toNat_ofNat']
      omega
    · rw [UInt8.toNat_ofNat']
      omega
    · rw [UInt8.toNat_ofNat']
      omega

end Unitus
