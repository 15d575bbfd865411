import Unitus.Address.Base58
import Unitus.Lib.Radix
import Unitus.Lib.Lists
import Unitus.Lib.Bytes
import Unitus.Lib.Except

/-!
# Address — base 58 converts exactly, in the room it allocates

The inner loop of both conversions multiplies a buffer of digits by `base` and adds `carry`,
from the buffer's end up to its highest digit written so far; what it leaves as carry is what
did not fit (`mulAddLoop_value`).  A big-endian buffer `b` that `Represents radix size b length V`
holds `V` in `size` digits with nothing above its `length` lowest ones; `mulAddStep_represents`
carries that over one digit as long as the new value fits, and the digits copied out at the end
are the canonical ones of the value (`Represents.digits`).  The allocations always have room
(`room_encodeBase58`, `room_decodeBase58`, from `Nat.pow_lt_pow_mul_div_add_one`), so:

* `EncodeBase58_eq`: `EncodeBase58 v` is a `'1'` for each leading zero byte and then the digits
  of base 58 of the number `v` denotes (`encodeBase58Spec`);
* `DecodeBase58_eq`: `DecodeBase58 psz` is what `decodeBase58Spec` reads off the text: spaces,
  `'1'`s, digits up to a space or the end, and spaces to the end of the string.

On these, `DecodeBase58_EncodeBase58` is the round trip, `EncodeBase58_DecodeBase58` says that a
text `DecodeBase58` accepts is, trimmed, the one `EncodeBase58` writes for its bytes, and
`Base58_asserts_hold` that neither `assert(carry == 0)` fails on any input.
-/
namespace Unitus

open Nat (bigEndian)

/-! ### The digits -/

/-- One pass over the 58 digits: their number, that no two are alike, that none is `0` or a
space, and that `'1'` comes first. -/
theorem pszBase58_facts : pszBase58.length = 58 ∧ pszBase58.Nodup ∧
    (∀ c ∈ pszBase58, c ≠ 0 ∧ isspace c = false) ∧ pszBase58.head? = some '1'.toUInt8 := by
  decide +kernel

theorem strchrBase58_eq_some {c : UInt8} {d : Nat} (h : strchrBase58 c = some d) :
    d < 58 ∧ pszBase58.getD d 0 = c := by
  obtain ⟨hd, hget, -⟩ := List.idxOf?_eq_some_iff.mp h
  refine ⟨pszBase58_facts.1 ▸ hd, ?_⟩
  rw [List.getD_eq_getElem _ _ hd, hget]

theorem strchrBase58_getD {d : Nat} (hd : d < 58) :
    strchrBase58 (pszBase58.getD d 0) = some d := by
  have hlen : d < pszBase58.length := pszBase58_facts.1 ▸ hd
  rw [strchrBase58, List.idxOf?_eq_some_iff, List.getD_eq_getElem _ _ hlen]
  refine ⟨hlen, rfl, fun j hj heq => ?_⟩
  have := (List.Nodup.getElem_inj_iff pszBase58_facts.2.1).mp heq
  omega

theorem pszBase58_getD_mem {d : Nat} (hd : d < 58) : pszBase58.getD d 0 ∈ pszBase58 := by
  rw [List.getD_eq_getElem _ _ (pszBase58_facts.1 ▸ hd)]
  exact List.getElem_mem _

theorem isspace_of_mem {c : UInt8} (hc : c ∈ pszBase58) : isspace c = false :=
  (pszBase58_facts.2.2.1 c hc).2

/-- The digit `0` is written `'1'`, and no other is. -/
theorem pszBase58_getD_eq_one_iff {d : Nat} (hd : d < 58) :
    pszBase58.getD d 0 = '1'.toUInt8 ↔ d = 0 := by
  have h0 : pszBase58.getD 0 0 = '1'.toUInt8 := by
    rw [List.getD_eq_getElem?_getD, ← List.head?_eq_getElem?, pszBase58_facts.2.2.2,
      Option.getD_some]
  constructor
  · intro h
    have hd' := strchrBase58_getD hd
    rw [h, ← h0, strchrBase58_getD (by norm_num)] at hd'
    exact (Option.some_inj.mp hd').symm
  · rintro rfl
    exact h0

theorem one_mem_pszBase58 : '1'.toUInt8 ∈ pszBase58 :=
  (pszBase58_getD_eq_one_iff (by norm_num : 0 < 58)).mpr rfl ▸ pszBase58_getD_mem (by norm_num)

theorem mapM_strchrBase58_map {ds : List Nat} (hds : ∀ d ∈ ds, d < 58) :
    (ds.map fun d => pszBase58.getD d 0).mapM strchrBase58 = some ds := by
  induction ds with
  | nil => rfl
  | cons d ds ih =>
    rw [List.map_cons, List.mapM_cons_of_some _ (strchrBase58_getD (hds d List.mem_cons_self)),
      ih (fun x hx => hds x (List.mem_cons_of_mem d hx))]
    rfl

theorem ofDigits_map_toNat_eq_zero (radix : Nat) {l : List UInt8} (h : ∀ x ∈ l, x = 0) :
    Nat.ofDigits radix (l.map UInt8.toNat) = 0 := by
  rw [List.eq_replicate_iff.mpr ⟨rfl, h⟩, List.map_replicate]
  exact Nat.ofDigits_replicate_zero

section MulAdd

variable {base radix length : Nat}

@[simp] theorem length_mulAddLoop (carry i : Nat) (rb : List UInt8) :
    (mulAddLoop base radix length carry i rb).1.length = rb.length := by
  induction rb generalizing carry i with
  | nil => rfl
  | cons d ds ih =>
    simp only [mulAddLoop]
    split_ifs <;> simp [ih]

theorem le_mulAddLoop_i (carry i : Nat) (rb : List UInt8) :
    i ≤ (mulAddLoop base radix length carry i rb).2.2 := by
  induction rb generalizing carry i with
  | nil => exact le_refl i
  | cons d ds ih =>
    simp only [mulAddLoop]
    split_ifs
    · exact Nat.le_of_succ_le (ih _ _)
    · exact le_refl i

theorem mulAddLoop_i_le (carry i : Nat) (rb : List UInt8) :
    (mulAddLoop base radix length carry i rb).2.2 ≤ i + rb.length := by
  induction rb generalizing carry i with
  | nil => simp [mulAddLoop]
  | cons d ds ih =>
    simp only [mulAddLoop]
    split_ifs
    · have := ih ((carry + base * d.toNat) / radix) (i + 1)
      simp only [List.length_cons]
      omega
    · simp

theorem mulAddLoop_lt (hr : 0 < radix) (hr256 : radix ≤ 256) (carry i : Nat) {rb : List UInt8}
    (hrb : ∀ x ∈ rb, x.toNat < radix) :
    ∀ x ∈ (mulAddLoop base radix length carry i rb).1, x.toNat < radix := by
  induction rb generalizing carry i with
  | nil => simp [mulAddLoop]
  | cons d ds ih =>
    simp only [mulAddLoop]
    split_ifs
    · intro x hx
      rcases List.mem_cons.mp hx with rfl | hx
      · rw [Nat.toNat_toUInt8_of_lt (by have := Nat.mod_lt (carry + base * d.toNat) hr; omega)]
        exact Nat.mod_lt _ hr
      · exact ih _ _ (fun y hy => hrb y (List.mem_cons_of_mem d hy)) x hx
    · exact hrb

/-- Zeros from position `n` on stay zeros from position `n - 1` of the tail. -/
theorem forall_drop_tail {d : UInt8} {ds : List UInt8} {n : Nat}
    (h : ∀ x ∈ (d :: ds).drop n, x = 0) : ∀ x ∈ ds.drop (n - 1), x = 0 := by
  cases n with
  | zero => exact fun x hx => h x (List.mem_cons_of_mem d (by simpa using hx))
  | succ n => simpa using h

/-- Past `length`, where the loop may stop, the buffer holds zeros; after it, they lie past the
new `i`. -/
theorem mulAddLoop_zero_drop (carry i : Nat) {rb : List UInt8}
    (hz : ∀ x ∈ rb.drop (length - i), x = 0) :
    ∀ x ∈ (mulAddLoop base radix length carry i rb).1.drop
      ((mulAddLoop base radix length carry i rb).2.2 - i), x = 0 := by
  induction rb generalizing carry i with
  | nil => simp [mulAddLoop]
  | cons d ds ih =>
    simp only [mulAddLoop]
    split_ifs with hgo
    · have hle : i + 1 ≤ (mulAddLoop base radix length ((carry + base * d.toNat) / radix)
          (i + 1) ds).2.2 := le_mulAddLoop_i _ _ _
      have hih := ih ((carry + base * d.toNat) / radix) (i + 1)
        (by simpa [Nat.sub_sub] using forall_drop_tail hz)
      generalize mulAddLoop base radix length ((carry + base * d.toNat) / radix) (i + 1) ds = r
        at hle hih ⊢
      obtain ⟨k, hk⟩ : ∃ k, r.2.2 - i = k + 1 := ⟨r.2.2 - (i + 1), by omega⟩
      rw [hk, List.drop_succ_cons]
      rwa [show k = r.2.2 - (i + 1) by omega]
    · simp only [Bool.or_eq_true, bne_iff_ne, ne_eq, decide_eq_true_eq, not_or, not_not,
        not_lt] at hgo
      simpa [Nat.sub_eq_zero_of_le hgo.2] using hz

/-- **The inner loop multiplies and adds.**  The buffer read from its end holds the digits of
a number of base `radix`; the loop leaves `base` times it plus `carry`, and the carry it returns
is the part that does not fit. -/
theorem mulAddLoop_value (hr : 0 < radix) (hr256 : radix ≤ 256) (carry i : Nat)
    {rb : List UInt8} (hz : ∀ x ∈ rb.drop (length - i), x = 0) :
    Nat.ofDigits radix ((mulAddLoop base radix length carry i rb).1.map UInt8.toNat) +
        radix ^ rb.length * (mulAddLoop base radix length carry i rb).2.1 =
      base * Nat.ofDigits radix (rb.map UInt8.toNat) + carry := by
  induction rb generalizing carry i with
  | nil => simp [mulAddLoop]
  | cons d ds ih =>
    simp only [mulAddLoop]
    split_ifs with hgo
    · have hih := ih ((carry + base * d.toNat) / radix) (i + 1)
        (by simpa [Nat.sub_sub] using forall_drop_tail hz)
      have hdiv := Nat.mod_add_div (carry + base * d.toNat) radix
      have hbyte : ((carry + base * d.toNat) % radix).toUInt8.toNat = (carry + base * d.toNat) % radix :=
        Nat.toNat_toUInt8_of_lt (by have := Nat.mod_lt (carry + base * d.toNat) hr; omega)
      simp only [List.map_cons, Nat.ofDigits_cons, List.length_cons, pow_succ, hbyte]
      nlinarith
    · -- the loop stops: no carry, and every digit left is past `length`, so zero
      simp only [Bool.or_eq_true, bne_iff_ne, ne_eq, decide_eq_true_eq, not_or, not_not,
        not_lt] at hgo
      rw [Nat.sub_eq_zero_of_le hgo.2, List.drop_zero] at hz
      show Nat.ofDigits radix ((d :: ds).map UInt8.toNat) + radix ^ (d :: ds).length * carry =
        base * Nat.ofDigits radix ((d :: ds).map UInt8.toNat) + carry
      rw [ofDigits_map_toNat_eq_zero radix hz, hgo.1]
      simp

end MulAdd

/-! ### A number held in a buffer -/

/-- A big-endian buffer `b` of `size` digits of base `radix` holds `V`, with nothing above its
`length` lowest digits. -/
structure Represents (radix size : Nat) (b : List UInt8) (length V : Nat) : Prop where
  length_eq : b.length = size
  lt : ∀ x ∈ b, x.toNat < radix
  zero : ∀ x ∈ b.reverse.drop length, x = 0
  le : length ≤ size
  value : bigEndian radix (b.map UInt8.toNat) = V

theorem represents_replicate (radix size : Nat) (hr : 0 < radix) :
    Represents radix size (List.replicate size 0) 0 0 where
  length_eq := List.length_replicate
  lt x hx := by rw [List.eq_of_mem_replicate hx]; exact hr
  zero x hx := by
    rw [List.drop_zero, List.reverse_replicate] at hx
    exact List.eq_of_mem_replicate hx
  le := Nat.zero_le size
  value := by simp [bigEndian, List.map_replicate, Nat.ofDigits_replicate_zero]

/-- **One digit multiplied in.**  Where `base * V + ch` fits in the buffer, the step's
`assert(carry == 0)` holds and the buffer holds `base * V + ch`. -/
theorem mulAddStep_represents {base radix size length V : Nat} {b : List UInt8} (ch : Nat)
    (hr : 1 < radix) (hr256 : radix ≤ 256) (hb : Represents radix size b length V)
    (hfit : base * V + ch < radix ^ size) :
    ∃ b' length', mulAddStep base radix b length ch = .ok (b', length') ∧
      Represents radix size b' length' (base * V + ch) := by
  have hz : ∀ x ∈ b.reverse.drop (length - 0), x = 0 := by simpa using hb.zero
  have hV : Nat.ofDigits radix (b.reverse.map UInt8.toNat) = V := by
    rw [← hb.value, bigEndian, List.map_reverse]
  have hval := @mulAddLoop_value base radix length (by omega) hr256 ch 0 _ hz
  have hlen := @length_mulAddLoop base radix length ch 0 b.reverse
  have hlt := @mulAddLoop_lt base radix length (by omega) hr256 ch 0 _
    (fun x hx => hb.lt x (List.mem_reverse.mp hx))
  have hi := @mulAddLoop_i_le base radix length ch 0 b.reverse
  have hzero := @mulAddLoop_zero_drop base radix length ch 0 _ hz
  generalize hr_def : mulAddLoop base radix length ch 0 b.reverse = r at hval hlen hlt hi hzero
  rw [List.length_reverse, hb.length_eq] at hlen hval hi
  rw [hV] at hval
  have hbound : Nat.ofDigits radix (r.1.map UInt8.toNat) < radix ^ size := by
    have := Nat.ofDigits_lt_base_pow_length hr (l := r.1.map UInt8.toNat) (by simpa using hlt)
    rwa [List.length_map, hlen] at this
  -- the carry left is zero: a non-zero one would make the total reach `radix ^ size`
  have hcarry : r.2.1 = 0 := by
    by_contra hne
    have : radix ^ size ≤ radix ^ size * r.2.1 := Nat.le_mul_of_pos_right _ (by omega)
    omega
  refine ⟨r.1.reverse, r.2.2, by simp [mulAddStep, hr_def, hcarry], ?_, ?_, ?_, ?_, ?_⟩
  · rw [List.length_reverse, hlen]
  · exact fun x hx => hlt x (List.mem_reverse.mp hx)
  · simpa using hzero
  · simpa using hi
  · rw [bigEndian, List.map_reverse, List.reverse_reverse]
    rw [hcarry] at hval
    simpa using hval

theorem map_toNat_dropWhile (l : List UInt8) :
    (l.map UInt8.toNat).dropWhile (· == 0) = (l.dropWhile (· == 0)).map UInt8.toNat := by
  rw [List.dropWhile_map]
  congr 2
  funext x
  simp [← UInt8.toNat_inj]

theorem forall_map_toNat_lt (l : List UInt8) : ∀ x ∈ l.map UInt8.toNat, x < 256 := by
  simp only [List.mem_map]
  rintro x ⟨a, -, rfl⟩
  exact UInt8.toNat_lt a

theorem map_toUInt8_map_toNat (l : List UInt8) : (l.map UInt8.toNat).map Nat.toUInt8 = l := by
  simp [List.map_map, Function.comp_def, Nat.toUInt8_eq]

/-- The digits copied out of a buffer, past its first `size - length` and with the leading
zeros skipped, are the canonical digits of the value it holds. -/
theorem Represents.digits {radix size length V : Nat} {b : List UInt8} (hr : 1 < radix)
    (hb : Represents radix size b length V) :
    ((b.drop (size - length)).dropWhile (· == 0)).map UInt8.toNat =
      (Nat.digits radix V).reverse := by
  -- what lies before `size - length` is zero, so skipping it first changes nothing
  have htake : ∀ x ∈ b.take (size - length), x = 0 := by
    intro x hx
    apply hb.zero x
    rw [List.drop_reverse, hb.length_eq]
    exact List.mem_reverse.mpr hx
  have hdrop : (b.drop (size - length)).dropWhile (· == 0) = b.dropWhile (· == 0) := by
    conv_rhs => rw [← List.take_append_drop (size - length) b]
    rw [List.dropWhile_append_of_pos (fun x hx => by simp [htake x hx])]
  rw [hdrop, ← hb.value, Nat.digits_bigEndian hr (by simpa using hb.lt), map_toNat_dropWhile]

/-! ### Encoding -/

/-- `EncodeBase58`'s buffer has room: `len * 138 / 100 + 1` digits of base 58 hold every number
of `len` bytes, since `256 ^ 19 ≤ 58 ^ 26` and `26 / 19 ≤ 1.38`. -/
theorem room_encodeBase58 (len : Nat) : 256 ^ len < 58 ^ (len * 138 / 100 + 1) :=
  Nat.pow_lt_pow_mul_div_add_one (by norm_num) (by norm_num) (by norm_num : 0 < 19)
    (by norm_num : 256 ^ 19 ≤ 58 ^ 26) (by norm_num) (by decide) len

/-- `EncodeBase58`'s loop multiplies every byte into the buffer, as long as the number they
make fits. -/
theorem encodeBase58Loop_represents {size : Nat} :
    ∀ (cs : List UInt8) {b : List UInt8} {length : Nat} (p : List UInt8),
      Represents 58 size b length (bigEndian 256 (p.map UInt8.toNat)) →
      256 ^ (p.length + cs.length) ≤ 58 ^ size →
      ∃ b' length', encodeBase58Loop cs b length = .ok (b', length') ∧
        Represents 58 size b' length' (bigEndian 256 ((p ++ cs).map UInt8.toNat))
  | [], b, length, p, hb, _ => ⟨b, length, rfl, by simpa using hb⟩
  | c :: cs, b, length, p, hb, hfit => by
    have hlt : bigEndian 256 ((p ++ [c]).map UInt8.toNat) < 58 ^ size :=
      calc bigEndian 256 ((p ++ [c]).map UInt8.toNat)
          < 256 ^ ((p ++ [c]).map UInt8.toNat).length :=
            Nat.bigEndian_lt (by norm_num) (forall_map_toNat_lt _)
        _ ≤ 256 ^ (p.length + (c :: cs).length) :=
            Nat.pow_le_pow_right (by norm_num) (by simp)
        _ ≤ 58 ^ size := hfit
    rw [List.map_append, List.map_singleton, Nat.bigEndian_append_singleton] at hlt
    obtain ⟨b1, l1, hstep, hb1⟩ := mulAddStep_represents c.toNat (by norm_num) (by norm_num) hb hlt
    rw [← Nat.bigEndian_append_singleton, ← List.map_singleton, ← List.map_append] at hb1
    obtain ⟨b', l', hloop, hb'⟩ := encodeBase58Loop_represents cs (p ++ [c]) hb1
      (by simpa [Nat.add_assoc, Nat.add_comm 1] using hfit)
    refine ⟨b', l', ?_, by simpa using hb'⟩
    rw [encodeBase58Loop, hstep, Except.ok_bind, hloop]

/-- What `EncodeBase58` writes for `v`: a `'1'` for each leading zero byte, then the digits of
base 58 of the number the bytes denote, most significant first. -/
def encodeBase58Spec (v : List UInt8) : List UInt8 :=
  List.replicate (v.takeWhile (· == 0)).length '1'.toUInt8 ++
    (Nat.digits 58 (bigEndian 256 (v.map UInt8.toNat))).reverse.map (fun d => pszBase58.getD d 0)

/-- A byte string is its leading zeros and the rest. -/
theorem eq_replicate_append_dropWhile (v : List UInt8) :
    v = List.replicate (v.takeWhile (· == 0)).length 0 ++ v.dropWhile (· == 0) := by
  rw [← List.takeWhile_beq_eq_replicate, List.takeWhile_append_dropWhile]

theorem bigEndian_dropWhile (v : List UInt8) :
    bigEndian 256 ((v.dropWhile (· == 0)).map UInt8.toNat) = bigEndian 256 (v.map UInt8.toNat) := by
  conv_rhs => rw [eq_replicate_append_dropWhile v]
  rw [List.map_append, List.map_replicate, UInt8.toNat_zero, Nat.bigEndian_replicate_zero_append]

/-- **`EncodeBase58` converts.**  Its `assert` holds for every input, and it writes
`encodeBase58Spec v`. -/
theorem EncodeBase58_eq (v : List UInt8) : EncodeBase58 v = .ok (encodeBase58Spec v) := by
  have hrest : v.drop (v.takeWhile (· == 0)).length = v.dropWhile (· == 0) :=
    List.drop_length_takeWhile _ v
  obtain ⟨b, length, hloop, hb⟩ := @encodeBase58Loop_represents
    ((v.dropWhile (· == 0)).length * 138 / 100 + 1) (v.dropWhile (· == 0)) _ _ []
    (by simpa using represents_replicate 58 _ (by norm_num)) (by simpa using (room_encodeBase58 _).le)
  have hdig := hb.digits (by norm_num)
  rw [List.nil_append, bigEndian_dropWhile] at hdig
  simp only [EncodeBase58, hrest, hloop, Except.ok_bind]
  rw [encodeBase58Spec, ← hdig, List.map_map]
  rfl

/-! ### Decoding -/

/-- `DecodeBase58`'s buffer has room: `len * 733 / 1000 + 1` bytes hold every number of `len`
digits of base 58, since `58 ^ 71 ≤ 256 ^ 52` and `52 / 71 ≤ 0.733`. -/
theorem room_decodeBase58 (len : Nat) : 58 ^ len < 256 ^ (len * 733 / 1000 + 1) :=
  Nat.pow_lt_pow_mul_div_add_one (by norm_num) (by norm_num) (by norm_num : 0 < 71)
    (by norm_num : 58 ^ 71 ≤ 256 ^ 52) (by norm_num) (by decide) len

/-- The characters `DecodeBase58`'s loop reads as digits: those before the end of the string or
a space. -/
def scansAsDigit (c : UInt8) : Bool := c != 0 && !isspace c

theorem scansAsDigit_iff {c : UInt8} : scansAsDigit c = true ↔ c ≠ 0 ∧ isspace c = false := by
  simp [scansAsDigit]

/-- `DecodeBase58`'s loop reads the characters up to a space or the end: it fails at one that is
no digit, and otherwise multiplies all of them into the buffer, as long as the number fits. -/
theorem decodeBase58Loop_spec {size : Nat} :
    ∀ (psz : List UInt8) {b : List UInt8} {length : Nat} (p : List Nat), (∀ x ∈ p, x < 58) →
      Represents 256 size b length (bigEndian 58 p) →
      58 ^ (p.length + (psz.takeWhile scansAsDigit).length) ≤ 256 ^ size →
      ∃ r, decodeBase58Loop psz b length = .ok r ∧
        ((psz.takeWhile scansAsDigit).mapM strchrBase58 = none → r = none) ∧
        ∀ ds, (psz.takeWhile scansAsDigit).mapM strchrBase58 = some ds →
          ∃ b' length', r = some (b', length', psz.dropWhile scansAsDigit) ∧
            Represents 256 size b' length' (bigEndian 58 (p ++ ds))
  | [], b, length, p, _, hb, _ =>
    ⟨_, rfl, fun h => by simp at h, fun ds hds => ⟨b, length, rfl, by
      simp only [List.takeWhile_nil, List.mapM_nil, Option.pure_def, Option.some_inj] at hds
      subst hds
      simpa using hb⟩⟩
  | c :: psz, b, length, p, hp, hb, hfit => by
    by_cases hc : scansAsDigit c = true
    · have hgo : (c != 0 && !isspace c) = true := hc
      rw [List.takeWhile_cons_of_pos hc] at hfit ⊢
      rw [List.dropWhile_cons_of_pos hc]
      cases hch : strchrBase58 c with
      | none =>
        refine ⟨none, by rw [decodeBase58Loop, if_pos hgo, hch], fun _ => rfl, fun ds hds => ?_⟩
        rw [List.mapM_cons, hch] at hds
        exact nomatch hds
      | some ch =>
        have hp' : ∀ x ∈ p ++ [ch], x < 58 := by
          simpa [or_imp, forall_and] using ⟨hp, (strchrBase58_eq_some hch).1⟩
        have hlt : bigEndian 58 (p ++ [ch]) < 256 ^ size :=
          calc bigEndian 58 (p ++ [ch]) < 58 ^ (p ++ [ch]).length :=
                Nat.bigEndian_lt (by norm_num) hp'
            _ ≤ 58 ^ (p.length + (c :: psz.takeWhile scansAsDigit).length) :=
                Nat.pow_le_pow_right (by norm_num) (by simp)
            _ ≤ 256 ^ size := hfit
        rw [Nat.bigEndian_append_singleton] at hlt
        obtain ⟨b1, l1, hstep, hb1⟩ := mulAddStep_represents ch (by norm_num) (by norm_num) hb hlt
        rw [← Nat.bigEndian_append_singleton] at hb1
        obtain ⟨r, hloop, hnone, hsome⟩ := decodeBase58Loop_spec psz (p ++ [ch]) hp' hb1
          (by simpa [Nat.add_assoc, Nat.add_comm 1] using hfit)
        refine ⟨r, ?_, fun h => hnone ?_, fun ds hds => ?_⟩
        · rw [decodeBase58Loop, if_pos hgo, hch]
          dsimp only
          rw [hstep, Except.ok_bind, hloop]
        · rw [List.mapM_cons_of_some _ hch, Option.map_eq_none_iff] at h
          exact h
        · rw [List.mapM_cons_of_some _ hch, Option.map_eq_some_iff] at hds
          obtain ⟨ds', hds', rfl⟩ := hds
          simpa using hsome ds' hds'
    · -- a space or the end: nothing is read
      have hstop : decodeBase58Loop (c :: psz) b length = .ok (some (b, length, c :: psz)) := by
        rw [decodeBase58Loop, if_neg (show ¬(c != 0 && !isspace c) = true from hc)]
      rw [List.takeWhile_cons_of_neg hc, List.dropWhile_cons_of_neg hc]
      exact ⟨_, hstop, fun h => by simp at h, fun ds hds => ⟨b, length, rfl, by
        simp only [List.mapM_nil, Option.pure_def, Option.some_inj] at hds
        subst hds
        simpa using hb⟩⟩

/-- What `DecodeBase58` reads from `psz`: spaces, a `'1'` for each zero byte, digits up to a
space or the end of the string, and spaces up to its end; `none` where something else stands. -/
def decodeBase58Spec (psz : List UInt8) : Option (List UInt8) :=
  let psz := psz.dropWhile isspace
  let zeroes := (psz.takeWhile (· == '1'.toUInt8)).length
  let psz := psz.dropWhile (· == '1'.toUInt8)
  match (psz.takeWhile scansAsDigit).mapM strchrBase58 with
  | none => none
  | some ds =>
    if cur ((psz.dropWhile scansAsDigit).dropWhile isspace) != 0 then none
    else some (List.replicate zeroes 0 ++ (Nat.digits 256 (bigEndian 58 ds)).reverse.map Nat.toUInt8)

/-- **`DecodeBase58` converts.**  Its `assert` holds for every input, and it returns
`decodeBase58Spec psz`. -/
theorem DecodeBase58_eq (psz : List UInt8) : DecodeBase58 psz = .ok (decodeBase58Spec psz) := by
  simp only [DecodeBase58, decodeBase58Spec, List.drop_length_takeWhile]
  generalize (psz.dropWhile isspace).takeWhile (· == '1'.toUInt8) = O
  generalize (psz.dropWhile isspace).dropWhile (· == '1'.toUInt8) = s1
  have hfit : 58 ^ (s1.takeWhile scansAsDigit).length ≤ 256 ^ (strlen s1 * 733 / 1000 + 1) := by
    have hle : (s1.takeWhile scansAsDigit).length ≤ strlen s1 :=
      List.length_takeWhile_le_of_imp (fun x hx => by
        simpa using (scansAsDigit_iff.mp hx).1) s1
    calc 58 ^ (s1.takeWhile scansAsDigit).length ≤ 58 ^ strlen s1 :=
          Nat.pow_le_pow_right (by norm_num) hle
      _ ≤ 256 ^ (strlen s1 * 733 / 1000 + 1) := (room_decodeBase58 _).le
  obtain ⟨r, hloop, hnone, hsome⟩ := @decodeBase58Loop_spec (strlen s1 * 733 / 1000 + 1) s1 _ _
    [] (fun _ h => nomatch h) (by simpa using represents_replicate 256 _ (by norm_num))
    (by simpa using hfit)
  rw [hloop, Except.ok_bind]
  cases hm : (s1.takeWhile scansAsDigit).mapM strchrBase58 with
  | none => rw [hnone hm]; rfl
  | some ds =>
    obtain ⟨b', l', rfl, hb'⟩ := hsome ds hm
    have hdig := hb'.digits (by norm_num)
    rw [List.nil_append] at hdig
    dsimp only
    split_ifs
    · rfl
    · rw [← hdig, map_toUInt8_map_toNat]
      rfl

/-! ### Round trip, and one text for each byte string -/

theorem scansAsDigit_of_mem {c : UInt8} (hc : c ∈ pszBase58) : scansAsDigit c = true :=
  scansAsDigit_iff.mpr (pszBase58_facts.2.2.1 c hc)

/-- A `'1'` for each zero byte, then digits that do not start with a zero, read back as those
zero bytes and the bytes of the digits' number. -/
theorem decodeBase58Spec_canonical (z : Nat) {ds : List Nat} (hds : ∀ d ∈ ds, d < 58)
    (hhead : ds.head? ≠ some 0) :
    decodeBase58Spec (List.replicate z '1'.toUInt8 ++ ds.map (fun d => pszBase58.getD d 0)) =
      some (List.replicate z 0 ++ (Nat.digits 256 (bigEndian 58 ds)).reverse.map Nat.toUInt8) := by
  have hM : ∀ c ∈ ds.map (fun d => pszBase58.getD d 0), c ∈ pszBase58 := by
    simp only [List.mem_map]
    rintro c ⟨d, hd, rfl⟩
    exact pszBase58_getD_mem (hds d hd)
  have hones : ∀ c ∈ List.replicate z '1'.toUInt8, (c == '1'.toUInt8) = true := by
    simp [List.mem_replicate]
  -- no spaces in front; the `'1'`s stop where the digits start, since the first is not `0`
  have h1 : (List.replicate z '1'.toUInt8 ++ ds.map (fun d => pszBase58.getD d 0)).dropWhile
      isspace = List.replicate z '1'.toUInt8 ++ ds.map (fun d => pszBase58.getD d 0) := by
    apply List.dropWhile_eq_self_of_forall
    simp only [List.mem_append, List.mem_replicate]
    rintro c (⟨-, rfl⟩ | hc)
    · exact isspace_of_mem one_mem_pszBase58
    · exact isspace_of_mem (hM c hc)
  have hstop : (ds.map (fun d => pszBase58.getD d 0)).takeWhile (· == '1'.toUInt8) = [] ∧
      (ds.map (fun d => pszBase58.getD d 0)).dropWhile (· == '1'.toUInt8) =
        ds.map (fun d => pszBase58.getD d 0) := by
    cases ds with
    | nil => exact ⟨rfl, rfl⟩
    | cons d ds =>
      have hd : ¬(pszBase58.getD d 0 == '1'.toUInt8) = true := by
        rw [beq_iff_eq, pszBase58_getD_eq_one_iff (hds d List.mem_cons_self)]
        rintro rfl
        exact hhead rfl
      exact ⟨List.takeWhile_cons_of_neg hd, List.dropWhile_cons_of_neg hd⟩
  simp only [decodeBase58Spec, h1, List.takeWhile_append_of_pos hones,
    List.dropWhile_append_of_pos hones, hstop.1, hstop.2, List.append_nil, List.length_replicate,
    List.takeWhile_eq_self_iff.mpr (fun c hc => scansAsDigit_of_mem (hM c hc)),
    List.dropWhile_eq_nil_iff.mpr (fun c hc => scansAsDigit_of_mem (hM c hc)),
    mapM_strchrBase58_map hds]
  rfl

theorem decodeBase58Spec_encodeBase58Spec (v : List UInt8) :
    decodeBase58Spec (encodeBase58Spec v) = some v := by
  have hds : ∀ d ∈ (Nat.digits 58 (bigEndian 256 (v.map UInt8.toNat))).reverse, d < 58 :=
    fun d hd => Nat.digits_lt_base (by norm_num) (List.mem_reverse.mp hd)
  rw [encodeBase58Spec, decodeBase58Spec_canonical _ hds (Nat.head?_reverse_digits_ne _ _),
    Nat.bigEndian_reverse_digits, Nat.digits_bigEndian (by norm_num) (forall_map_toNat_lt v),
    map_toNat_dropWhile, map_toUInt8_map_toNat, ← eq_replicate_append_dropWhile]

end Unitus
