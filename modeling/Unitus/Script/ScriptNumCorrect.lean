import Unitus.Script.ScriptNum
import Unitus.Lib.Bytes
import Unitus.Lib.Except

/-!
# Script — `CScriptNum` reads back what it writes

`CScriptNum::serialize` writes the magnitude of a number little-endian in as few bytes as it
takes, and its sign in the top bit of the last byte, adding a byte for the sign when the top bit
of the magnitude is taken.  The constructor reads such a vector back, and with `fRequireMinimal`
throws on a vector that has a needless last byte.  Reading back with `nMaxNumSize = 8` is exact
on `int64_t` but for `INT64_MIN`, whose magnitude `serialize` cannot take, and the minimal vectors
of at most eight bytes are exactly what `serialize` writes (`ofVch_serialize`).

A vector is read as its magnitude bytes `init ++ [last &&& 0x7f]` and the sign bit of `last`;
`absBytes` writes the magnitude bytes back when they have no trailing zero
(`absBytes_leValue`).
-/

namespace Unitus

namespace CScriptNum

/-! ## Magnitudes -/

@[simp] theorem leValue_nil : leValue [] = 0 := rfl

@[simp] theorem leValue_cons (b : UInt8) (rest : List UInt8) :
    leValue (b :: rest) = b.toNat + 256 * leValue rest := rfl

theorem leValue_append_singleton (l : List UInt8) (x : UInt8) :
    leValue (l ++ [x]) = leValue l + 256 ^ l.length * x.toNat := by
  induction l with
  | nil => simp
  | cons b l ih =>
    rw [List.cons_append, leValue_cons, ih, leValue_cons, List.length_cons, pow_succ]
    ring

theorem leValue_lt (l : List UInt8) : leValue l < 256 ^ l.length := by
  induction l with
  | nil => simp
  | cons b l ih =>
    have hb := b.toNat_lt
    rw [leValue_cons, List.length_cons, pow_succ']
    omega

@[simp] theorem absBytes_zero (k : Nat) : absBytes k 0 = [] := by
  cases k <;> simp [absBytes]

theorem length_absBytes_le : ∀ (k m : Nat), (absBytes k m).length ≤ k
  | 0, _ => by simp [absBytes]
  | k + 1, m => by
    unfold absBytes
    split_ifs
    · simp
    · simpa using length_absBytes_le k (m / 256)

/-- The bytes `absBytes` writes read back as the magnitude, below `256 ^ k`. -/
theorem leValue_absBytes : ∀ (k m : Nat), m < 256 ^ k → leValue (absBytes k m) = m
  | 0, m, hm => by simp at hm; simp [hm]
  | k + 1, m, hm => by
    unfold absBytes
    split_ifs with h0
    · simp [h0]
    · have hk := leValue_absBytes k (m / 256) (by rw [pow_succ] at hm; omega)
      rw [leValue_cons, hk, UInt8.toNat_ofNat']
      omega

theorem getLast?_getD_cons (b : UInt8) (l : List UInt8) :
    (b :: l).getLast?.getD 0 = l.getLast?.getD b := by
  cases h : l.getLast? <;> simp [List.getLast?_cons, h]

theorem getLast?_getD_append_singleton (l : List UInt8) (x : UInt8) :
    (l ++ [x]).getLast?.getD 0 = x := by
  simp

/-- Bytes whose last byte is not zero have a value that is not zero. -/
theorem leValue_pos {l : List UInt8} (h : l.getLast?.getD 0 ≠ 0) : 0 < leValue l := by
  rcases List.eq_nil_or_concat' l with rfl | ⟨init, x, rfl⟩
  · simp at h
  · rw [getLast?_getD_append_singleton, ne_eq, ← UInt8.toNat_inj] at h
    rw [leValue_append_singleton]
    have : 0 < 256 ^ init.length := by positivity
    have : 0 < x.toNat := Nat.pos_of_ne_zero (by simpa using h)
    positivity

/-- The last byte `absBytes` writes for a magnitude that is not zero is not zero. -/
theorem getLast_absBytes_ne_zero : ∀ (k m : Nat), 0 < m → m < 256 ^ k →
    (absBytes k m).getLast?.getD 0 ≠ 0
  | 0, m, h0, hm => by simp at hm; omega
  | k + 1, m, h0, hm => by
    rw [absBytes, if_neg (by omega), getLast?_getD_cons]
    by_cases hsmall : m / 256 = 0
    · -- `m` is its own last byte
      rw [hsmall, absBytes_zero, List.getLast?_nil, Option.getD_none, ne_eq, ← UInt8.toNat_inj,
        UInt8.toNat_ofNat']
      simp
      omega
    · have ih := getLast_absBytes_ne_zero k (m / 256) (by omega) (by rw [pow_succ] at hm; omega)
      cases hl : (absBytes k (m / 256)).getLast? with
      | none => simp [hl] at ih
      | some y => simpa [hl] using ih

/-- Bytes with no trailing zero are what `absBytes` writes for their value. -/
theorem absBytes_leValue : ∀ (l : List UInt8) (k : Nat), l.length ≤ k →
    l.getLast?.getD 0 ≠ 0 → absBytes k (leValue l) = l
  | [], _, _, h => by simp at h
  | b :: rest, k + 1, hk, hlast => by
    have hb := b.toNat_lt
    rw [getLast?_getD_cons] at hlast
    have hpos : leValue (b :: rest) ≠ 0 := by
      cases hl : rest.getLast? with
      | none =>
        rw [List.getLast?_eq_none_iff.mp hl]
        rw [hl, Option.getD_none, ne_eq, ← UInt8.toNat_inj] at hlast
        simpa using hlast
      | some y =>
        have : 0 < leValue rest := leValue_pos (by rw [hl] at hlast ⊢; exact hlast)
        rw [leValue_cons]
        omega
    rw [absBytes, if_neg hpos, leValue_cons]
    have hlow : (b.toNat + 256 * leValue rest) % 256 = b.toNat := by omega
    have hhigh : (b.toNat + 256 * leValue rest) / 256 = leValue rest := by omega
    rw [hlow, hhigh, UInt8.ofNat_toNat]
    cases hl : rest.getLast? with
    | none => rw [List.getLast?_eq_none_iff.mp hl]; simp
    | some y =>
      rw [absBytes_leValue rest k (by simpa using hk) (by rw [hl] at hlast ⊢; exact hlast)]

/-! ## Sign and magnitude -/

/-- The magnitude a vector `init ++ [last]` carries: its bytes with the sign bit of `last`
cleared. -/
def magnitude (init : List UInt8) (last : UInt8) : Nat :=
  leValue init + 256 ^ init.length * (last.toNat % 128)

/-- `set_vch` of a vector that is not empty: its magnitude, negated when the sign bit is set. -/
theorem set_vch_append_singleton (init : List UInt8) (last : UInt8) :
    set_vch (init ++ [last]) =
      if last &&& 0x80 ≠ 0 then -(magnitude init last : Int) else (magnitude init last : Int) := by
  have hl := last.toNat_lt
  rw [set_vch, if_neg (by simp), List.getLast?_append, List.getLast?_singleton]
  simp only [Option.some_or, Option.getD_some, List.length_append, List.length_singleton,
    Nat.add_sub_cancel, leValue_append_singleton, magnitude]
  by_cases hs : last &&& 0x80 ≠ 0
  · have h128 := (UInt8.and_80_ne_zero_iff last).mp hs
    rw [if_pos hs, if_pos hs]
    congr 2
    have : last.toNat = last.toNat % 128 + 128 := by omega
    conv_lhs => rw [this]
    rw [Nat.mul_add]
    omega
  · have h128 : last.toNat < 128 := by
      have := (UInt8.and_80_ne_zero_iff last).not.mp hs
      omega
    rw [if_neg hs, if_neg hs, Nat.mod_eq_of_lt h128]

/-- The byte before the last of `init ++ [x]` is the last of `init`. -/
theorem getD_append_singleton_prev {init : List UInt8} (x : UInt8) (h : init ≠ []) :
    (init ++ [x]).getD (init.length + 1 - 2) 0 = init.getLast?.getD 0 := by
  rcases List.eq_nil_or_concat' init with rfl | ⟨init', y, rfl⟩
  · exact absurd rfl h
  · simp

/-- Reading a vector that is not empty, minimal encoding required: it fits, its last byte is not
a needless sign byte, and the value is `set_vch`'s. -/
theorem ofVch_append_singleton {init : List UInt8} {x : UInt8} {n : Nat} {v : Int} :
    ofVch (init ++ [x]) true n = .ok v ↔
      init.length + 1 ≤ n ∧ (x &&& 0x7f ≠ 0 ∨ (init ≠ [] ∧ init.getLast?.getD 0 &&& 0x80 ≠ 0)) ∧
        set_vch (init ++ [x]) = v := by
  unfold ofVch
  rw [List.length_append, List.length_singleton, getLast?_getD_append_singleton]
  by_cases hn : init.length + 1 > n
  · rw [if_pos hn]
    simp only [Except.throw_ne_ok, false_iff]
    omega
  rw [if_neg hn]
  by_cases hinit : init = []
  · subst hinit
    by_cases hx : x &&& 0x7f = 0
    · simp [hx]
    · simp [hx]
      omega
  · rw [getD_append_singleton_prev x hinit]
    by_cases hx : x &&& 0x7f = 0 <;> by_cases hy : init.getLast?.getD 0 &&& 0x80 = 0 <;>
      simp [hx, hy, hinit] <;> omega

/-! ## Writing and reading back -/

/-- The magnitude bytes of a number within `int64_t` that is not zero: at most eight, the last
not zero, reading back as the magnitude. -/
theorem absBytes_natAbs {v : Int} (hv : v ≠ 0) (hlo : -2 ^ 63 < v) (hhi : v < 2 ^ 63) :
    ∃ init x, absBytes 8 v.natAbs = init ++ [x] ∧ init.length + 1 ≤ 8 ∧ x ≠ 0 ∧
      leValue init + 256 ^ init.length * x.toNat = v.natAbs := by
  have hm : v.natAbs < 256 ^ 8 := by norm_num; omega
  have hlast := getLast_absBytes_ne_zero 8 v.natAbs (by omega) hm
  have hval := leValue_absBytes 8 v.natAbs hm
  have hlen := length_absBytes_le 8 v.natAbs
  rcases List.eq_nil_or_concat' (absBytes 8 v.natAbs) with h | ⟨init, x, h⟩
  · rw [h] at hlast
    simp at hlast
  · rw [h, getLast?_getD_append_singleton] at hlast
    rw [h, leValue_append_singleton] at hval
    rw [h] at hlen
    exact ⟨init, x, h, by simpa using hlen, hlast, hval⟩

/-- `serialize` of a number that is not zero, from its magnitude bytes `init ++ [x]`. -/
theorem serialize_of_absBytes {v : Int} (hv : v ≠ 0) {init : List UInt8} {x : UInt8}
    (hr : absBytes 8 v.natAbs = init ++ [x]) :
    serialize v = if x &&& 0x80 ≠ 0 then init ++ [x] ++ [if v < 0 then 0x80 else 0]
      else if v < 0 then init ++ [x ||| 0x80] else init ++ [x] := by
  simp only [serialize, if_neg hv, hr, getLast?_getD_append_singleton, List.dropLast_concat]

/-- A number within `int64_t`, but for `INT64_MIN`, reads back from what `serialize` writes. -/
theorem ofVch_serialize_of_lt {v : Int} (hlo : -2 ^ 63 < v) (hhi : v < 2 ^ 63) :
    ofVch (serialize v) true 8 = .ok v := by
  by_cases hv : v = 0
  · subst hv
    rfl
  obtain ⟨init, x, hr, hlen, hx0, hval⟩ := absBytes_natAbs hv hlo hhi
  have hxlt := x.toNat_lt
  have hvalZ : (leValue init : Int) + 256 ^ init.length * (x.toNat : Int) = (v.natAbs : Int) := by
    exact_mod_cast hval
  rw [serialize_of_absBytes hv hr]
  by_cases hx : x &&& 0x80 ≠ 0
  · -- the magnitude takes the top bit: a sign byte follows it
    have hx128 := (UInt8.and_80_ne_zero_iff x).mp hx
    have hshort : init.length + 1 < 8 := by
      by_contra hc
      have h7 : init.length = 7 := by omega
      rw [h7] at hval
      omega
    rw [if_pos hx, ofVch_append_singleton, set_vch_append_singleton]
    refine ⟨by simp; omega, .inr ⟨by simp, by simpa using hx⟩, ?_⟩
    by_cases hneg : v < 0
    · simp [hneg, magnitude, leValue_append_singleton]
      omega
    · simp [hneg, magnitude, leValue_append_singleton]
      omega
  · have hx128 : x.toNat < 128 := (UInt8.and_80_eq_zero_iff x).mp (not_not.mp hx)
    rw [if_neg hx]
    have hxpos := UInt8.toNat_pos hx0
    by_cases hneg : v < 0
    · -- the sign bit goes into the last byte
      have hor := UInt8.toNat_or_80 hx128
      have hsign : (x ||| 0x80) &&& 0x80 ≠ 0 := (UInt8.and_80_ne_zero_iff _).mpr (by omega)
      have hlow : (x ||| 0x80) &&& 0x7f ≠ 0 := (UInt8.and_7F_ne_zero_iff _).mpr (by omega)
      have hmag : magnitude init (x ||| 0x80) = v.natAbs := by
        rw [magnitude, hor, Nat.add_mod_right, Nat.mod_eq_of_lt hx128, hval]
      rw [if_pos hneg, ofVch_append_singleton, set_vch_append_singleton, if_pos hsign, hmag]
      exact ⟨hlen, .inl hlow, by omega⟩
    · have hlow : x &&& 0x7f ≠ 0 := (UInt8.and_7F_ne_zero_iff _).mpr (by omega)
      have hmag : magnitude init x = v.natAbs := by
        rw [magnitude, Nat.mod_eq_of_lt hx128, hval]
      rw [if_neg hneg, ofVch_append_singleton, set_vch_append_singleton, if_neg hx, hmag]
      exact ⟨hlen, .inl hlow, by omega⟩

/-! ## Minimal vectors are what `serialize` writes -/

/-- A minimal vector whose last byte carries magnitude bits: the magnitude bytes are the vector
with the sign bit of the last byte cleared, and `serialize` puts the sign back there. -/
theorem serialize_set_vch_of_low {init : List UInt8} {x : UInt8} (hlen : init.length + 1 ≤ 8)
    (hlow : x.toNat % 128 ≠ 0) : serialize (set_vch (init ++ [x])) = init ++ [x] := by
  have hxlt := x.toNat_lt
  set x' : UInt8 := UInt8.ofNat (x.toNat % 128) with hx'
  have hx'nat : x'.toNat = x.toNat % 128 := by
    rw [hx', UInt8.toNat_ofNat']
    omega
  have hx'0 : x' ≠ 0 := fun h => hlow (by rw [← hx'nat, h]; rfl)
  have hbytes : absBytes 8 (magnitude init x) = init ++ [x'] := by
    have h := absBytes_leValue (init ++ [x']) 8 (by simpa using hlen)
      (by rwa [getLast?_getD_append_singleton])
    rwa [leValue_append_singleton, hx'nat] at h
  have hpos : 0 < magnitude init x := by
    have : 0 < 256 ^ init.length * (x.toNat % 128) := by positivity
    unfold magnitude
    omega
  -- the magnitude bytes end below `0x80`: `serialize` adds no sign byte
  have hx'top : ¬(x' &&& 0x80 ≠ 0) := by
    rw [not_not, UInt8.and_80_eq_zero_iff, hx'nat]
    omega
  rw [set_vch_append_singleton]
  by_cases hs : x &&& 0x80 ≠ 0
  · have h128 := (UInt8.and_80_ne_zero_iff x).mp hs
    rw [if_pos hs, serialize_of_absBytes (by omega) (by simpa using hbytes), if_neg hx'top,
      if_pos (by omega)]
    have hor : x' ||| 0x80 = x := by
      rw [← UInt8.toNat_inj, UInt8.toNat_or_80 (by omega), hx'nat]
      omega
    rw [hor]
  · have h128 : x.toNat < 128 := (UInt8.and_80_eq_zero_iff x).mp (not_not.mp hs)
    rw [if_neg hs, serialize_of_absBytes (by omega) (by simpa using hbytes), if_neg hx'top,
      if_neg (by omega)]
    have hx : x' = x := by
      rw [← UInt8.toNat_inj, hx'nat]
      omega
    rw [hx]

/-- A minimal vector whose last byte is a sign byte: the byte before it has its top bit set, so
the magnitude bytes are the vector without its last byte and `serialize` adds the sign byte. -/
theorem serialize_set_vch_of_sign_byte {init : List UInt8} {x : UInt8}
    (hlen : init.length + 1 ≤ 8) (hlow : x.toNat % 128 = 0) (hinit : init ≠ [])
    (htop : init.getLast?.getD 0 &&& 0x80 ≠ 0) :
    serialize (set_vch (init ++ [x])) = init ++ [x] := by
  rcases List.eq_nil_or_concat' init with rfl | ⟨init', y, rfl⟩
  · exact absurd rfl hinit
  have hxlt := x.toNat_lt
  rw [getLast?_getD_append_singleton] at htop
  have hy0 : y ≠ 0 := by
    rintro rfl
    exact htop rfl
  have hbytes : absBytes 8 (leValue (init' ++ [y])) = init' ++ [y] :=
    absBytes_leValue _ 8 (by simp at hlen ⊢; omega) (by rwa [getLast?_getD_append_singleton])
  have hpos : 0 < leValue (init' ++ [y]) :=
    leValue_pos (by rwa [getLast?_getD_append_singleton])
  have hmag : magnitude (init' ++ [y]) x = leValue (init' ++ [y]) := by
    rw [magnitude, hlow, Nat.mul_zero, Nat.add_zero]
  rw [set_vch_append_singleton, hmag]
  -- the last byte is `0x80` for a negative number and `0x00` for a positive one
  by_cases hs : x &&& 0x80 ≠ 0
  · have h128 := (UInt8.and_80_ne_zero_iff x).mp hs
    rw [if_pos hs, serialize_of_absBytes (by omega) (by simpa using hbytes), if_pos htop,
      if_pos (by omega)]
    have hx : x = 0x80 := UInt8.toNat_inj.mp (by simp; omega)
    rw [hx]
  · have h128 : x.toNat < 128 := (UInt8.and_80_eq_zero_iff x).mp (not_not.mp hs)
    rw [if_neg hs, serialize_of_absBytes (by omega) (by simpa using hbytes), if_pos htop,
      if_neg (by omega)]
    have hx : x = 0 := UInt8.toNat_inj.mp (by simp; omega)
    rw [hx]

/-- **Minimal encodings.** `serialize` writes every `int64_t` but `INT64_MIN` so that it reads
back, minimal encoding required, in eight bytes; and a vector that reads back that way is at
most eight bytes and is what `serialize` writes for its value. -/
theorem ofVch_serialize :
    (∀ v : Int, -2 ^ 63 < v → v < 2 ^ 63 → ofVch (serialize v) true 8 = .ok v) ∧
    (∀ (vch : List UInt8) (v : Int), ofVch vch true 8 = .ok v →
      vch.length ≤ 8 ∧ serialize v = vch) := by
  refine ⟨fun v hlo hhi => ofVch_serialize_of_lt hlo hhi, fun vch v h => ?_⟩
  rcases List.eq_nil_or_concat' vch with rfl | ⟨init, x, rfl⟩
  · -- the empty vector is zero
    have hv : v = 0 := by
      simp [ofVch, set_vch] at h
      exact h.symm
    subst hv
    exact ⟨by simp, rfl⟩
  obtain ⟨hlen, hmin, rfl⟩ := ofVch_append_singleton.mp h
  refine ⟨by simpa using hlen, ?_⟩
  by_cases hlow : x.toNat % 128 = 0
  · have hsign := hmin.resolve_left (by rw [UInt8.and_7F_ne_zero_iff]; omega)
    exact serialize_set_vch_of_sign_byte hlen hlow hsign.1 hsign.2
  · exact serialize_set_vch_of_low hlen hlow

theorem ofVch_serialize_neg_128 :
    ofVch (serialize (-128)) true 8 = .ok (-128) ∧
      (([0x80, 0x80] : List UInt8).length ≤ 8 ∧ serialize (-128) = [0x80, 0x80]) :=
  ⟨ofVch_serialize.1 (-128) (by norm_num) (by norm_num),
    ofVch_serialize.2 [0x80, 0x80] (-128) (by decide)⟩

end CScriptNum

end Unitus
