import Unitus.Arith.BaseUint

/-!
# Arith — `base_uint` computes modulo `2 ^ BITS`

Each limb loop of `arith_uint256.cpp` is read as arithmetic on the value of its limbs: a loop
that threads a carry writes `n % 2^32` and carries `n / 2^32` (`carry_mod`), so addition, the
increment, multiplication by a word and each row of the full product are the sums they stand for,
reduced modulo `2 ^ BITS`.  The shifts move each limb's bits across the limb boundary
(`shl_limb`, `shr_limb`), `CompareTo` compares the values from the top limb down, and `bits()` is
the bit length `Nat.size`.

Long division keeps `quotient + remaining / D` fixed, with `remaining` below twice the aligned
divisor, while the divisor walks down one bit a pass (`divStep`, `divLoop_spec`), so `operator/=`
is the quotient, and throws on a zero divisor (`div_eq`).
-/

namespace Unitus

/-! ### Limbs -/

theorem pow_limbs_succ (k : Nat) : 2 ^ (32 * (k + 1)) = 2 ^ 32 * 2 ^ (32 * k) := by
  rw [Nat.mul_succ, Nat.pow_add, Nat.mul_comm]

/-- A low part below `k` and a high part `q` above it, reduced below `k * M`: the low part
stays, and the high part is reduced below `M`. -/
theorem add_mul_mod_mul {n k : Nat} (hn : n < k) (q M : Nat) :
    (n + k * q) % (k * M) = n + k * (q % M) := by
  rw [Nat.mod_mul, Nat.add_mul_mod_self_left, Nat.mod_eq_of_lt hn,
    Nat.add_mul_div_left _ _ (by omega), Nat.div_eq_of_lt hn, Nat.zero_add]

/-- The step of every carrying limb loop: the limb written is `n % 2^32`, and `n / 2^32` is
carried into the limbs above. -/
theorem carry_mod (n q M : Nat) :
    (n + 2 ^ 32 * q) % (2 ^ 32 * M) = n % 2 ^ 32 + 2 ^ 32 * ((n / 2 ^ 32 + q) % M) := by
  rw [Nat.mod_mul, Nat.add_mul_mod_self_left, Nat.add_mul_div_left _ _ (by norm_num)]

theorem limbsVal_append (l₁ l₂ : List UInt32) :
    limbsVal (l₁ ++ l₂) = limbsVal l₁ + 2 ^ (32 * l₁.length) * limbsVal l₂ := by
  induction l₁ with
  | nil => simp
  | cons x l₁ ih =>
    rw [List.cons_append, limbsVal_cons, limbsVal_cons, ih, List.length_cons, pow_limbs_succ]
    ring

@[simp] theorem limbsVal_replicate_zero (k : Nat) : limbsVal (List.replicate k 0) = 0 := by
  induction k with
  | zero => rfl
  | succ k ih => simp [List.replicate_succ, ih]

theorem limbsVal_take : ∀ (n : Nat) (l : List UInt32),
    limbsVal (l.take n) = limbsVal l % 2 ^ (32 * n)
  | 0, l => by simp [Nat.mod_one]
  | n + 1, [] => by simp
  | n + 1, x :: l => by
    have hx := x.toNat_lt
    rw [List.take_succ_cons, limbsVal_cons, limbsVal_cons, limbsVal_take n l, pow_limbs_succ,
      add_mul_mod_mul hx]

theorem limbsVal_drop : ∀ (n : Nat) (l : List UInt32),
    limbsVal (l.drop n) = limbsVal l / 2 ^ (32 * n)
  | 0, l => by simp
  | n + 1, [] => by simp
  | n + 1, x :: l => by
    have hx := x.toNat_lt
    rw [List.drop_succ_cons, limbsVal_drop n l, limbsVal_cons, pow_limbs_succ,
      ← Nat.div_div_eq_div_mul, Nat.add_mul_div_left _ _ (by norm_num), Nat.div_eq_of_lt hx,
      Nat.zero_add]

namespace BaseUint

/-! ### Addition, increment, complement -/

theorem limbsVal_addLimbs : ∀ (c : Nat) (xs ys : List UInt32), xs.length = ys.length →
    limbsVal (addLimbs c xs ys) = (c + limbsVal xs + limbsVal ys) % 2 ^ (32 * xs.length)
  | c, [], [], _ => by simp [addLimbs, Nat.mod_one]
  | c, x :: xs, y :: ys, h => by
    simp only [List.length_cons, Nat.add_right_cancel_iff] at h
    rw [addLimbs, limbsVal_cons, UInt32.toNat_ofNat', limbsVal_addLimbs _ xs ys h,
      List.length_cons, pow_limbs_succ, limbsVal_cons, limbsVal_cons,
      show c + (x.toNat + 2 ^ 32 * limbsVal xs) + (y.toNat + 2 ^ 32 * limbsVal ys) =
        (c + x.toNat + y.toNat) + 2 ^ 32 * (limbsVal xs + limbsVal ys) by ring,
      carry_mod]
    simp only [Nat.add_assoc]
  | _, [], _ :: _, h | _, _ :: _, [], h => by simp at h

theorem limbsVal_incLimbs : ∀ l : List UInt32,
    limbsVal (incLimbs l) = (limbsVal l + 1) % 2 ^ (32 * l.length)
  | [] => by simp [incLimbs]
  | [x] => by simp [incLimbs]
  | x :: y :: ys => by
    have hx := x.toNat_lt
    have hlt := limbsVal_lt (y :: ys)
    rw [List.length_cons, pow_limbs_succ, limbsVal_cons]
    by_cases h : x + 1 = 0
    · -- the limb wraps to zero and the increment carries into the limbs above
      have hx' : x.toNat = 2 ^ 32 - 1 := by
        have := congrArg UInt32.toNat h
        rw [UInt32.toNat_add] at this
        simp at this
        omega
      rw [incLimbs, if_pos h, limbsVal_cons, limbsVal_incLimbs (y :: ys), hx',
        show 2 ^ 32 - 1 + 2 ^ 32 * limbsVal (y :: ys) + 1 = 2 ^ 32 * (limbsVal (y :: ys) + 1) by
          omega, Nat.mul_mod_mul_left]
      simp
    · have hx' : (x + 1).toNat = x.toNat + 1 := by
        rw [UInt32.toNat_add]
        have : (x + 1).toNat ≠ 0 := fun h0 => h (UInt32.toNat_inj.mp h0)
        rw [UInt32.toNat_add] at this
        simp at this ⊢
        omega
      rw [incLimbs, if_neg h, limbsVal_cons, hx', Nat.mod_eq_of_lt]
      · ring
      · have : 2 ^ 32 * limbsVal (y :: ys) + 2 ^ 32 ≤ 2 ^ 32 * 2 ^ (32 * (y :: ys).length) := by
          rw [← Nat.mul_succ]
          exact Nat.mul_le_mul_left _ hlt
        have := (x + 1).toNat_lt
        omega

theorem limbsVal_map_not (l : List UInt32) :
    limbsVal (l.map (~~~ ·)) + limbsVal l + 1 = 2 ^ (32 * l.length) := by
  induction l with
  | nil => simp
  | cons x l ih =>
    have hx := x.toNat_lt
    rw [List.map_cons, limbsVal_cons, limbsVal_cons, UInt32.toNat_not, List.length_cons,
      pow_limbs_succ, ← ih]
    simp only [UInt32.size]
    omega

variable {BITS : Nat}

theorem toNat_add (a b : BaseUint BITS) : (a + b).toNat = (a.toNat + b.toNat) % 2 ^ (32 * (BITS / 32)) := by
  show limbsVal (addLimbs 0 a.pn b.pn) = _
  rw [limbsVal_addLimbs _ _ _ (by rw [a.length_pn, b.length_pn]), a.length_pn, Nat.zero_add]
  rfl

theorem toNat_inc (a : BaseUint BITS) : a.inc.toNat = (a.toNat + 1) % 2 ^ (32 * (BITS / 32)) := by
  show limbsVal (incLimbs a.pn) = _
  rw [limbsVal_incLimbs, a.length_pn]
  rfl

theorem toNat_compl (a : BaseUint BITS) : a.compl.toNat = 2 ^ (32 * (BITS / 32)) - 1 - a.toNat := by
  have h := limbsVal_map_not a.pn
  rw [a.length_pn] at h
  show limbsVal (a.pn.map (~~~ ·)) = _
  unfold toNat
  omega

theorem toNat_neg (a : BaseUint BITS) : (-a).toNat = (2 ^ (32 * (BITS / 32)) - a.toNat) % 2 ^ (32 * (BITS / 32)) := by
  have hlt := a.toNat_lt
  show a.compl.inc.toNat = _
  rw [toNat_inc, toNat_compl]
  congr 1
  omega

theorem toNat_sub (a b : BaseUint BITS) :
    (a - b).toNat = (a.toNat + (2 ^ (32 * (BITS / 32)) - b.toNat)) % 2 ^ (32 * (BITS / 32)) := by
  show (a + -b).toNat = _
  rw [toNat_add, toNat_neg, Nat.add_mod_mod]

/-- `num -= div` when `div <= num`: no wrap. -/
theorem toNat_sub_of_le {a b : BaseUint BITS} (h : b.toNat ≤ a.toNat) :
    (a - b).toNat = a.toNat - b.toNat := by
  have ha := a.toNat_lt
  rw [toNat_sub, show a.toNat + (2 ^ (32 * (BITS / 32)) - b.toNat) = (a.toNat - b.toNat) + 2 ^ (32 * (BITS / 32)) by
    omega, Nat.add_mod_right, Nat.mod_eq_of_lt (by omega)]

/-! ### Multiplication -/

theorem limbsVal_mulLimbs (b32 : UInt32) : ∀ (c : Nat) (l : List UInt32),
    limbsVal (mulLimbs b32 c l) = (c + b32.toNat * limbsVal l) % 2 ^ (32 * l.length)
  | c, [] => by simp [mulLimbs, Nat.mod_one]
  | c, x :: l => by
    rw [mulLimbs, limbsVal_cons, UInt32.toNat_ofNat', limbsVal_mulLimbs b32 _ l,
      List.length_cons, pow_limbs_succ, limbsVal_cons,
      show c + b32.toNat * (x.toNat + 2 ^ 32 * limbsVal l) =
        (c + b32.toNat * x.toNat) + 2 ^ 32 * (b32.toNat * limbsVal l) by ring, carry_mod]

theorem toNat_mul32 (a : BaseUint BITS) (b32 : UInt32) :
    (a.mul32 b32).toNat = a.toNat * b32.toNat % 2 ^ (32 * (BITS / 32)) := by
  show limbsVal (mulLimbs b32 0 a.pn) = _
  rw [limbsVal_mulLimbs, a.length_pn, Nat.zero_add, Nat.mul_comm]
  rfl

/-- One row of the product: `x * ys` added into the limbs `rs`, as far as they reach. -/
theorem limbsVal_mulAddLimbs (x : UInt32) : ∀ (c : Nat) (rs ys : List UInt32),
    rs.length ≤ ys.length →
    limbsVal (mulAddLimbs x c rs ys) = (c + limbsVal rs + x.toNat * limbsVal ys) % 2 ^ (32 * rs.length)
  | c, [], _, _ => by simp [mulAddLimbs, Nat.mod_one]
  | c, r :: rs, y :: ys, h => by
    simp only [List.length_cons, Nat.add_le_add_iff_right] at h
    rw [mulAddLimbs, limbsVal_cons, UInt32.toNat_ofNat', limbsVal_mulAddLimbs x _ rs ys h,
      List.length_cons, pow_limbs_succ, limbsVal_cons, limbsVal_cons,
      show c + (r.toNat + 2 ^ 32 * limbsVal rs) + x.toNat * (y.toNat + 2 ^ 32 * limbsVal ys) =
        (c + r.toNat + x.toNat * y.toNat) + 2 ^ 32 * (limbsVal rs + x.toNat * limbsVal ys) by ring,
      carry_mod]
    simp only [Nat.add_assoc]
  | _, _ :: _, [], h => by simp at h

/-- Row `j` of `operator*=` adds `2^(32 j) * x * b` to the limbs, modulo their width. -/
theorem limbsVal_mulRow (b : List UInt32) (j : Nat) (x : UInt32) (r : List UInt32)
    (h : r.length ≤ j + b.length) :
    limbsVal (r.take j ++ mulAddLimbs x 0 (r.drop j) b) =
      (limbsVal r + 2 ^ (32 * j) * (x.toNat * limbsVal b)) % 2 ^ (32 * r.length) := by
  rcases Nat.lt_or_ge r.length j with hj | hj
  · -- the row starts past the limbs: nothing is added
    rw [List.take_of_length_le hj.le, List.drop_eq_nil_of_le hj.le,
      show mulAddLimbs x 0 [] b = [] by cases b <;> rfl, List.append_nil,
      show 32 * j = 32 * r.length + 32 * (j - r.length) by omega, Nat.pow_add, Nat.mul_assoc,
      Nat.add_mul_mod_self_left, Nat.mod_eq_of_lt (limbsVal_lt r)]
  · have hlen : (r.take j).length = j := List.length_take_of_le hj
    have hsplit : limbsVal r = limbsVal (r.take j) + 2 ^ (32 * j) * limbsVal (r.drop j) := by
      have := limbsVal_append (r.take j) (r.drop j)
      rwa [List.take_append_drop, hlen] at this
    rw [limbsVal_append, hlen, limbsVal_mulAddLimbs x 0 _ _ (by simp; omega), Nat.zero_add,
      List.length_drop, hsplit, Nat.add_assoc, ← Nat.mul_add,
      show 32 * r.length = 32 * j + 32 * (r.length - j) by omega, Nat.pow_add,
      add_mul_mod_mul (by simpa [hlen] using limbsVal_lt (r.take j))]

/-- The rows from `j` on add `2^(32 j) * xs * b`, modulo the width of the limbs. -/
theorem limbsVal_mulRows (b : List UInt32) : ∀ (j : Nat) (xs r : List UInt32),
    r.length ≤ j + b.length →
    limbsVal (mulRows b j xs r) =
      (limbsVal r + 2 ^ (32 * j) * (limbsVal xs * limbsVal b)) % 2 ^ (32 * r.length)
  | j, [], r, _ => by simp [mulRows, Nat.mod_eq_of_lt (limbsVal_lt r)]
  | j, x :: xs, r, h => by
    have hlen : (r.take j ++ mulAddLimbs x 0 (r.drop j) b).length = r.length := by
      simp
      omega
    rw [mulRows, limbsVal_mulRows b (j + 1) xs _ (by rw [hlen]; omega), hlen,
      limbsVal_mulRow b j x r h, Nat.mod_add_mod, limbsVal_cons, pow_limbs_succ]
    congr 1
    ring

theorem toNat_mul (a b : BaseUint BITS) :
    (a * b).toNat = a.toNat * b.toNat % 2 ^ (32 * (BITS / 32)) := by
  show limbsVal (mulRows b.pn 0 a.pn (List.replicate (BITS / 32) 0)) = _
  rw [limbsVal_mulRows _ _ _ _ (by simp [b.length_pn])]
  simp [toNat]

/-! ### Shifts -/

theorem toNat_toUInt32_of_lt {s : Nat} (hs : s < 32) : s.toUInt32.toNat = s := by
  simp [Nat.toUInt32]
  omega

/-- A limb of `operator<<=`: `(x << s) | low`, with `low` the bits carried up from the limb
below, is the low limb of `low + x * 2^s`, and the bits `x >> (32 - s)` it carries up are the
rest. -/
theorem shl_limb {s : Nat} (hs : s < 32) (x : UInt32) {low : UInt32} (hlow : low.toNat < 2 ^ s) :
    ((x <<< s.toUInt32) ||| low).toNat = (low.toNat + x.toNat * 2 ^ s) % 2 ^ 32 ∧
      (if s = 0 then (0 : UInt32) else x >>> (32 - s).toUInt32).toNat =
        (low.toNat + x.toNat * 2 ^ s) / 2 ^ 32 := by
  have hx := x.toNat_lt
  have h32 : (2 : Nat) ^ 32 = 2 ^ s * 2 ^ (32 - s) := by rw [← Nat.pow_add]; congr 1; omega
  have hmod : (low.toNat + x.toNat * 2 ^ s) % 2 ^ 32 = low.toNat + 2 ^ s * (x.toNat % 2 ^ (32 - s)) := by
    rw [h32, Nat.mul_comm x.toNat, add_mul_mod_mul hlow]
  have hshl : (x <<< s.toUInt32).toNat = 2 ^ s * (x.toNat % 2 ^ (32 - s)) := by
    rw [UInt32.toNat_shiftLeft, toNat_toUInt32_of_lt hs, Nat.mod_eq_of_lt hs, Nat.shiftLeft_eq,
      h32, Nat.mul_comm x.toNat, Nat.mul_mod_mul_left]
  refine ⟨?_, ?_⟩
  · rw [UInt32.toNat_or, hshl, hmod, Nat.add_comm]
    exact (Nat.two_pow_add_eq_or_of_lt hlow _).symm
  · split_ifs with h0
    · subst h0
      simp at hlow
      simp [hlow]
      omega
    · rw [UInt32.toNat_shiftRight, toNat_toUInt32_of_lt (by omega), Nat.mod_eq_of_lt (by omega),
        Nat.shiftRight_eq_div_pow, h32, ← Nat.div_div_eq_div_mul, Nat.mul_comm x.toNat,
        Nat.add_mul_div_left _ _ (Nat.two_pow_pos s), Nat.div_eq_of_lt hlow, Nat.zero_add]

theorem limbsVal_shlBits {s : Nat} (hs : s < 32) : ∀ (low : UInt32) (l : List UInt32),
    low.toNat < 2 ^ s →
    limbsVal (shlBits s low l) = (low.toNat + limbsVal l * 2 ^ s) % 2 ^ (32 * l.length)
  | low, [], _ => by simp [shlBits, Nat.mod_one]
  | low, x :: l, hlow => by
    obtain ⟨hlimb, hcarry⟩ := shl_limb hs x hlow
    have hx := x.toNat_lt
    -- the bits carried up are below `2 ^ s`
    have hnext : (low.toNat + x.toNat * 2 ^ s) / 2 ^ 32 < 2 ^ s := by
      rw [Nat.div_lt_iff_lt_mul (by positivity)]
      calc low.toNat + x.toNat * 2 ^ s < 2 ^ s + x.toNat * 2 ^ s := by omega
        _ = (x.toNat + 1) * 2 ^ s := by ring
        _ ≤ 2 ^ 32 * 2 ^ s := Nat.mul_le_mul_right _ hx
        _ = 2 ^ s * 2 ^ 32 := Nat.mul_comm _ _
    rw [shlBits, limbsVal_cons, hlimb, limbsVal_shlBits hs _ l (by rwa [hcarry]), hcarry,
      List.length_cons, pow_limbs_succ, limbsVal_cons,
      show low.toNat + (x.toNat + 2 ^ 32 * limbsVal l) * 2 ^ s =
        (low.toNat + x.toNat * 2 ^ s) + 2 ^ 32 * (limbsVal l * 2 ^ s) by ring, carry_mod]

theorem toNat_shl (a : BaseUint BITS) (shift : Nat) :
    (a.shl shift).toNat = a.toNat * 2 ^ shift % 2 ^ (32 * (BITS / 32)) := by
  have hlen : ((List.replicate (shift / 32) 0 ++ a.pn).take (BITS / 32)).length = BITS / 32 := by
    simp [a.length_pn]
  show limbsVal (shlBits (shift % 32) 0 _) = _
  rw [limbsVal_shlBits (Nat.mod_lt _ (by norm_num)) _ _ (by simp), hlen, limbsVal_take,
    limbsVal_append, limbsVal_replicate_zero, List.length_replicate, Nat.zero_add,
    UInt32.toNat_zero, Nat.zero_add,
    Nat.mod_mul_mod, Nat.mul_comm, ← Nat.mul_assoc, ← Nat.pow_add, Nat.mod_add_div, Nat.mul_comm]
  rfl

/-- A limb of `operator>>=`: `(x >> s) | (y << (32 - s))`, with `y` the limb above. -/
theorem shr_limb {s : Nat} (hs : 0 < s) (hs' : s < 32) (x y : UInt32) :
    ((x >>> s.toUInt32) ||| (y <<< (32 - s).toUInt32)).toNat =
      x.toNat / 2 ^ s + 2 ^ (32 - s) * (y.toNat % 2 ^ s) := by
  have hx := x.toNat_lt
  have h32 : (2 : Nat) ^ 32 = 2 ^ (32 - s) * 2 ^ s := by rw [← Nat.pow_add]; congr 1; omega
  have hlow : x.toNat / 2 ^ s < 2 ^ (32 - s) := by
    rw [Nat.div_lt_iff_lt_mul (by positivity), ← h32]
    exact hx
  rw [UInt32.toNat_or, UInt32.toNat_shiftRight, UInt32.toNat_shiftLeft, toNat_toUInt32_of_lt hs',
    toNat_toUInt32_of_lt (show 32 - s < 32 by omega), Nat.mod_eq_of_lt hs',
    Nat.mod_eq_of_lt (show 32 - s < 32 by omega),
    Nat.shiftRight_eq_div_pow, Nat.shiftLeft_eq, h32, Nat.mul_comm y.toNat,
    Nat.mul_mod_mul_left, Nat.lor_comm, ← Nat.two_pow_add_eq_or_of_lt hlow, Nat.add_comm]

/-- The limb above, modulo `2^s`, is the rest of the limbs modulo `2^s`. -/
theorem headD_mod (l : List UInt32) {s : Nat} (hs : s ≤ 32) :
    (l.headD 0).toNat % 2 ^ s = limbsVal l % 2 ^ s := by
  cases l with
  | nil => simp
  | cons y l =>
    rw [List.headD_cons, limbsVal_cons,
      show (2 : Nat) ^ 32 = 2 ^ s * 2 ^ (32 - s) by rw [← Nat.pow_add]; congr 1; omega,
      Nat.mul_assoc, Nat.add_mul_mod_self_left]

theorem limbsVal_shrBits {s : Nat} (hs : s < 32) : ∀ l : List UInt32,
    limbsVal (shrBits s l) = limbsVal l / 2 ^ s
  | [] => by simp [shrBits]
  | x :: l => by
    rw [shrBits, limbsVal_cons, limbsVal_shrBits hs l, limbsVal_cons]
    rcases Nat.eq_zero_or_pos s with h0 | hpos
    · subst h0
      simp
    · rw [if_neg (by omega), shr_limb hpos hs, headD_mod l hs.le]
      -- `2^(32-s) * V` splits into the bits that stay in this limb and those above
      have h32 : (2 : Nat) ^ 32 = 2 ^ s * 2 ^ (32 - s) := by
        rw [← Nat.pow_add]; congr 1; omega
      have hsplit := Nat.mod_add_div (limbsVal l) (2 ^ s)
      have hdiv : (x.toNat + 2 ^ 32 * limbsVal l) / 2 ^ s =
          x.toNat / 2 ^ s + 2 ^ (32 - s) * limbsVal l := by
        rw [h32, Nat.mul_assoc, Nat.add_mul_div_left _ _ (Nat.two_pow_pos s)]
      rw [hdiv, h32]
      conv_rhs => rw [← hsplit]
      ring

theorem toNat_shr (a : BaseUint BITS) (shift : Nat) :
    (a.shr shift).toNat = a.toNat / 2 ^ shift := by
  have hlt := a.toNat_lt
  have hdrop : limbsVal (a.pn.drop (shift / 32)) < 2 ^ (32 * (BITS / 32)) := by
    rw [limbsVal_drop]
    exact lt_of_le_of_lt (Nat.div_le_self _ _) hlt
  show limbsVal (shrBits (shift % 32) _) = _
  rw [limbsVal_shrBits (Nat.mod_lt _ (by norm_num)), limbsVal_take, limbsVal_append,
    limbsVal_replicate_zero, Nat.mul_zero, Nat.add_zero, Nat.mod_eq_of_lt hdrop, limbsVal_drop,
    Nat.div_div_eq_div_mul, ← Nat.pow_add, Nat.div_add_mod]
  rfl

/-! ### Comparison -/

/-- Limbs listed from the top, with `x` on top of `xs`. -/
theorem limbsVal_reverse_cons (x : UInt32) (xs : List UInt32) :
    limbsVal (x :: xs).reverse = limbsVal xs.reverse + 2 ^ (32 * xs.length) * x.toNat := by
  rw [List.reverse_cons, limbsVal_append, List.length_reverse, limbsVal_cons, limbsVal_nil,
    Nat.mul_zero, Nat.add_zero]

/-- A number with a smaller top part is smaller, whatever lies below. -/
theorem add_two_pow_mul_lt {a b k x y : Nat} (ha : a < 2 ^ k) (hxy : x < y) :
    a + 2 ^ k * x < b + 2 ^ k * y := by
  have : 2 ^ k * x + 2 ^ k ≤ 2 ^ k * y := by
    rw [← Nat.mul_succ]
    exact Nat.mul_le_mul_left _ hxy
  omega

/-- `CompareTo` reads the limbs from the top: the first that differs decides, which is how the
values compare. -/
theorem compareTop_eq : ∀ xs ys : List UInt32, xs.length = ys.length →
    compareTop xs ys =
      if limbsVal xs.reverse < limbsVal ys.reverse then -1
      else if limbsVal ys.reverse < limbsVal xs.reverse then 1 else 0
  | [], [], _ => by simp [compareTop]
  | x :: xs, y :: ys, h => by
    have hlen : xs.length = ys.length := by simpa using h
    have hxs : limbsVal xs.reverse < 2 ^ (32 * xs.length) := by
      simpa using limbsVal_lt xs.reverse
    have hys : limbsVal ys.reverse < 2 ^ (32 * xs.length) := by
      simpa [hlen] using limbsVal_lt ys.reverse
    rw [compareTop, limbsVal_reverse_cons, limbsVal_reverse_cons, compareTop_eq xs ys hlen, ← hlen]
    simp only [UInt32.lt_iff_toNat_lt]
    rcases lt_trichotomy x.toNat y.toNat with hxy | hxy | hxy
    · rw [if_pos hxy, if_pos (add_two_pow_mul_lt hxs hxy)]
    · -- equal top limbs: the limbs below decide
      rw [if_neg (by omega), if_neg (by omega), hxy]
      simp only [Nat.add_lt_add_iff_right]
    · rw [if_neg (by omega), if_pos hxy, if_neg (by have := add_two_pow_mul_lt (b := limbsVal xs.reverse) hys hxy; omega),
        if_pos (add_two_pow_mul_lt hys hxy)]
  | [], _ :: _, h | _ :: _, [], h => by simp at h

theorem compareTo_eq (a b : BaseUint BITS) :
    a.compareTo b = if a.toNat < b.toNat then -1 else if b.toNat < a.toNat then 1 else 0 := by
  rw [compareTo, compareTop_eq _ _ (by simp [a.length_pn, b.length_pn]), List.reverse_reverse,
    List.reverse_reverse]
  rfl

theorem lt_iff_toNat_lt {a b : BaseUint BITS} : a < b ↔ a.toNat < b.toNat := by
  show a.compareTo b < 0 ↔ _
  rw [compareTo_eq]
  split_ifs <;> simp <;> omega

theorem le_iff_toNat_le {a b : BaseUint BITS} : a ≤ b ↔ a.toNat ≤ b.toNat := by
  show a.compareTo b ≤ 0 ↔ _
  rw [compareTo_eq]
  split_ifs <;> simp <;> omega

/-! ### `bits()` -/

/-- The bits of `x` from `n` down to `1`, searched from the top: the first one set is the top
bit of `x`, if it is not bit `0`. -/
theorem find?_testBit (x : Nat) : ∀ n, x < 2 ^ (n + 1) →
    (List.range n).reverse.find? (fun b => x.testBit (b + 1)) =
      if 2 ≤ x.size then some (x.size - 2) else none
  | 0, h => by
    have : x.size ≤ 1 := Nat.size_le.mpr h
    simp
    omega
  | n + 1, h => by
    rw [List.range_succ, List.reverse_append, List.reverse_singleton, List.singleton_append,
      List.find?_cons]
    by_cases hb : x.testBit (n + 1) = true
    · -- bit `n + 1` is the top bit
      have hge : 2 ^ (n + 1) ≤ x := Nat.ge_two_pow_of_testBit hb
      have hsize : x.size = n + 2 :=
        le_antisymm (Nat.size_le.mpr h) (Nat.lt_size.mpr hge)
      rw [hb, hsize]
      simp
    · -- bit `n + 1` is clear, so `x` is below it
      have hlt : x < 2 ^ (n + 1) := by
        have hq : x / 2 ^ (n + 1) < 2 := by
          rw [Nat.div_lt_iff_lt_mul (Nat.two_pow_pos _), Nat.mul_comm, ← Nat.pow_succ]
          exact h
        have hbit : x / 2 ^ (n + 1) % 2 ≠ 1 := by
          simpa [Nat.testBit_eq_decide_div_mod_eq] using hb
        have hzero : x / 2 ^ (n + 1) = 0 := by
          generalize x / 2 ^ (n + 1) = t at hq hbit
          omega
        exact (Nat.div_eq_zero_iff_lt (Nat.two_pow_pos _)).mp hzero
      rw [Bool.not_eq_true] at hb
      rw [hb]
      exact find?_testBit x n hlt

/-- The inner loop of `bits()` on a limb that is not zero: its bit length. -/
theorem limbBits_eq {x : UInt32} (hx : x ≠ 0) : limbBits x = x.toNat.size := by
  have hpos : 0 < x.toNat.size :=
    Nat.size_pos.mpr (Nat.pos_of_ne_zero fun h => hx (UInt32.toNat_inj.mp h))
  unfold limbBits
  rw [find?_testBit x.toNat 31 x.toNat_lt]
  split_ifs with h2
  · simp only
    omega
  · simp only
    omega

/-- `x` above `k` bits of anything: its bit length and `k` more. -/
theorem size_add_two_pow_mul {a k x : Nat} (ha : a < 2 ^ k) (hx : x ≠ 0) :
    (a + 2 ^ k * x).size = k + x.size := by
  have hpos : 0 < x.size := Nat.size_pos.mpr (Nat.pos_of_ne_zero hx)
  apply le_antisymm
  · rw [Nat.size_le, Nat.pow_add]
    calc a + 2 ^ k * x < 2 ^ k * (x + 1) := by rw [Nat.mul_succ]; omega
      _ ≤ 2 ^ k * 2 ^ x.size := Nat.mul_le_mul_left _ (Nat.lt_size_self x)
  · have hx' : 2 ^ (x.size - 1) ≤ x := Nat.lt_size.mp (by omega)
    have : 2 ^ (k + x.size - 1) ≤ a + 2 ^ k * x := by
      rw [show k + x.size - 1 = k + (x.size - 1) by omega, Nat.pow_add]
      exact le_add_left (Nat.mul_le_mul_left _ hx')
    have := Nat.lt_size.mpr this
    omega

theorem bitsTop_eq : ∀ xs : List UInt32, bitsTop (xs.length - 1) xs = (limbsVal xs.reverse).size
  | [] => by simp [bitsTop]
  | x :: xs => by
    rw [List.length_cons, Nat.add_sub_cancel, bitsTop, limbsVal_reverse_cons]
    split_ifs with hx
    · have hxs : limbsVal xs.reverse < 2 ^ (32 * xs.length) := by
        simpa using limbsVal_lt xs.reverse
      rw [limbBits_eq hx, size_add_two_pow_mul hxs (by simpa [← UInt32.toNat_inj] using hx)]
    · -- a zero top limb: the search goes on below
      rw [not_not] at hx
      rw [hx, bitsTop_eq xs]
      simp

/-- **`bits()`** is the bit length of the value. -/
theorem bits_eq_size (a : BaseUint BITS) : a.bits = a.toNat.size := by
  have h := bitsTop_eq a.pn.reverse
  rw [List.length_reverse, a.length_pn, List.reverse_reverse] at h
  exact h

/-! ### Division -/

@[simp] theorem toNat_zero : (zero : BaseUint BITS).toNat = 0 := limbsVal_replicate_zero _

/-- Limb `i` is the value's `i`-th digit in base `2^32`. -/
theorem getD_toNat : ∀ (l : List UInt32) (i : Nat),
    (l.getD i 0).toNat = limbsVal l / 2 ^ (32 * i) % 2 ^ 32
  | [], i => by simp
  | x :: l, 0 => by
    have hx := x.toNat_lt
    simp only [List.getD_cons_zero, limbsVal_cons, Nat.mul_zero, Nat.pow_zero, Nat.div_one,
      Nat.add_mul_mod_self_left, Nat.mod_eq_of_lt hx]
  | x :: l, i + 1 => by
    have hx := x.toNat_lt
    rw [List.getD_cons_succ, getD_toNat l i, limbsVal_cons, pow_limbs_succ,
      ← Nat.div_div_eq_div_mul, Nat.add_mul_div_left _ _ (by norm_num), Nat.div_eq_of_lt hx,
      Nat.zero_add]

/-- Changing limb `i` by `d` changes the value by `2^(32 i) * d`. -/
theorem limbsVal_modify (f : UInt32 → UInt32) (d : Nat) : ∀ (l : List UInt32) (i : Nat),
    i < l.length → (f (l.getD i 0)).toNat = (l.getD i 0).toNat + d →
    limbsVal (l.modify i f) = limbsVal l + 2 ^ (32 * i) * d
  | [], _, h, _ => absurd h (Nat.not_lt_zero _)
  | x :: l, 0, _, hf => by
    rw [List.getD_cons_zero] at hf
    rw [List.modify_zero_cons, limbsVal_cons, limbsVal_cons, hf]
    simp only [Nat.mul_zero, Nat.pow_zero, Nat.one_mul]
    omega
  | x :: l, i + 1, h, hf => by
    rw [List.getD_cons_succ] at hf
    rw [List.modify_succ_cons, limbsVal_cons, limbsVal_cons,
      limbsVal_modify f d l i (by simpa using h) hf, pow_limbs_succ]
    ring

/-- Setting a clear bit: `x | 2^j` is `x + 2^j` when `2^(j+1)` divides `x`. -/
theorem or_two_pow_of_dvd {x j : Nat} (h : 2 ^ (j + 1) ∣ x) : x ||| 2 ^ j = x + 2 ^ j := by
  obtain ⟨A, rfl⟩ := h
  exact (Nat.two_pow_add_eq_or_of_lt (Nat.pow_lt_pow_right (by norm_num) (Nat.lt_succ_self j)) A).symm

/-- `pn[shift / 32] |= (1 << (shift & 31))` on a quotient whose bits up to `shift` are clear
adds `2^shift`. -/
theorem toNat_setBit {q : BaseUint BITS} {shift : Nat} (hs : shift < 32 * (BITS / 32))
    (hq : 2 ^ (shift + 1) ∣ q.toNat) : (q.setBit shift).toNat = q.toNat + 2 ^ shift := by
  have hj : shift % 32 < 32 := Nat.mod_lt _ (by norm_num)
  have hsplit : shift = 32 * (shift / 32) + shift % 32 := (Nat.div_add_mod shift 32).symm
  -- the limb holding bit `shift` has its bits up to `shift % 32` clear
  have hlimb : 2 ^ (shift % 32 + 1) ∣ (q.pn.getD (shift / 32) 0).toNat := by
    rw [getD_toNat]
    apply (Nat.dvd_mod_iff (Nat.pow_dvd_pow 2 (by omega))).mpr
    apply Nat.dvd_div_of_mul_dvd
    rw [← Nat.pow_add]
    exact (Nat.pow_dvd_pow 2 (by omega)).trans hq
  have hbit : ((1 : UInt32) <<< (shift % 32).toUInt32).toNat = 2 ^ (shift % 32) := by
    rw [UInt32.toNat_shiftLeft, toNat_toUInt32_of_lt hj, Nat.mod_eq_of_lt hj, Nat.shiftLeft_eq,
      UInt32.toNat_one, Nat.one_mul, Nat.mod_eq_of_lt (Nat.pow_lt_pow_right (by norm_num) hj)]
  show limbsVal (q.pn.modify (shift / 32) _) = _
  rw [limbsVal_modify _ (2 ^ (shift % 32)) _ _ (by rw [q.length_pn]; omega)
    (by rw [UInt32.toNat_or, hbit, or_two_pow_of_dvd hlimb]), ← Nat.pow_add, ← hsplit]
  rfl

/-- One pass of the loop of `operator/=`: the quotient so far plus what is left to divide is
kept, and what is left is below the divisor at the next position. -/
theorem divStep {D shift : Nat} {num div q : BaseUint BITS} (hD : 0 < D)
    (hs : shift < 32 * (BITS / 32))
    (hdiv : div.toNat = D * 2 ^ shift) (hq : 2 ^ (shift + 1) ∣ q.toNat)
    (hnum : num.toNat < D * 2 ^ (shift + 1)) :
    let q' := if div ≤ num then q.setBit shift else q
    let num' := if div ≤ num then num - div else num
    q'.toNat + num'.toNat / D = q.toNat + num.toNat / D ∧ num'.toNat < D * 2 ^ shift ∧
      2 ^ shift ∣ q'.toNat := by
  have hq' : 2 ^ shift ∣ q.toNat := (Nat.pow_dvd_pow 2 (Nat.le_succ shift)).trans hq
  rw [Nat.pow_succ, ← Nat.mul_assoc] at hnum
  by_cases hle : div ≤ num
  · -- the divisor fits at `shift`: bit `shift` of the quotient is set
    have hle' := le_iff_toNat_le.mp hle
    rw [hdiv] at hle'
    dsimp only
    rw [if_pos hle, if_pos hle, toNat_setBit hs hq, toNat_sub_of_le (by rwa [hdiv]), hdiv]
    have hquot : 2 ^ shift ≤ num.toNat / D := by
      rw [Nat.le_div_iff_mul_le hD, Nat.mul_comm]
      exact hle'
    refine ⟨?_, by omega, Nat.dvd_add hq' (dvd_refl _)⟩
    rw [Nat.sub_mul_div]
    omega
  · have hlt : num.toNat < D * 2 ^ shift := by
      rw [le_iff_toNat_le, hdiv] at hle
      omega
    dsimp only
    rw [if_neg hle, if_neg hle]
    exact ⟨rfl, hlt, hq'⟩

/-- The loop of `operator/=` from `shift` down: with the divisor aligned at `shift`, no bit of
the quotient set at or below it, and what is left below twice the aligned divisor, the loop adds
what is left divided by the divisor to the quotient. -/
theorem divLoop_spec {D : Nat} (hD : 0 < D) : ∀ (shift : Nat) (num div q : BaseUint BITS),
    shift < 32 * (BITS / 32) → div.toNat = D * 2 ^ shift → 2 ^ (shift + 1) ∣ q.toNat →
    num.toNat < D * 2 ^ (shift + 1) →
    (divLoop shift num div q).toNat = q.toNat + num.toNat / D
  | 0, num, div, q, hs, hdiv, hq, hnum => by
    obtain ⟨hstep, hlt, -⟩ := divStep hD hs hdiv hq hnum
    rw [Nat.pow_zero, Nat.mul_one] at hlt
    -- the last pass: what is left is below the divisor
    rw [divLoop, ← hstep, Nat.div_eq_of_lt hlt, Nat.add_zero]
  | shift + 1, num, div, q, hs, hdiv, hq, hnum => by
    obtain ⟨hstep, hlt, hdvd⟩ := divStep hD hs hdiv hq hnum
    -- `div >>= 1` aligns the divisor one bit lower
    have hdiv' : (div.shr 1).toNat = D * 2 ^ shift := by
      rw [toNat_shr, hdiv, Nat.pow_succ, ← Nat.mul_assoc, Nat.pow_one, Nat.mul_div_cancel _ (by norm_num)]
    rw [divLoop, ← hstep]
    exact divLoop_spec hD shift _ _ _ (by omega) hdiv' hdvd hlt

/-- **`operator/=`** throws on a zero divisor and is the quotient otherwise. -/
theorem div_eq (num d : BaseUint BITS) :
    Except.map toNat (num.div d) =
      if d.toNat = 0 then .error "Division by zero" else .ok (num.toNat / d.toNat) := by
  have hnum := num.toNat_lt
  have hsize : num.toNat.size ≤ 32 * (BITS / 32) := Nat.size_le.mpr hnum
  unfold div
  rw [bits_eq_size, bits_eq_size]
  by_cases hd : d.toNat = 0
  · rw [if_pos (Nat.size_eq_zero.mpr hd), if_pos hd]
    rfl
  rw [if_neg (by rwa [Nat.size_eq_zero]), if_neg hd]
  have hdpos : 0 < d.toNat.size := Nat.size_pos.mpr (Nat.pos_of_ne_zero hd)
  have hdlow : 2 ^ (d.toNat.size - 1) ≤ d.toNat := Nat.lt_size.mp (by omega)
  split_ifs with hlt
  · -- fewer bits than the divisor: the quotient is zero
    have : num.toNat < d.toNat := by
      calc num.toNat < 2 ^ num.toNat.size := Nat.lt_size_self _
        _ ≤ 2 ^ (d.toNat.size - 1) := Nat.pow_le_pow_right (by norm_num) (by omega)
        _ ≤ d.toNat := hdlow
    simp [Except.map, Nat.div_eq_of_lt this]
  · -- align the divisor with the numerator's top bit, then run the loop
    set shift := num.toNat.size - d.toNat.size with hshift
    have hnumlt : num.toNat < 2 ^ (d.toNat.size + shift) := by
      rw [show d.toNat.size + shift = num.toNat.size by omega]
      exact Nat.lt_size_self _
    have hshl : (d.shl shift).toNat = d.toNat * 2 ^ shift := by
      rw [toNat_shl, Nat.mod_eq_of_lt]
      calc d.toNat * 2 ^ shift < 2 ^ d.toNat.size * 2 ^ shift :=
            Nat.mul_lt_mul_of_pos_right (Nat.lt_size_self _) (Nat.two_pow_pos _)
        _ = 2 ^ num.toNat.size := by rw [← Nat.pow_add]; congr 1; omega
        _ ≤ 2 ^ (32 * (BITS / 32)) := Nat.pow_le_pow_right (by norm_num) hsize
    have hfit : num.toNat < d.toNat * 2 ^ (shift + 1) := by
      calc num.toNat < 2 ^ (d.toNat.size + shift) := hnumlt
        _ = 2 ^ (d.toNat.size - 1) * 2 ^ (shift + 1) := by rw [← Nat.pow_add]; congr 1; omega
        _ ≤ d.toNat * 2 ^ (shift + 1) := Nat.mul_le_mul_right _ hdlow
    have hloop := divLoop_spec (Nat.pos_of_ne_zero hd) shift num (d.shl shift) zero (by omega)
      hshl (by simp) hfit
    rw [toNat_zero, Nat.zero_add] at hloop
    simp [Except.map, hloop]

end BaseUint

/-- **`base_uint<256>` arithmetic.**  On 256-bit values `a`, `b`: `a *= b` and `a *= b32` are the
products modulo `2^256`; `a /= b` throws `uint_error("Division by zero")` for `b = 0` and is the
quotient otherwise; `a <<= shift` is `a * 2^shift` modulo `2^256`; `a >>= shift` is
`a / 2^shift`; and `bits()` is the bit length of `a`. -/
theorem arith_uint256_spec (a b : ArithUint256) (b32 : UInt32) (shift : Nat) :
    (a * b).toNat = a.toNat * b.toNat % 2 ^ 256 ∧
      (a.mul32 b32).toNat = a.toNat * b32.toNat % 2 ^ 256 ∧
      Except.map BaseUint.toNat (a.div b) =
        (if b.toNat = 0 then .error "Division by zero" else .ok (a.toNat / b.toNat)) ∧
      (a.shl shift).toNat = a.toNat * 2 ^ shift % 2 ^ 256 ∧
      (a.shr shift).toNat = a.toNat / 2 ^ shift ∧
      a.bits = a.toNat.size :=
  ⟨BaseUint.toNat_mul a b, BaseUint.toNat_mul32 a b32, BaseUint.div_eq a b,
    BaseUint.toNat_shl a shift, BaseUint.toNat_shr a shift, BaseUint.bits_eq_size a⟩


end Unitus
