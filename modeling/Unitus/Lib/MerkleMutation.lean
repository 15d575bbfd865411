import Unitus.Lib.MerkleTree

/-!
# Lib — equal roots and equal sibling blocks

Pairing an odd last node with itself lets two different leaf lists have one root: `[a, b, c]`
and `[a, b, c, c]` do.  With an injective node hash this is the only way it can happen.

* `equalPairBelow_of_rootAt_eq`, `equalPairBelow_of_rootByLevels_eq`: if two different
  non-empty lists of the same depth have one root, one of them has two complete sibling blocks
  with equal nodes;
* `rootByLevels_append_dup`, `equalPairBelow_append_dup`: repeating the last complete block of a
  list of odd width keeps the root and makes such a pair.
-/

namespace MerkleTree

variable {α : Type*}

/-! ### Blocks of a prefix and of a suffix -/

theorem chunk_take {l : List α} {m k i : Nat} (h : (i + 1) * 2 ^ k ≤ m) :
    chunk k i (l.take m) = chunk k i l := by
  rw [Nat.add_mul, one_mul] at h
  rw [chunk, chunk, List.drop_take, List.take_take, min_eq_left (by omega)]

theorem chunk_drop {l : List α} {m k i : Nat} (h : 2 ^ k ∣ m) :
    chunk k i (l.drop m) = chunk k (i + m / 2 ^ k) l := by
  rw [chunk, chunk, List.drop_drop, Nat.add_mul, Nat.div_mul_cancel h, Nat.add_comm m]

/-- The two halves of a list that spans both halves of a tree of height `k + 1`. -/
theorem halves_of_lt {l : List α} {k : Nat} (hlt : 2 ^ k < l.length) (hle : l.length ≤ 2 ^ (k + 1)) :
    l.take (2 ^ k) ≠ [] ∧ l.drop (2 ^ k) ≠ [] ∧ (l.take (2 ^ k)).length ≤ 2 ^ k ∧
      (l.drop (2 ^ k)).length ≤ 2 ^ k := by
  have hpos := Nat.two_pow_pos k
  rw [pow_succ] at hle
  refine ⟨?_, ?_, ?_, ?_⟩
  · exact List.ne_nil_of_length_pos (by rw [List.length_take]; omega)
  · exact List.ne_nil_of_length_pos (by rw [List.length_drop]; omega)
  · exact List.length_take_le _ _
  · rw [List.length_drop]
    omega

/-- An odd last node repeated: one level up, nothing changes. -/
theorem levelUp_append_dup (hash2 : α → α → α) :
    ∀ (ys : List α) (x : α), ys.length % 2 = 0 →
      levelUp hash2 (ys ++ [x, x]) = levelUp hash2 (ys ++ [x])
  | [], _, _ => rfl
  | [_], _, h => by simp at h
  | a :: b :: rest, x, h => by
    simp only [List.cons_append, levelUp]
    rw [levelUp_append_dup hash2 rest x (by simp only [List.length_cons] at h; omega)]

variable (hash2 : α → α → α) [Inhabited α]

theorem node_take {l : List α} {m k i : Nat} (h : (i + 1) * 2 ^ k ≤ m) :
    node hash2 (l.take m) k i = node hash2 l k i := by
  rw [node, node, chunk_take h]

theorem node_drop {l : List α} {m k i : Nat} (h : 2 ^ k ∣ m) :
    node hash2 (l.drop m) k i = node hash2 l k (i + m / 2 ^ k) := by
  rw [node, node, chunk_drop h]

theorem node_append_left {l r : List α} {k i : Nat} (h : (i + 1) * 2 ^ k ≤ l.length) :
    node hash2 (l ++ r) k i = node hash2 l k i := by
  rw [← node_take hash2 h, List.take_left' rfl]

theorem rootAt_succ_of_le {l : List α} {k : Nat} (h : l.length ≤ 2 ^ k) :
    rootAt hash2 (k + 1) l = hash2 (rootAt hash2 k l) (rootAt hash2 k l) := by
  simp only [rootAt, if_pos h, List.take_of_length_le h]

theorem rootAt_succ_of_lt {l : List α} {k : Nat} (h : 2 ^ k < l.length) :
    rootAt hash2 (k + 1) l =
      hash2 (rootAt hash2 k (l.take (2 ^ k))) (rootAt hash2 k (l.drop (2 ^ k))) := by
  simp only [rootAt, if_neg (Nat.not_le.mpr h)]

/-- The root by levels is the root of the tree whose height is the depth. -/
theorem rootByLevels_eq_rootAt {l : List α} (hl : l ≠ []) :
    rootByLevels hash2 l = rootAt hash2 (Nat.clog 2 l.length) l := by
  rw [rootByLevels_eq hash2 hl, node, chunk_zero_of_le (Nat.le_pow_clog (by norm_num) _)]

/-! ### Pairs of a part are pairs of the whole -/

/-- A pair among the first `m` leaves is a pair of the whole list. -/
theorem equalPairBelow_take {l : List α} {m : Nat}
    (h : EqualPairBelow hash2 (l.take m) (l.take m).length) :
    EqualPairBelow hash2 l l.length := by
  obtain ⟨j, i, hle, heq⟩ := h
  rw [List.length_take] at hle
  have hleft : (2 * i + 1) * 2 ^ j ≤ (2 * i + 2) * 2 ^ j := Nat.mul_le_mul_right _ (by omega)
  rw [node_take hash2 (by omega), node_take hash2 (show (2 * i + 2) * 2 ^ j ≤ m by omega)] at heq
  exact ⟨j, i, by omega, heq⟩

/-- A pair in the right half `l.drop (2 ^ k)` of at most `2 ^ (k + 1)` leaves is a pair of the
whole list: the right half starts at an even index of every level below `k`. -/
theorem equalPairBelow_drop {l : List α} {k : Nat} (hl : l.length ≤ 2 ^ (k + 1))
    (h : EqualPairBelow hash2 (l.drop (2 ^ k)) (l.drop (2 ^ k)).length) :
    EqualPairBelow hash2 l l.length := by
  obtain ⟨j, i, hle, heq⟩ := h
  rw [List.length_drop] at hle
  have hpair : 2 * 2 ^ j ≤ (2 * i + 2) * 2 ^ j := Nat.mul_le_mul_right _ (by omega)
  -- the pair lies below height `k`
  have hjk : j < k := by
    by_contra hjk
    have : 2 ^ k ≤ 2 ^ j := Nat.pow_le_pow_right (by norm_num) (by omega)
    have := Nat.two_pow_pos j
    rw [pow_succ] at hl
    omega
  obtain ⟨e, rfl⟩ : ∃ e, k = j + 1 + e := ⟨k - (j + 1), by omega⟩
  have hshift : 2 ^ (j + 1 + e) / 2 ^ j = 2 * 2 ^ e := by
    rw [pow_add, pow_succ, Nat.mul_assoc, Nat.mul_div_cancel_left _ (Nat.two_pow_pos j)]
  have hdvd : 2 ^ j ∣ 2 ^ (j + 1 + e) := Nat.pow_dvd_pow 2 (by omega)
  rw [node_drop hash2 hdvd, node_drop hash2 hdvd, hshift] at heq
  have hbound : (2 * (i + 2 ^ e) + 2) * 2 ^ j = (2 * i + 2) * 2 ^ j + 2 ^ (j + 1 + e) := by ring
  refine ⟨j, i + 2 ^ e, by omega, ?_⟩
  rw [show 2 * (i + 2 ^ e) = 2 * i + 2 * 2 ^ e by ring,
    show 2 * i + 2 * 2 ^ e + 1 = 2 * i + 1 + 2 * 2 ^ e by ring]
  exact heq

/-- Two equal halves at height `k` are an equal pair. -/
theorem equalPairBelow_of_halves_eq {l : List α} {k : Nat} (hlt : 2 ^ k < l.length)
    (h : l.take (2 ^ k) = l.drop (2 ^ k)) : EqualPairBelow hash2 l l.length := by
  have hlen : l.length = 2 * 2 ^ k := by
    have h₁ := congrArg List.length h
    rw [List.length_take, List.length_drop] at h₁
    omega
  refine ⟨k, 0, by omega, ?_⟩
  have hright : (l.drop (2 ^ k)).take (2 ^ k) = l.drop (2 ^ k) :=
    List.take_of_length_le (by rw [List.length_drop]; omega)
  simp only [node, chunk, Nat.mul_zero, Nat.zero_mul, Nat.zero_add, Nat.one_mul, List.drop_zero,
    hright, h]

/-! ### Equal roots force an equal pair -/

/-- **Equal roots of different leaf lists force an equal pair.**  If the node hash is
injective, two different non-empty lists of at most `2 ^ k` leaves with one root at height `k`
have, one or the other, two complete sibling blocks with equal nodes.  By induction on `k`: the
roots' children are equal, so either the lists differ in a half, where the induction applies, or
one list's two halves have one root. -/
theorem equalPairBelow_of_rootAt_eq (hinj : Function.Injective2 hash2) :
    ∀ k (X Y : List α), X ≠ Y → X ≠ [] → Y ≠ [] → X.length ≤ 2 ^ k → Y.length ≤ 2 ^ k →
      rootAt hash2 k X = rootAt hash2 k Y →
        EqualPairBelow hash2 X X.length ∨ EqualPairBelow hash2 Y Y.length
  | 0, X, Y, hXY, hX, hY, hXk, hYk, heq => by
    -- one leaf each, and the root is the leaf
    have hX₁ := List.length_pos_iff.mpr hX
    have hY₁ := List.length_pos_iff.mpr hY
    rw [pow_zero] at hXk hYk
    obtain ⟨x, rfl⟩ := List.length_eq_one_iff.mp (show X.length = 1 by omega)
    obtain ⟨y, rfl⟩ := List.length_eq_one_iff.mp (show Y.length = 1 by omega)
    simp only [rootAt, List.headD_cons] at heq
    exact absurd (congrArg (fun a => [a]) heq) hXY
  | k + 1, X, Y, hXY, hX, hY, hXk, hYk, heq => by
    have ih := equalPairBelow_of_rootAt_eq hinj k
    -- a list across both halves whose halves have one root has an equal pair
    have halves : ∀ Z : List α, 2 ^ k < Z.length → Z.length ≤ 2 ^ (k + 1) →
        rootAt hash2 k (Z.take (2 ^ k)) = rootAt hash2 k (Z.drop (2 ^ k)) →
          EqualPairBelow hash2 Z Z.length := by
      intro Z hlt hle hroot
      obtain ⟨h₁, h₂, h₃, h₄⟩ := halves_of_lt hlt hle
      by_cases hZ : Z.take (2 ^ k) = Z.drop (2 ^ k)
      · exact equalPairBelow_of_halves_eq hash2 hlt hZ
      · rcases ih _ _ hZ h₁ h₂ h₃ h₄ hroot with h | h
        · exact equalPairBelow_take hash2 h
        · exact equalPairBelow_drop hash2 hle h
    rcases le_or_gt X.length (2 ^ k) with hXle | hXlt <;>
      rcases le_or_gt Y.length (2 ^ k) with hYle | hYlt
    · -- both in the left half: the trees of height `k` decide
      rw [rootAt_succ_of_le hash2 hXle, rootAt_succ_of_le hash2 hYle] at heq
      exact ih X Y hXY hX hY hXle hYle (hinj heq).1
    · -- the halves of `Y` both have the root of `X`
      rw [rootAt_succ_of_le hash2 hXle, rootAt_succ_of_lt hash2 hYlt] at heq
      obtain ⟨h₁, h₂⟩ := hinj heq
      exact .inr (halves Y hYlt hYk (h₁.symm.trans h₂))
    · rw [rootAt_succ_of_lt hash2 hXlt, rootAt_succ_of_le hash2 hYle] at heq
      obtain ⟨h₁, h₂⟩ := hinj heq
      exact .inl (halves X hXlt hXk (h₁.trans h₂.symm))
    · -- both across two halves: they differ in the left halves or in the right ones
      rw [rootAt_succ_of_lt hash2 hXlt, rootAt_succ_of_lt hash2 hYlt] at heq
      obtain ⟨hl, hr⟩ := hinj heq
      obtain ⟨hX₁, hX₂, hX₃, hX₄⟩ := halves_of_lt hXlt hXk
      obtain ⟨hY₁, hY₂, hY₃, hY₄⟩ := halves_of_lt hYlt hYk
      by_cases hleft : X.take (2 ^ k) = Y.take (2 ^ k)
      · have hright : X.drop (2 ^ k) ≠ Y.drop (2 ^ k) := fun h =>
          hXY (by rw [← List.take_append_drop (2 ^ k) X, hleft, h, List.take_append_drop])
        exact (ih _ _ hright hX₂ hY₂ hX₄ hY₄ hr).imp (equalPairBelow_drop hash2 hXk)
          (equalPairBelow_drop hash2 hYk)
      · exact (ih _ _ hleft hX₁ hY₁ hX₃ hY₃ hl).imp (equalPairBelow_take hash2)
          (equalPairBelow_take hash2)

/-- **Equal roots force an equal pair**, for the root by levels of two lists of one depth. -/
theorem equalPairBelow_of_rootByLevels_eq (hinj : Function.Injective2 hash2) {X Y : List α}
    (hXY : X ≠ Y) (hX : X ≠ []) (hY : Y ≠ [])
    (hdepth : Nat.clog 2 X.length = Nat.clog 2 Y.length)
    (heq : rootByLevels hash2 X = rootByLevels hash2 Y) :
    EqualPairBelow hash2 X X.length ∨ EqualPairBelow hash2 Y Y.length := by
  rw [rootByLevels_eq_rootAt hash2 hX, rootByLevels_eq_rootAt hash2 hY, ← hdepth] at heq
  have hYk : Y.length ≤ 2 ^ Nat.clog 2 X.length := hdepth ▸ Nat.le_pow_clog (by norm_num) _
  exact equalPairBelow_of_rootAt_eq hash2 hinj _ X Y hXY hX hY
    (Nat.le_pow_clog (by norm_num) _) hYk heq

/-! ### Repeating the last block -/

/-- The root by levels from the nodes at any height up to the depth. -/
theorem rootByLevels_nodes_eq {l : List α} (hl : l ≠ []) {k : Nat}
    (hk : k ≤ Nat.clog 2 l.length) :
    rootByLevels hash2 ((List.range (width l.length k)).map (node hash2 l k)) =
      rootByLevels hash2 l := by
  rw [rootByLevels_nodes hash2 hl (Nat.clog 2 l.length - k) k (by omega), rootByLevels_eq hash2 hl]

section Dup

variable {l : List α} {w t : Nat}

theorem width_of_dvd {n k : Nat} (h : 2 ^ k ∣ n) : width n k = n / 2 ^ k := by
  rw [width_eq, if_pos (Nat.mod_eq_zero_of_dvd h), Nat.add_zero]

/-- The last block of `2 ^ t` leaves, appended after a list of width `w` at height `t`, is node
`w` at height `t`, as it is node `w - 1` of the list itself. -/
theorem node_append_dup (hn : l.length = w * 2 ^ t) (hw : 1 ≤ w) :
    node hash2 (l ++ l.drop (l.length - 2 ^ t)) t w = node hash2 l t (w - 1) ∧
      node hash2 (l ++ l.drop (l.length - 2 ^ t)) t (w - 1) = node hash2 l t (w - 1) := by
  have hpos := Nat.two_pow_pos t
  have hlast : (w - 1) * 2 ^ t = l.length - 2 ^ t := by rw [Nat.sub_mul, one_mul, hn]
  have hblock : (l.drop (l.length - 2 ^ t)).take (2 ^ t) = l.drop (l.length - 2 ^ t) :=
    List.take_of_length_le (by rw [List.length_drop]; omega)
  refine ⟨?_, node_append_left hash2 (by rw [Nat.sub_add_cancel hw, hn])⟩
  rw [node, node, chunk, chunk, ← hn, List.drop_left' rfl, hlast, hblock]

/-- **Repeating the last block keeps the root.**  For a list of odd width `w > 1` at height
`t`, appending its last `2 ^ t` leaves again turns the odd last node at height `t` into a pair of
equal nodes, which hash to what the odd node hashed to with itself. -/
theorem rootByLevels_append_dup (hn : l.length = w * 2 ^ t) (hodd : w % 2 = 1) (hw : 1 < w) :
    rootByLevels hash2 (l ++ l.drop (l.length - 2 ^ t)) = rootByLevels hash2 l := by
  have hpos := Nat.two_pow_pos t
  have hlt : 2 ^ t < l.length := by
    rw [hn]
    calc 2 ^ t = 1 * 2 ^ t := (one_mul _).symm
      _ < w * 2 ^ t := Nat.mul_lt_mul_of_pos_right hw hpos
  have hlen : (l ++ l.drop (l.length - 2 ^ t)).length = l.length + 2 ^ t := by
    rw [List.length_append, List.length_drop]
    omega
  have hl : l ≠ [] := by
    apply List.ne_nil_of_length_pos
    omega
  have hl' : l ++ l.drop (l.length - 2 ^ t) ≠ [] := by
    apply List.ne_nil_of_length_pos
    omega
  have hwidth : width l.length t = w := by
    rw [width_of_dvd (hn ▸ Dvd.intro_left _ rfl), hn, Nat.mul_div_cancel _ hpos]
  have hwidth' : width (l ++ l.drop (l.length - 2 ^ t)).length t = w + 1 := by
    have hlen' : (l ++ l.drop (l.length - 2 ^ t)).length = (w + 1) * 2 ^ t := by
      rw [hlen, hn, Nat.add_mul, one_mul]
    rw [width_of_dvd (hlen' ▸ Dvd.intro_left _ rfl), hlen', Nat.mul_div_cancel _ hpos]
  have hdepth : ∀ m, 2 ^ t < m → t ≤ Nat.clog 2 m := fun m hm =>
    ((Nat.lt_clog_iff_pow_lt (by norm_num)).mpr hm).le
  obtain ⟨hnew, hold⟩ := node_append_dup hash2 hn hw.le
  -- the nodes at height `t`: those of `l`, then its last one again
  have hnodes : (List.range w).map (node hash2 l t) =
      (List.range (w - 1)).map (node hash2 l t) ++ [node hash2 l t (w - 1)] := by
    conv_lhs => rw [show w = w - 1 + 1 by omega]
    rw [List.range_succ, List.map_append, List.map_singleton]
  have hnodes' : (List.range (w + 1)).map (node hash2 (l ++ l.drop (l.length - 2 ^ t)) t) =
      (List.range w).map (node hash2 l t) ++ [node hash2 l t (w - 1)] := by
    rw [List.range_succ, List.map_append, List.map_singleton, hnew]
    congr 1
    refine List.map_congr_left fun i hi => node_append_left hash2 ?_
    have hi : i + 1 ≤ w := List.mem_range.mp hi
    rw [hn]
    exact Nat.mul_le_mul_right _ hi
  have hys : ((List.range (w - 1)).map (node hash2 l t)).length % 2 = 0 := by
    rw [List.length_map, List.length_range]
    omega
  calc rootByLevels hash2 (l ++ l.drop (l.length - 2 ^ t))
      = rootByLevels hash2 ((List.range (w - 1)).map (node hash2 l t) ++
          [node hash2 l t (w - 1), node hash2 l t (w - 1)]) := by
        rw [← rootByLevels_nodes_eq hash2 hl' (hdepth _ (by rw [hlen]; omega)), hwidth', hnodes',
          hnodes,
          List.append_assoc, List.singleton_append]
    _ = rootByLevels hash2 ((List.range (w - 1)).map (node hash2 l t) ++
          [node hash2 l t (w - 1)]) := by
        rw [rootByLevels_of_two_le hash2 (by simp), levelUp_append_dup hash2 _ _ hys,
          ← rootByLevels_of_two_le hash2 (by simp; omega)]
    _ = rootByLevels hash2 l := by
        rw [← hnodes, ← hwidth, rootByLevels_nodes_eq hash2 hl (hdepth _ hlt)]

/-- **Repeating the last block makes an equal pair**: the odd last node at height `t` and the
repeated block. -/
theorem equalPairBelow_append_dup (hn : l.length = w * 2 ^ t) (hodd : w % 2 = 1) :
    EqualPairBelow hash2 (l ++ l.drop (l.length - 2 ^ t))
      (l ++ l.drop (l.length - 2 ^ t)).length := by
  obtain ⟨hnew, hold⟩ := node_append_dup hash2 hn (by omega)
  have hlen : (l ++ l.drop (l.length - 2 ^ t)).length = (w + 1) * 2 ^ t := by
    have : 2 ^ t ≤ l.length := by
      rw [hn]
      exact Nat.le_mul_of_pos_left _ (by omega)
    have := Nat.two_pow_pos t
    rw [List.length_append, List.length_drop, Nat.add_mul, one_mul]
    omega
  refine ⟨t, (w - 1) / 2, by rw [hlen, show 2 * ((w - 1) / 2) + 2 = w + 1 by omega], ?_⟩
  rw [show 2 * ((w - 1) / 2) = w - 1 by omega, show w - 1 + 1 = w by omega, hnew, hold]

end Dup

end MerkleTree
