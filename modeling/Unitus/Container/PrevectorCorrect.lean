import Unitus.Container.Prevector
import Unitus.Lib.Simulation

/-!
# Container — prevector against `std::vector`

The representation invariant of `prevector` and the refinement of `std::vector`: each operation of
`prevector_tester` keeps the invariant and acts on the elements as the vector operation acts on
the vector, so along every run of the tester both hold the same elements.  This holds while the
lengths have room in the `uint32_t` `Size`: `_size` carries `size() + N + 1` for a heap vector and
the growth of `insert` and `push_back` computes `new_size + (new_size >> 1)`, both modulo
`2 ^ 32`.  Without that room an `insert` of `2 ^ 32 - 29` copies into an empty `CScript`-sized
vector wraps `_size` to `0`, an inline tag on a heap block.
-/

namespace Unitus.prevector

variable {N : Nat} {T : Type}

/-! ## The tag -/

section Tag

variable {v : prevector N T}

@[simp] theorem is_direct_eq_true : v.is_direct = true ↔ v._size ≤ N := by
  simp [is_direct]

theorem size_of_direct (h : v._size ≤ N) : v.size = v._size := by
  simp [size, h]

theorem capacity_of_direct (h : v._size ≤ N) : v.capacity = N := by
  simp [capacity, h]

end Tag

/-- The representation invariant: the union holds the inline array exactly when `_size` says so,
its constructed slots are the `size()` elements, `size() ≤ capacity()`, an inline vector's
capacity is `N`, and `_size` is a `uint32_t`.  (`size()` is `_size` inline and `_size - N - 1` on
the heap by its definition.) -/
structure Inv (v : prevector N T) : Prop where
  direct_iff : v._union.IsDirect ↔ v._size ≤ N
  items_length : v._union.items.length = v.size
  size_le_capacity : v.size ≤ v.capacity
  capacity_direct : v._union.IsDirect → v.capacity = N
  size_lt : v._size < 2 ^ 32

/-! ## The two shapes of an invariant-keeping vector -/

/-- An inline vector of the elements `items`. -/
def directOf (items : List T) : prevector N T := ⟨items.length, .direct items⟩

/-- A heap vector of the elements `items` in a block of `c` slots. -/
def indirectOf (c : Nat) (items : List T) : prevector N T := ⟨items.length + N + 1, .indirect c items⟩

section Shapes

variable {items : List T} {c : Nat}

theorem size_directOf (h : items.length ≤ N) :
    (directOf items : prevector N T).size = items.length :=
  size_of_direct h

theorem capacity_directOf (h : items.length ≤ N) :
    (directOf items : prevector N T).capacity = N :=
  capacity_of_direct h

theorem elements_directOf (h : items.length ≤ N) :
    (directOf items : prevector N T).elements = items := by
  rw [elements, size_directOf h]
  exact List.take_length

/-- A heap tag is above `N`. -/
theorem not_indirect_tag_le : ¬items.length + N + 1 ≤ N := by omega

@[simp] theorem size_indirectOf : (indirectOf c items : prevector N T).size = items.length := by
  simp only [size, indirectOf, is_direct, not_indirect_tag_le, decide_false, Bool.false_eq_true,
    if_false]
  omega

@[simp] theorem capacity_indirectOf : (indirectOf c items : prevector N T).capacity = c := by
  simp [capacity, indirectOf, not_indirect_tag_le]

@[simp] theorem elements_indirectOf : (indirectOf c items : prevector N T).elements = items := by
  rw [elements, size_indirectOf]
  exact List.take_length

theorem inv_directOf (h : items.length ≤ N) (h32 : items.length < 2 ^ 32) :
    Inv (directOf items : prevector N T) where
  direct_iff := iff_of_true trivial h
  items_length := (size_directOf h).symm
  size_le_capacity := by rw [size_directOf h, capacity_directOf h]; exact h
  capacity_direct _ := capacity_directOf h
  size_lt := h32

theorem inv_indirectOf (hc : items.length ≤ c) (h32 : items.length + N + 1 < 2 ^ 32) :
    Inv (indirectOf c items : prevector N T) where
  direct_iff := iff_of_false id not_indirect_tag_le
  items_length := size_indirectOf.symm
  size_le_capacity := by rw [size_indirectOf, capacity_indirectOf]; exact hc
  capacity_direct h := absurd h id
  size_lt := h32

end Shapes

/-- **Shape of an invariant-keeping vector.**  It is an inline vector of at most `N` elements, or a
heap vector whose elements fit in its block and whose tag is below `2 ^ 32`. -/
theorem Inv.shape {v : prevector N T} (h : Inv v) :
    (∃ items, v = directOf items ∧ items.length ≤ N) ∨
      ∃ c items, v = indirectOf c items ∧ items.length ≤ c ∧ items.length + N + 1 < 2 ^ 32 := by
  obtain ⟨_size, u⟩ := v
  have hlen := h.items_length
  have hcap := h.size_le_capacity
  have hlt := h.size_lt
  cases u with
  | direct items =>
    -- the inline array: the tag is the element count
    have hle : _size ≤ N := h.direct_iff.mp trivial
    have hsize : size (⟨_size, .direct items⟩ : prevector N T) = _size := size_of_direct hle
    rw [hsize, direct_or_indirect.items_direct] at hlen
    subst hlen
    exact .inl ⟨items, rfl, hle⟩
  | indirect c items =>
    -- a heap block: the tag is the element count plus `N + 1`
    have hgt : ¬_size ≤ N := fun hle => h.direct_iff.mpr hle
    have hsize : size (⟨_size, .indirect c items⟩ : prevector N T) = _size - N - 1 := by
      simp [size, hgt]
    rw [hsize, direct_or_indirect.items_indirect] at hlen
    have htag : _size = items.length + N + 1 := by omega
    subst htag
    change (indirectOf c items).size ≤ (indirectOf c items).capacity at hcap
    rw [size_indirectOf, capacity_indirectOf] at hcap
    exact .inr ⟨c, items, rfl, hcap, hlt⟩

/-- Under the invariant the elements are `size()` many. -/
theorem Inv.size_eq {v : prevector N T} (h : Inv v) : v.size = v.elements.length := by
  rw [elements, List.length_take, h.items_length, Nat.min_self]

theorem Inv.size_of_elements {v : prevector N T} {l : List T} (h : Inv v) (he : v.elements = l) :
    v.size = l.length := by
  rw [h.size_eq, he]

/-! ## What each step does to the two shapes -/

section Steps

variable {items : List T} {c c₀ : Nat}

theorem is_direct_directOf (h : items.length ≤ N) :
    (directOf items : prevector N T).is_direct = true :=
  is_direct_eq_true.mpr h

theorem is_direct_indirectOf : (indirectOf c items : prevector N T).is_direct = false :=
  decide_eq_false not_indirect_tag_le

theorem change_capacity_directOf (h : items.length ≤ N) (h32 : items.length + N + 1 < 2 ^ 32) :
    (directOf items : prevector N T).change_capacity c =
      if c ≤ N then directOf items else indirectOf c items := by
  unfold change_capacity
  rw [is_direct_directOf h, size_directOf h]
  by_cases hc : c ≤ N
  · simp [hc]
  · -- `malloc`: the tag moves up by `N + 1`, within `Size`
    simp only [hc, if_false, Bool.not_true, Bool.false_eq_true]
    change (⟨(items.length + (N + 1)) % 2 ^ 32, .indirect c (items.take items.length)⟩ :
      prevector N T) = ⟨items.length + N + 1, .indirect c items⟩
    rw [List.take_length, Nat.mod_eq_of_lt (by omega), Nat.add_assoc]

theorem change_capacity_indirectOf (hc : items.length ≤ c) :
    (indirectOf c₀ items : prevector N T).change_capacity c =
      if c ≤ N then directOf items else indirectOf c items := by
  unfold change_capacity
  rw [is_direct_indirectOf, size_indirectOf]
  by_cases hcN : c ≤ N
  · -- back inline: the tag moves down by `N + 1`
    simp only [hcN, if_true, Bool.not_false, if_true]
    change (⟨items.length + N + 1 - (N + 1), .direct (items.take items.length)⟩ :
      prevector N T) = ⟨items.length, .direct items⟩
    rw [List.take_length, Nat.add_assoc, Nat.add_sub_cancel]
  · simp only [hcN, if_false, Bool.not_false, if_true]
    change (⟨items.length + N + 1, .indirect c (items.take c)⟩ : prevector N T) =
      ⟨items.length + N + 1, .indirect c items⟩
    rw [List.take_of_length_le hc]

/-- A step that adds `k` to the tag and `k` slots to an inline vector keeps it inline. -/
theorem retag_directOf (g : List T → List T) (k : Nat) (hg : (g items).length = items.length + k)
    (h32 : items.length + k < 2 ^ 32) :
    (⟨((directOf items : prevector N T)._size + k) % 2 ^ 32,
      (directOf items : prevector N T)._union.modify g⟩ : prevector N T) = directOf (g items) := by
  simp only [directOf, direct_or_indirect.modify_direct, hg, Nat.mod_eq_of_lt h32]

/-- A step that adds `k` to the tag and `k` slots to a heap vector keeps it on the heap. -/
theorem retag_indirectOf (g : List T → List T) (k : Nat) (hg : (g items).length = items.length + k)
    (h32 : items.length + k + N + 1 < 2 ^ 32) :
    (⟨((indirectOf c items : prevector N T)._size + k) % 2 ^ 32,
      (indirectOf c items : prevector N T)._union.modify g⟩ : prevector N T) =
      indirectOf c (g items) := by
  simp only [indirectOf, direct_or_indirect.modify_indirect, hg]
  rw [Nat.mod_eq_of_lt (by omega)]
  congr 1
  omega

/-- Each `_size--` of `erase` is a plain decrement while `_size` is positive. -/
theorem destroy_eq {v : prevector N T} {k : Nat} (hk : k ≤ v._size) :
    v.destroy k = ⟨v._size - k, v._union⟩ := by
  induction k generalizing v with
  | zero => rfl
  | succ k ih =>
    have hpos : v._size ≠ 0 := by omega
    rw [destroy, if_neg hpos, ih (by simp only; omega)]
    simp only [Nat.sub_sub, Nat.add_comm 1 k]

theorem erase_directOf {f e : Nat} (hfe : f ≤ e) (he : e ≤ items.length) :
    (directOf items : prevector N T).erase f e = directOf (items.take f ++ items.drop e) := by
  have hk : e - f ≤ (directOf items : prevector N T)._size := by simp only [directOf]; omega
  rw [erase, destroy_eq hk]
  simp only [directOf, direct_or_indirect.modify_direct, List.length_append, List.length_take,
    List.length_drop]
  congr 1
  omega

theorem erase_indirectOf {f e : Nat} (hfe : f ≤ e) (he : e ≤ items.length) :
    (indirectOf c items : prevector N T).erase f e =
      indirectOf c (items.take f ++ items.drop e) := by
  have hk : e - f ≤ (indirectOf c items : prevector N T)._size := by simp only [indirectOf]; omega
  rw [erase, destroy_eq hk]
  simp only [indirectOf, direct_or_indirect.modify_indirect, List.length_append, List.length_take,
    List.length_drop]
  congr 1
  omega

end Steps

/-! ## The building blocks against the elements -/

/-- Room in `Size` for a vector of `L` elements: the growth `L + (L >> 1)` of `insert` and
`push_back` and the heap tag `L + N + 1` stay below `2 ^ 32`. -/
def Fits (N L : Nat) : Prop := L + L / 2 < 2 ^ 32 ∧ L + N + 1 < 2 ^ 32

instance (N L : Nat) : Decidable (Fits N L) := inferInstanceAs (Decidable (_ ∧ _))

section Spec

variable {v : prevector N T}

theorem Inv.change_capacity (h : Inv v) {c : Nat} (hc : v.size ≤ c)
    (h32 : v.size + N + 1 < 2 ^ 32) :
    Inv (v.change_capacity c) ∧ (v.change_capacity c).elements = v.elements ∧
      c ≤ (v.change_capacity c).capacity := by
  rcases h.shape with ⟨items, rfl, hle⟩ | ⟨c₀, items, rfl, hc₀, h32'⟩
  · -- an inline vector stays inline, or moves to a block of `c` slots
    rw [size_directOf hle] at hc h32
    rw [change_capacity_directOf hle h32]
    split_ifs with hcN
    · exact ⟨h, rfl, by rw [capacity_directOf hle]; exact hcN⟩
    · exact ⟨inv_indirectOf hc h32, by rw [elements_indirectOf, elements_directOf hle], by simp⟩
  · -- a heap vector moves inline, or to a block of `c` slots
    rw [size_indirectOf] at hc
    rw [change_capacity_indirectOf hc]
    split_ifs with hcN
    · have hle : items.length ≤ N := Nat.le_trans hc hcN
      exact ⟨inv_directOf hle (by omega), by rw [elements_directOf hle, elements_indirectOf],
        by rw [capacity_directOf hle]; exact hcN⟩
    · exact ⟨inv_indirectOf hc h32', by simp, by simp⟩

theorem Inv.construct (h : Inv v) (x : T) (hcap : v.size < v.capacity)
    (h32 : v.size + 1 + N + 1 < 2 ^ 32) :
    Inv (v.construct x) ∧ (v.construct x).elements = v.elements ++ [x] ∧
      (v.construct x).capacity = v.capacity := by
  rcases h.shape with ⟨items, rfl, hle⟩ | ⟨c, items, rfl, hc, -⟩
  · rw [size_directOf hle, capacity_directOf hle] at hcap
    rw [size_directOf hle] at h32
    have hlen : (items ++ [x]).length ≤ N := by simp; omega
    have hw : (directOf items : prevector N T).construct x = directOf (items ++ [x]) :=
      retag_directOf (· ++ [x]) 1 (by simp) (by omega)
    rw [hw, elements_directOf hlen, elements_directOf hle, capacity_directOf hlen,
      capacity_directOf hle]
    exact ⟨inv_directOf hlen (by simp; omega), rfl, rfl⟩
  · rw [size_indirectOf, capacity_indirectOf] at hcap
    rw [size_indirectOf] at h32
    have hw : (indirectOf c items : prevector N T).construct x = indirectOf c (items ++ [x]) :=
      retag_indirectOf (· ++ [x]) 1 (by simp) (by omega)
    rw [hw]
    exact ⟨inv_indirectOf (by simp; omega) (by simp; omega), by simp, by simp⟩

/-- The range loop constructs its elements after the present ones. -/
theorem Inv.constructRange (xs : List T) (h : Inv v) (hcap : v.size + xs.length ≤ v.capacity)
    (h32 : v.size + xs.length + N + 1 < 2 ^ 32) :
    Inv (v.constructRange xs) ∧ (v.constructRange xs).elements = v.elements ++ xs := by
  induction xs generalizing v with
  | nil => exact ⟨h, (List.append_nil _).symm⟩
  | cons x xs ih =>
    simp only [List.length_cons] at hcap h32
    obtain ⟨hw, hel, hcapw⟩ := h.construct x (by omega) (by omega)
    have hsize := hw.size_of_elements hel
    rw [List.length_append, List.length_singleton, ← h.size_eq] at hsize
    obtain ⟨hr, hrel⟩ := ih hw (by rw [hsize, hcapw]; omega) (by rw [hsize]; omega)
    refine ⟨hr, ?_⟩
    rw [constructRange, hrel, hel, List.append_assoc, List.singleton_append]

/-- The counting loop constructs copies of `val` up to `n` elements, given the turns. -/
theorem Inv.constructUpTo (val : T) {n : Nat} (fuel : Nat) (h : Inv v) (hn : v.size ≤ n)
    (hcap : n ≤ v.capacity) (h32 : n + N + 1 < 2 ^ 32) (hfuel : n - v.size ≤ fuel) :
    Inv (v.constructUpTo n val fuel) ∧
      (v.constructUpTo n val fuel).elements = v.elements ++ List.replicate (n - v.size) val := by
  induction fuel generalizing v with
  | zero =>
    rw [show n - v.size = 0 by omega]
    exact ⟨h, (List.append_nil _).symm⟩
  | succ fuel ih =>
    rw [constructUpTo]
    split_ifs with hlt
    · -- one more copy, and the loop goes on from `size() + 1`
      obtain ⟨hw, hel, hcapw⟩ := h.construct val (by omega) (by omega)
      have hsize := hw.size_of_elements hel
      rw [List.length_append, List.length_singleton, ← h.size_eq] at hsize
      obtain ⟨hr, hrel⟩ := ih hw (by omega) (by rw [hcapw]; exact hcap) (by omega)
      refine ⟨hr, ?_⟩
      rw [hrel, hel, hsize, List.append_assoc, List.singleton_append, ← List.replicate_succ,
        show n - (v.size + 1) + 1 = n - v.size by omega]
    · rw [show n - v.size = 0 by omega]
      exact ⟨h, (List.append_nil _).symm⟩

theorem Inv.erase (h : Inv v) {f e : Nat} (hfe : f ≤ e) (he : e ≤ v.size) :
    Inv (v.erase f e) ∧ (v.erase f e).elements = v.elements.take f ++ v.elements.drop e := by
  have hlt := h.size_lt
  rcases h.shape with ⟨items, rfl, hle⟩ | ⟨c, items, rfl, hc, h32⟩
  · rw [size_directOf hle] at he
    have hlen : (items.take f ++ items.drop e).length ≤ N := by simp; omega
    rw [erase_directOf hfe he, elements_directOf hle, elements_directOf hlen]
    exact ⟨inv_directOf hlen (by simp [directOf] at hlt; simp; omega), rfl⟩
  · rw [size_indirectOf] at he
    have hlen : (items.take f ++ items.drop e).length ≤ items.length := by simp; omega
    rw [erase_indirectOf hfe he, elements_indirectOf, elements_indirectOf]
    exact ⟨inv_indirectOf (Nat.le_trans hlen hc) (by omega), rfl⟩

theorem Inv.update (h : Inv v) (pos : Nat) (value : T) :
    Inv (v.update pos value) ∧ (v.update pos value).elements = v.elements.set pos value := by
  have hlt := h.size_lt
  rcases h.shape with ⟨items, rfl, hle⟩ | ⟨c, items, rfl, hc, h32⟩
  · have hlen : (items.set pos value).length ≤ N := by simpa using hle
    have hw : (directOf items : prevector N T).update pos value = directOf (items.set pos value) := by
      simp [update, directOf]
    rw [hw, elements_directOf hle, elements_directOf hlen]
    exact ⟨inv_directOf hlen (by simp [directOf] at hlt; simpa using hlt), rfl⟩
  · have hw : (indirectOf c items : prevector N T).update pos value =
        indirectOf c (items.set pos value) := by
      simp [update, indirectOf]
    rw [hw, elements_indirectOf, elements_indirectOf]
    exact ⟨inv_indirectOf (by simpa using hc) (by simpa using h32), rfl⟩

/-- The growth step leaves the elements and makes room for `n` of them. -/
theorem Inv.grow (h : Inv v) {n : Nat} (hn : v.size ≤ n) (hfit : Fits N n) :
    Inv (v.grow n) ∧ (v.grow n).elements = v.elements ∧ n ≤ (v.grow n).capacity := by
  unfold prevector.grow
  split_ifs with hcap
  · -- `new_size + (new_size >> 1)` does not wrap
    have hm : (n + (n >>> 1)) % 2 ^ 32 = n + n / 2 := by
      rw [Nat.shiftRight_eq_div_pow, Nat.pow_one]
      exact Nat.mod_eq_of_lt hfit.1
    rw [hm]
    obtain ⟨hc, hel, hle⟩ := h.change_capacity (c := n + n / 2) (by omega) (by have := hfit.2; omega)
    exact ⟨hc, hel, Nat.le_trans (by omega) hle⟩
  · exact ⟨h, rfl, Nat.not_lt.mp hcap⟩

theorem Inv.insertItems (h : Inv v) {p : Nat} (xs : List T) (hp : p ≤ v.size)
    (hfit : Fits N (v.size + xs.length)) :
    Inv (v.insertItems p xs) ∧
      (v.insertItems p xs).elements = v.elements.take p ++ xs ++ v.elements.drop p := by
  have hroom := hfit.2
  have hn : (v.size + xs.length) % 2 ^ 32 = v.size + xs.length := Nat.mod_eq_of_lt (by omega)
  obtain ⟨hg, hel, hcap⟩ := h.grow (Nat.le_add_right _ _) hfit
  have hsize := hg.size_of_elements hel
  rw [← h.size_eq] at hsize
  simp only [prevector.insertItems, hn]
  rcases hg.shape with ⟨items, hw, hle⟩ | ⟨c, items, hw, hc, h32⟩
  · -- grown and still inline
    rw [hw] at hel hcap hsize ⊢
    rw [elements_directOf hle] at hel
    rw [capacity_directOf hle] at hcap
    rw [size_directOf hle] at hsize
    have hlen : (items.take p ++ xs ++ items.drop p).length = items.length + xs.length := by
      simp; omega
    have hle' : (items.take p ++ xs ++ items.drop p).length ≤ N := by rw [hlen]; omega
    rw [retag_directOf _ _ hlen (by omega), ← hel, elements_directOf hle']
    exact ⟨inv_directOf hle' (by rw [hlen]; omega), rfl⟩
  · -- grown on the heap
    rw [hw] at hel hcap hsize ⊢
    rw [elements_indirectOf] at hel
    rw [capacity_indirectOf] at hcap
    rw [size_indirectOf] at hsize
    have hlen : (items.take p ++ xs ++ items.drop p).length = items.length + xs.length := by
      simp; omega
    rw [retag_indirectOf _ _ hlen (by omega), ← hel, elements_indirectOf]
    exact ⟨inv_indirectOf (by rw [hlen]; omega) (by rw [hlen]; omega), rfl⟩

theorem Inv.push_back (h : Inv v) (value : T) (hfit : Fits N (v.size + 1)) :
    Inv (v.push_back value) ∧ (v.push_back value).elements = v.elements ++ [value] := by
  unfold prevector.push_back
  rw [Nat.mod_eq_of_lt (by have := hfit.2; omega)]
  obtain ⟨hg, hel, hcap⟩ := h.grow (Nat.le_succ _) hfit
  have hsize := hg.size_of_elements hel
  rw [← h.size_eq] at hsize
  obtain ⟨hc, hel', -⟩ := hg.construct value (by omega) (by have := hfit.2; omega)
  exact ⟨hc, by rw [hel', hel]⟩

theorem Inv.reserve (h : Inv v) {n : Nat} (h32 : v.size + N + 1 < 2 ^ 32) :
    Inv (v.reserve n) ∧ (v.reserve n).elements = v.elements ∧ n ≤ (v.reserve n).capacity := by
  unfold prevector.reserve
  split_ifs with hcap
  · exact h.change_capacity (by have := h.size_le_capacity; omega) h32
  · exact ⟨h, rfl, Nat.not_lt.mp hcap⟩

theorem Inv.shrink_to_fit (h : Inv v) (h32 : v.size + N + 1 < 2 ^ 32) :
    Inv v.shrink_to_fit ∧ v.shrink_to_fit.elements = v.elements := by
  obtain ⟨hc, hel, -⟩ := h.change_capacity (Nat.le_refl _) h32
  exact ⟨hc, hel⟩

/-- `change_capacity(other.size())` and the copy loop, from a vector with no elements: the copy
constructor, and copy assignment after its `resize(0)`. -/
theorem Inv.copyFrom (h : Inv v) (hv : v.elements = []) {other : prevector N T} (ho : Inv other)
    (h32 : other.size + N + 1 < 2 ^ 32) :
    Inv ((v.change_capacity other.size).constructRange other.elements) ∧
      ((v.change_capacity other.size).constructRange other.elements).elements = other.elements := by
  have hs := h.size_of_elements hv
  obtain ⟨h1, hel1, hcap1⟩ := h.change_capacity (c := other.size) (by simp [hs])
    (by simp [hs]; omega)
  have hs1 := h1.size_of_elements (hel1.trans hv)
  obtain ⟨h2, hel2⟩ := h1.constructRange other.elements
    (by rw [hs1, ← ho.size_eq]; simpa using hcap1) (by rw [hs1, ← ho.size_eq]; simpa using h32)
  rw [hel1, hv, List.nil_append] at hel2
  exact ⟨h2, hel2⟩

end Spec

theorem inv_empty : Inv (empty : prevector N T) :=
  show Inv (directOf [] : prevector N T) from inv_directOf (Nat.zero_le _) (Nat.two_pow_pos 32)

@[simp] theorem elements_empty : (empty : prevector N T).elements = [] := rfl

@[simp] theorem size_empty : (empty : prevector N T).size = 0 := size_of_direct (Nat.zero_le N)

/-! ## The operations that construct `T()` -/

section Default

variable [Inhabited T] {v : prevector N T}

/-- `resize` as its three steps: `erase` down to `new_size`, the `reserve` step, and the
construction loop. -/
theorem resize_eq (n : Nat) :
    v.resize n = ((if n < v.size then v.erase n v.size else v).reserve n).constructUpTo n default n :=
  rfl

theorem assign_eq (n : Nat) (val : T) :
    v.assign n val = (v.clear.reserve n).constructUpTo n val n :=
  rfl

theorem assign_range_eq (xs : List T) :
    v.assign_range xs = (v.clear.reserve (xs.length % 2 ^ 32)).constructRange xs :=
  rfl

theorem Inv.resize (h : Inv v) {n : Nat} (h32 : n + N + 1 < 2 ^ 32) :
    Inv (v.resize n) ∧
      (v.resize n).elements = v.elements.take n ++ List.replicate (n - v.elements.length) default := by
  -- `erase` down to `n` elements
  have hshrink : Inv (if n < v.size then v.erase n v.size else v) ∧
      (if n < v.size then v.erase n v.size else v).elements = v.elements.take n := by
    split_ifs with hlt
    · obtain ⟨he, hel⟩ := h.erase (Nat.le_of_lt hlt) (Nat.le_refl _)
      rw [List.drop_eq_nil_of_le (Nat.le_of_eq h.size_eq.symm), List.append_nil] at hel
      exact ⟨he, hel⟩
    · exact ⟨h, (List.take_of_length_le (by rw [← h.size_eq]; omega)).symm⟩
  obtain ⟨h1, hel1⟩ := hshrink
  have hs1 := h1.size_of_elements hel1
  rw [List.length_take] at hs1
  -- room for `n` elements
  obtain ⟨h2, hel2, hcap2⟩ := h1.reserve (n := n) (by omega)
  have hs2 := h2.size_of_elements (hel2.trans hel1)
  rw [List.length_take] at hs2
  -- and `T()` constructed up to `n`
  obtain ⟨h3, hel3⟩ := h2.constructUpTo default n (by omega) hcap2 h32 (by omega)
  rw [resize_eq]
  refine ⟨h3, ?_⟩
  rw [hel3, hel2, hel1, hs2, show n - min n v.elements.length = n - v.elements.length by omega]

theorem Inv.clear (h : Inv v) (h32 : N + 1 < 2 ^ 32) : Inv v.clear ∧ v.clear.elements = [] := by
  obtain ⟨hc, hel⟩ := h.resize (n := 0) (by omega)
  show Inv (v.resize 0) ∧ (v.resize 0).elements = []
  exact ⟨hc, by simpa using hel⟩

theorem Inv.assign (h : Inv v) (val : T) {n : Nat} (h32 : n + N + 1 < 2 ^ 32) :
    Inv (v.assign n val) ∧ (v.assign n val).elements = List.replicate n val := by
  obtain ⟨h1, hel1⟩ := h.clear (by omega)
  have hs1 := h1.size_of_elements hel1
  obtain ⟨h2, hel2, hcap2⟩ := h1.reserve (n := n) (by simp [hs1]; omega)
  have hs2 := h2.size_of_elements (hel2.trans hel1)
  obtain ⟨h3, hel3⟩ := h2.constructUpTo val n (by simp [hs2]) hcap2 h32 (by omega)
  rw [assign_eq]
  exact ⟨h3, by simp [hel3, hel2, hel1, hs2]⟩

theorem Inv.assign_range (h : Inv v) (xs : List T) (h32 : xs.length + N + 1 < 2 ^ 32) :
    Inv (v.assign_range xs) ∧ (v.assign_range xs).elements = xs := by
  obtain ⟨h1, hel1⟩ := h.clear (by omega)
  have hs1 := h1.size_of_elements hel1
  obtain ⟨h2, hel2, hcap2⟩ := h1.reserve (n := xs.length) (by simp [hs1]; omega)
  have hs2 := h2.size_of_elements (hel2.trans hel1)
  obtain ⟨h3, hel3⟩ := h2.constructRange xs (by simpa [hs2] using hcap2) (by simpa [hs2] using h32)
  rw [assign_range_eq, Nat.mod_eq_of_lt (by omega)]
  exact ⟨h3, by simp [hel3, hel2, hel1]⟩

theorem Inv.copy_assign (h : Inv v) {other : prevector N T} (ho : Inv other)
    (h32 : other.size + N + 1 < 2 ^ 32) :
    Inv (v.copy_assign other) ∧ (v.copy_assign other).elements = other.elements := by
  obtain ⟨h1, hel1⟩ := h.clear (by omega)
  exact h1.copyFrom hel1 ho h32

end Default

/-! ## The constructors -/

section Constructors

variable {n : Nat}

theorem inv_ofFill (val : T) (h32 : n + N + 1 < 2 ^ 32) :
    Inv (ofFill n val : prevector N T) ∧ (ofFill n val : prevector N T).elements = List.replicate n val := by
  obtain ⟨h1, hel1, hcap1⟩ := (inv_empty (N := N) (T := T)).change_capacity (c := n) (Nat.zero_le _)
    (by simp; omega)
  have hs1 := h1.size_of_elements hel1
  obtain ⟨h2, hel2⟩ := h1.constructUpTo val n (by simp [hs1]) hcap1 h32 (by omega)
  exact ⟨h2, by simp [ofFill, hel2, hel1, hs1]⟩

theorem inv_ofRange (xs : List T) (h32 : xs.length + N + 1 < 2 ^ 32) :
    Inv (ofRange xs : prevector N T) ∧ (ofRange xs : prevector N T).elements = xs := by
  have hn : xs.length % 2 ^ 32 = xs.length := Nat.mod_eq_of_lt (by omega)
  obtain ⟨h1, hel1, hcap1⟩ := (inv_empty (N := N) (T := T)).change_capacity (c := xs.length)
    (Nat.zero_le _) (by simp; omega)
  have hs1 := h1.size_of_elements hel1
  obtain ⟨h2, hel2⟩ := h1.constructRange xs (by simpa [hs1] using hcap1) (by simpa [hs1] using h32)
  unfold ofRange
  rw [hn]
  exact ⟨h2, by simp [hel2, hel1]⟩

theorem inv_ofSize [Inhabited T] (h32 : n + N + 1 < 2 ^ 32) :
    Inv (ofSize n : prevector N T) ∧ (ofSize n : prevector N T).elements = List.replicate n default := by
  obtain ⟨h1, hel1⟩ := (inv_empty (N := N) (T := T)).resize (n := n) h32
  refine ⟨h1, ?_⟩
  rw [ofSize, hel1]
  simp

theorem inv_copy {other : prevector N T} (ho : Inv other) (h32 : other.size + N + 1 < 2 ^ 32) :
    Inv (copy other) ∧ (copy other).elements = other.elements :=
  inv_empty.copyFrom elements_empty ho h32

end Constructors

/-! ## `prevector_tester` against `std::vector` -/

/-- The operations of `prevector_tester` on the tested vector and the alternate one, with the
copy and move constructors, which replace the tested vector by one built from the alternate. -/
inductive Op (T : Type) where
  | resize (n : Nat)
  | reserve (n : Nat)
  | shrink_to_fit
  | assign (n : Nat) (value : T)
  | assign_range (xs : List T)
  | insert (p : Nat) (value : T)
  | insert_fill (p count : Nat) (value : T)
  | insert_range (p : Nat) (xs : List T)
  | erase (p : Nat)
  | erase_range (first last : Nat)
  | push_back (value : T)
  | pop_back
  | update (p : Nat) (value : T)
  | swap
  | copy
  | move
  | copy_construct
  | move_construct
  | clear

/-- One operation on `pre_vector` and `pre_vector_alt`.  `move()` is `pre_vector =
std::move(pre_vector_alt)` followed by `pre_vector_alt.clear()`. -/
def testerStep [Inhabited T] : Op T → prevector N T × prevector N T → prevector N T × prevector N T
  | .resize n, (v, a) => (v.resize n, a)
  | .reserve n, (v, a) => (v.reserve n, a)
  | .shrink_to_fit, (v, a) => (v.shrink_to_fit, a)
  | .assign n x, (v, a) => (v.assign n x, a)
  | .assign_range xs, (v, a) => (v.assign_range xs, a)
  | .insert p x, (v, a) => (v.insert p x, a)
  | .insert_fill p k x, (v, a) => (v.insert_fill p k x, a)
  | .insert_range p xs, (v, a) => (v.insert_range p xs, a)
  | .erase p, (v, a) => (v.erase_one p, a)
  | .erase_range f e, (v, a) => (v.erase f e, a)
  | .push_back x, (v, a) => (v.push_back x, a)
  | .pop_back, (v, a) => (v.pop_back, a)
  | .update p x, (v, a) => (v.update p x, a)
  | .swap, (v, a) => v.swap a
  | .copy, (v, a) => (v.copy_assign a, a)
  | .move, (v, a) => ((v.move_assign a).1, (v.move_assign a).2.clear)
  | .copy_construct, (_, a) => (copy a, a)
  | .move_construct, (_, a) => move a
  | .clear, (v, a) => (v.clear, a)

/-- The same operation on `real_vector` and `real_vector_alt`, as `std::vector` specifies it; a
vector moved from is empty. -/
def vectorStep [Inhabited T] : Op T → List T × List T → List T × List T
  | .resize n, (l, a) => (l.take n ++ List.replicate (n - l.length) default, a)
  | .reserve _, s => s
  | .shrink_to_fit, s => s
  | .assign n x, (_, a) => (List.replicate n x, a)
  | .assign_range xs, (_, a) => (xs, a)
  | .insert p x, (l, a) => (l.take p ++ x :: l.drop p, a)
  | .insert_fill p k x, (l, a) => (l.take p ++ List.replicate k x ++ l.drop p, a)
  | .insert_range p xs, (l, a) => (l.take p ++ xs ++ l.drop p, a)
  | .erase p, (l, a) => (l.eraseIdx p, a)
  | .erase_range f e, (l, a) => (l.take f ++ l.drop e, a)
  | .push_back x, (l, a) => (l ++ [x], a)
  | .pop_back, (l, a) => (l.dropLast, a)
  | .update p x, (l, a) => (l.set p x, a)
  | .swap, (l, a) => (a, l)
  | .copy, (_, a) => (a, a)
  | .move, (_, a) => (a, [])
  | .copy_construct, (_, a) => (a, a)
  | .move_construct, (_, a) => (a, [])
  | .clear, (_, a) => ([], a)

/-- What `std::vector` requires of each operation: positions within the vector, and a vector to
pop from. -/
def Op.Valid : Op T → List T × List T → Prop
  | .insert p _, (l, _) => p ≤ l.length
  | .insert_fill p _ _, (l, _) => p ≤ l.length
  | .insert_range p _, (l, _) => p ≤ l.length
  | .erase p, (l, _) => p < l.length
  | .erase_range f e, (l, _) => f ≤ e ∧ e ≤ l.length
  | .pop_back, (l, _) => 0 < l.length
  | .update p _, (l, _) => p < l.length
  | .resize _, _ | .reserve _, _ | .shrink_to_fit, _ | .assign _ _, _ | .assign_range _, _
  | .push_back _, _ | .swap, _ | .copy, _ | .move, _ | .copy_construct, _ | .move_construct, _
  | .clear, _ => True

instance Op.decidableValid : (o : Op T) → (s : List T × List T) → Decidable (o.Valid s)
  | .insert p _, (l, _) => inferInstanceAs (Decidable (p ≤ l.length))
  | .insert_fill p _ _, (l, _) => inferInstanceAs (Decidable (p ≤ l.length))
  | .insert_range p _, (l, _) => inferInstanceAs (Decidable (p ≤ l.length))
  | .erase p, (l, _) => inferInstanceAs (Decidable (p < l.length))
  | .erase_range f e, (l, _) => inferInstanceAs (Decidable (f ≤ e ∧ e ≤ l.length))
  | .pop_back, (l, _) => inferInstanceAs (Decidable (0 < l.length))
  | .update p _, (l, _) => inferInstanceAs (Decidable (p < l.length))
  | .resize _, _ | .reserve _, _ | .shrink_to_fit, _ | .assign _ _, _ | .assign_range _, _
  | .push_back _, _ | .swap, _ | .copy, _ | .move, _ | .copy_construct, _ | .move_construct, _
  | .clear, _ => isTrue trivial

/-- The operations the refinement covers: valid for `std::vector`, and leaving both vectors with
room in `Size`. -/
def Allowed [Inhabited T] (N : Nat) (o : Op T) (s : List T × List T) : Prop :=
  o.Valid s ∧ Fits N (vectorStep o s).1.length ∧ Fits N (vectorStep o s).2.length

instance [Inhabited T] (N : Nat) (o : Op T) (s : List T × List T) : Decidable (Allowed N o s) :=
  inferInstanceAs (Decidable (_ ∧ _))

/-- The two vectors of the tester, read as their elements. -/
def elementsPair : prevector N T × prevector N T → List T × List T
  | (v, a) => (v.elements, a.elements)

section Tester

variable [Inhabited T]

/-- **One operation of the tester.**  An allowed operation keeps the invariant of both vectors and
acts on their elements as on the two `std::vector`s. -/
theorem testerStep_refines (o : Op T) (s : prevector N T × prevector N T) (hs : Inv s.1 ∧ Inv s.2)
    (hok : Allowed N o (elementsPair s)) :
    (Inv (testerStep o s).1 ∧ Inv (testerStep o s).2) ∧
      elementsPair (testerStep o s) = vectorStep o (elementsPair s) := by
  obtain ⟨v, a⟩ := s
  obtain ⟨hv, ha⟩ := hs
  dsimp only at hv ha
  obtain ⟨hvalid, hfit, hfitAlt⟩ := hok
  simp only [elementsPair] at hvalid hfit hfitAlt
  have hsz := hv.size_eq
  have hsza := ha.size_eq
  -- each case reads the room it needs off the length `std::vector` ends with
  cases o with
  | resize n =>
    simp only [vectorStep, List.length_append, List.length_take, List.length_replicate] at hfit
    obtain ⟨h, hel⟩ := hv.resize (n := n) (by have := hfit.2; omega)
    exact ⟨⟨h, ha⟩, by simp only [testerStep, vectorStep, elementsPair, hel]⟩
  | reserve n =>
    obtain ⟨h, hel, -⟩ := hv.reserve (n := n) (by have := hfit.2; simp only [vectorStep] at this; omega)
    exact ⟨⟨h, ha⟩, by simp only [testerStep, vectorStep, elementsPair, hel]⟩
  | shrink_to_fit =>
    obtain ⟨h, hel⟩ := hv.shrink_to_fit (by have := hfit.2; simp only [vectorStep] at this; omega)
    exact ⟨⟨h, ha⟩, by simp only [testerStep, vectorStep, elementsPair, hel]⟩
  | assign n x =>
    simp only [vectorStep, List.length_replicate] at hfit
    obtain ⟨h, hel⟩ := hv.assign x (n := n) hfit.2
    exact ⟨⟨h, ha⟩, by simp only [testerStep, vectorStep, elementsPair, hel]⟩
  | assign_range xs =>
    simp only [vectorStep] at hfit
    obtain ⟨h, hel⟩ := hv.assign_range xs hfit.2
    exact ⟨⟨h, ha⟩, by simp only [testerStep, vectorStep, elementsPair, hel]⟩
  | insert p x =>
    simp only [Op.Valid] at hvalid
    have hlen : (vectorStep (.insert p x) (v.elements, a.elements)).1.length = v.size + [x].length := by
      simp [vectorStep]; omega
    rw [hlen] at hfit
    obtain ⟨h, hel⟩ := hv.insertItems (p := p) [x] (by omega) hfit
    exact ⟨⟨h, ha⟩, by simp [testerStep, insert, vectorStep, elementsPair, hel]⟩
  | insert_fill p k x =>
    simp only [Op.Valid] at hvalid
    have hlen : (vectorStep (.insert_fill p k x) (v.elements, a.elements)).1.length =
        v.size + (List.replicate k x).length := by
      simp [vectorStep]; omega
    rw [hlen] at hfit
    obtain ⟨h, hel⟩ := hv.insertItems (p := p) (List.replicate k x) (by omega) hfit
    exact ⟨⟨h, ha⟩, by simp only [testerStep, insert_fill, vectorStep, elementsPair, hel]⟩
  | insert_range p xs =>
    simp only [Op.Valid] at hvalid
    have hlen : (vectorStep (.insert_range p xs) (v.elements, a.elements)).1.length =
        v.size + xs.length := by
      simp [vectorStep]; omega
    rw [hlen] at hfit
    obtain ⟨h, hel⟩ := hv.insertItems (p := p) xs (by omega) hfit
    exact ⟨⟨h, ha⟩, by simp only [testerStep, insert_range, vectorStep, elementsPair, hel]⟩
  | erase p =>
    simp only [Op.Valid] at hvalid
    obtain ⟨h, hel⟩ := hv.erase (Nat.le_succ p) (by omega)
    refine ⟨⟨h, ha⟩, ?_⟩
    simp only [testerStep, erase_one, vectorStep, elementsPair, hel, List.eraseIdx_eq_take_drop_succ]
  | erase_range f e =>
    simp only [Op.Valid] at hvalid
    obtain ⟨h, hel⟩ := hv.erase hvalid.1 (by omega)
    exact ⟨⟨h, ha⟩, by simp only [testerStep, vectorStep, elementsPair, hel]⟩
  | push_back x =>
    have hlen : (vectorStep (.push_back x) (v.elements, a.elements)).1.length = v.size + 1 := by
      simp [vectorStep]; omega
    rw [hlen] at hfit
    obtain ⟨h, hel⟩ := hv.push_back x hfit
    exact ⟨⟨h, ha⟩, by simp only [testerStep, vectorStep, elementsPair, hel]⟩
  | pop_back =>
    obtain ⟨h, hel⟩ := hv.erase (Nat.sub_le v.size 1) (Nat.le_refl _)
    rw [List.drop_eq_nil_of_le (Nat.le_of_eq hsz.symm), List.append_nil] at hel
    refine ⟨⟨h, ha⟩, ?_⟩
    simp only [testerStep, pop_back, vectorStep, elementsPair, List.dropLast_eq_take]
    rw [hel, hsz]
  | update p x =>
    obtain ⟨h, hel⟩ := hv.update p x
    exact ⟨⟨h, ha⟩, by simp only [testerStep, vectorStep, elementsPair, hel]⟩
  | swap => exact ⟨⟨ha, hv⟩, rfl⟩
  | copy =>
    obtain ⟨h, hel⟩ := hv.copy_assign ha (by have := hfit.2; simp only [vectorStep] at this; omega)
    exact ⟨⟨h, ha⟩, by simp only [testerStep, vectorStep, elementsPair, hel]⟩
  | move =>
    -- the alternate vector takes the tested one's storage and is cleared
    obtain ⟨h, hel⟩ := hv.clear (by have := hfitAlt.2; simp only [vectorStep] at this; omega)
    exact ⟨⟨ha, h⟩, by simp only [testerStep, move_assign, swap, vectorStep, elementsPair, hel]⟩
  | copy_construct =>
    obtain ⟨h, hel⟩ := inv_copy ha (by have := hfit.2; simp only [vectorStep] at this; omega)
    exact ⟨⟨h, ha⟩, by simp only [testerStep, vectorStep, elementsPair, hel]⟩
  | move_construct =>
    exact ⟨⟨ha, inv_empty⟩, by simp only [testerStep, move, swap, vectorStep, elementsPair,
      elements_empty]⟩
  | clear =>
    obtain ⟨h, hel⟩ := hv.clear (by have := hfit.2; simp only [vectorStep] at this; omega)
    exact ⟨⟨h, ha⟩, by simp only [testerStep, vectorStep, elementsPair, hel]⟩

/-- **`prevector` refines `std::vector`.**  From any two vectors that keep the invariant, along
every run of the tester's operations that are valid for `std::vector` and leave both vectors with
room in `Size`, both vectors keep the invariant and hold the elements the two `std::vector`s hold
after the same operations. -/
theorem prevector_refines_std_vector (ops : List (Op T)) (s : prevector N T × prevector N T)
    (h₁ : Inv s.1) (h₂ : Inv s.2)
    (hops : Simulation.Enabled vectorStep (Allowed N) ops (elementsPair s)) :
    (Inv (Simulation.run testerStep ops s).1 ∧ Inv (Simulation.run testerStep ops s).2) ∧
      elementsPair (Simulation.run testerStep ops s) =
        Simulation.run vectorStep ops (elementsPair s) :=
  Simulation.run_simulates testerStep_refines ops s ⟨h₁, h₂⟩ hops

end Tester

/-- Pushes past the two inline slots, an insert, an erase, and the exchanges between the two
vectors, from two empty ones. -/
theorem prevector_refines_std_vector_sample :
    (Inv (Simulation.run testerStep
        [.push_back 1, .push_back 2, .push_back 3, .insert 0 7, .erase 1, .swap, .copy, .pop_back,
          .resize 5, .shrink_to_fit, .move] ((empty, empty) : prevector 2 Nat × prevector 2 Nat)).1 ∧
      Inv (Simulation.run testerStep
        [.push_back 1, .push_back 2, .push_back 3, .insert 0 7, .erase 1, .swap, .copy, .pop_back,
          .resize 5, .shrink_to_fit, .move] ((empty, empty) : prevector 2 Nat × prevector 2 Nat)).2) ∧
      elementsPair (Simulation.run testerStep
        [.push_back 1, .push_back 2, .push_back 3, .insert 0 7, .erase 1, .swap, .copy, .pop_back,
          .resize 5, .shrink_to_fit, .move] ((empty, empty) : prevector 2 Nat × prevector 2 Nat)) =
        Simulation.run vectorStep
          [.push_back 1, .push_back 2, .push_back 3, .insert 0 7, .erase 1, .swap, .copy,
            .pop_back, .resize 5, .shrink_to_fit, .move]
          (elementsPair ((empty, empty) : prevector 2 Nat × prevector 2 Nat)) :=
  prevector_refines_std_vector _ (empty, empty) inv_empty inv_empty (by decide)

/-- `change_capacity` of an empty `prevector<28, unsigned char>` for `2 ^ 32 - 29` elements grows
it to `(2 ^ 32 - 29) * 3 / 2` slots modulo `2 ^ 32`. -/
theorem grow_empty_wraps :
    (empty : prevector 28 UInt8).grow (2 ^ 32 - 29) = indirectOf 2147483604 [] := by
  have hcap : (empty : prevector 28 UInt8).capacity = 28 := capacity_of_direct (Nat.zero_le _)
  have hm : (2 ^ 32 - 29 + ((2 ^ 32 - 29) >>> 1)) % 2 ^ 32 = 2147483604 := by decide
  unfold grow
  rw [hcap, if_pos (by decide), hm]
  show (directOf [] : prevector 28 UInt8).change_capacity 2147483604 = indirectOf 2147483604 []
  rw [change_capacity_directOf (Nat.zero_le _) (by decide), if_neg (by decide)]

/-- Then `_size += count` takes the heap tag `29` to `2 ^ 32`, that is `0`. -/
theorem insert_fill_empty_wraps :
    (empty : prevector 28 UInt8).insert_fill 0 (2 ^ 32 - 29) 0 =
      ⟨0, .indirect 2147483604 (List.replicate (2 ^ 32 - 29) 0)⟩ := by
  unfold insert_fill insertItems
  rw [List.length_replicate, size_empty, Nat.zero_add,
    show (2 ^ 32 - 29) % 2 ^ 32 = 2 ^ 32 - 29 by decide, grow_empty_wraps]
  -- the tag `28 + 1` of the heap block plus the count is `2 ^ 32`
  have hwrap : ((indirectOf 2147483604 [] : prevector 28 UInt8)._size + (2 ^ 32 - 29)) % 2 ^ 32 =
      0 := by decide
  simp only [hwrap]
  simp only [indirectOf, direct_or_indirect.modify_indirect, List.take_zero, List.nil_append,
    List.drop_nil, List.append_nil]

/-- **Without room in `Size` the refinement fails.**  Inserting `2 ^ 32 - 29` copies at the start of
an empty `prevector<28, unsigned char>`, a valid `std::vector` operation, leaves an inline tag on a
heap block: the invariant is broken and the vector reads as empty. -/
theorem prevector_insert_fill_overflow :
    (Op.insert_fill 0 (2 ^ 32 - 29) (0 : UInt8)).Valid ([], []) ∧
      ¬Inv (Simulation.run testerStep [.insert_fill 0 (2 ^ 32 - 29) (0 : UInt8)]
        ((empty, empty) : prevector 28 UInt8 × prevector 28 UInt8)).1 ∧
      (elementsPair (Simulation.run testerStep [.insert_fill 0 (2 ^ 32 - 29) (0 : UInt8)]
        ((empty, empty) : prevector 28 UInt8 × prevector 28 UInt8))).1 ≠
        (Simulation.run vectorStep [.insert_fill 0 (2 ^ 32 - 29) (0 : UInt8)] ([], [])).1 := by
  have hrun : Simulation.run testerStep [.insert_fill 0 (2 ^ 32 - 29) (0 : UInt8)]
      ((empty, empty) : prevector 28 UInt8 × prevector 28 UInt8) =
      (⟨0, .indirect 2147483604 (List.replicate (2 ^ 32 - 29) 0)⟩, empty) :=
    congrArg (·, empty) insert_fill_empty_wraps
  have hvec : (Simulation.run vectorStep [.insert_fill 0 (2 ^ 32 - 29) (0 : UInt8)] ([], [])).1 =
      [].take 0 ++ List.replicate (2 ^ 32 - 29) 0 ++ [].drop 0 := rfl
  -- the wrapped tag reads as no element, where `std::vector` holds `2 ^ 32 - 29`
  have hsize : (⟨0, .indirect 2147483604 (List.replicate (2 ^ 32 - 29) 0)⟩ :
      prevector 28 UInt8).size = 0 := size_of_direct (Nat.zero_le _)
  have hel : (⟨0, .indirect 2147483604 (List.replicate (2 ^ 32 - 29) 0)⟩ :
      prevector 28 UInt8).elements = [] := by
    rw [elements, hsize, List.take_zero]
  rw [hrun, hvec, List.take_nil, List.drop_nil, List.nil_append, List.append_nil]
  refine ⟨Nat.zero_le _, fun h => h.direct_iff.mpr (Nat.zero_le _), ?_⟩
  show (⟨0, .indirect 2147483604 (List.replicate (2 ^ 32 - 29) 0)⟩ :
    prevector 28 UInt8).elements ≠ _
  rw [hel]
  intro heq
  have hlen := congrArg List.length heq
  rw [List.length_replicate, List.length_nil] at hlen
  exact absurd hlen (by decide)

end Unitus.prevector
