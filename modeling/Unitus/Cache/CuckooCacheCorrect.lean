import Unitus.Cache.CuckooCache
import Unitus.Lib.Except
import Unitus.Lib.Lists

/-!
# Cache — what `insert` and `contains` keep

Along every run of `insert(e)` and `contains(e, erase)` calls on a cache after `setup(n)`, with
any hash functor (`cache_insert_contains_run`):

* each slot `insert` has written holds an element that has the slot among its eight, and no
  element is in two written slots;
* `contains` finds only elements passed to `insert`, and `Element()`, which fills the slots never
  written;
* `insert(e)` loses one element at most: every element `contains` finds before, and `e`, it finds
  after, but for one (the `@post` of `insert`).

The slots `insert` writes are a ghost of the model: `insertWrites` follows `insert` and lists them.
The invariant `Inv` of a cache and its written slots says the first fact and one about
`Element()`: it is kept (`KeepsDefault`) in one slot at most, a written slot that holds it or a
slot never written that `insert(Element())` asked to keep, and there it is the first of its slots
that holds it.  Without that, `insert(Element())` could find `Element()` in a slot never written
and keep it while `Element()` also sits in a written slot, and the swap that later moves it would
leave it in two.  The element `insert` carries from round to round is `Homeless`: in no written
slot, and, if it is `Element()`, kept nowhere.  Each round keeps both (`Inv.fill`, `Inv.swap`,
`Homeless.swap`); `epoch_check` and `contains` only let more slots be collected (`Frees`), which
keeps `Inv`.

Which elements `contains` finds depends on the table and the mask alone (`Contained`): a round
writes the carried element into one of its slots, which loses at most what the slot held
(`Contained.write`), and that is carried on to the next round.
-/

namespace Unitus

namespace CuckooCache

namespace cache

variable {Element : Type} (hash_function : Fin 8 → Element → UInt32)

/-! ### The slots of an element -/

theorem length_compute_hashes (c : cache Element) (e : Element) :
    (c.compute_hashes hash_function e).length = 8 := by
  simp [compute_hashes]

/-- The slots of an element are at most `hash_mask`. -/
theorem toNat_le_of_mem_compute_hashes {c : cache Element} {e : Element} {loc : UInt32}
    (h : loc ∈ c.compute_hashes hash_function e) : loc.toNat ≤ c.hash_mask.toNat := by
  obtain ⟨i, -, rfl⟩ := List.mem_map.mp h
  rw [UInt32.toNat_and]
  exact Nat.and_le_right

theorem compute_hashes_of_hash_mask {c c' : cache Element} (h : c'.hash_mask = c.hash_mask) :
    c'.compute_hashes hash_function = c.compute_hashes hash_function := by
  funext e
  simp only [compute_hashes, h]

/-- The slot `insert` swaps at is one of the carried element's. -/
theorem getD_mem_compute_hashes (c : cache Element) (e : Element) (i : Nat) :
    (c.compute_hashes hash_function e).getD (i % 8) 0 ∈ c.compute_hashes hash_function e := by
  rw [List.getD_eq_getElem _ _ (by rw [length_compute_hashes]; omega)]
  exact List.getElem_mem _

/-! ### Collection flags -/

theorem bit_is_set_please_keep_of_ne {c : cache Element} {n s : UInt32} (h : s ≠ n) :
    (c.please_keep n).bit_is_set s = c.bit_is_set s :=
  List.getD_set_ne (fun h' => h (UInt32.toNat_inj.mp h').symm) _ _

/-- `c'` holds what `c` holds, with the same size and mask, and lets every slot be collected that
`c` lets be collected: what `epoch_check` and `contains` do to a cache. -/
structure Frees (c c' : cache Element) : Prop where
  table : c'.table = c.table
  size : c'.size = c.size
  hash_mask : c'.hash_mask = c.hash_mask
  bit_is_set : ∀ s, c.bit_is_set s = true → c'.bit_is_set s = true

theorem Frees.refl (c : cache Element) : Frees c c := ⟨rfl, rfl, rfl, fun _ h => h⟩

theorem Frees.trans {c₁ c₂ c₃ : cache Element} (h₁ : Frees c₁ c₂) (h₂ : Frees c₂ c₃) :
    Frees c₁ c₃ :=
  ⟨h₂.table.trans h₁.table, h₂.size.trans h₁.size, h₂.hash_mask.trans h₁.hash_mask,
    fun s h => h₂.bit_is_set s (h₁.bit_is_set s h)⟩

theorem frees_allow_erase (c : cache Element) (n : UInt32) : Frees c (c.allow_erase n) := by
  refine ⟨rfl, rfl, rfl, fun s h => ?_⟩
  simp only [bit_is_set, allow_erase] at h ⊢
  -- a set flag is in range; setting `n` leaves it set
  have hs : s.toNat < c.collection_flags.length := by
    by_contra hge
    rw [List.getD_eq_default _ _ (Nat.le_of_not_lt hge)] at h
    cases h
  by_cases hns : n.toNat = s.toNat
  · rw [hns, List.getD_set_self hs]
  · rw [List.getD_set_ne hns]
    exact h

theorem frees_ageEpochs : ∀ (c : cache Element) (is : List Nat), Frees c (c.ageEpochs is)
  | c, [] => Frees.refl c
  | c, i :: is => by
    refine Frees.trans ?_ (frees_ageEpochs _ is)
    split
    · exact ⟨rfl, rfl, rfl, fun _ h => h⟩
    · exact frees_allow_erase c _

theorem frees_epoch_check (c : cache Element) : Frees c c.epoch_check := by
  unfold epoch_check
  split
  · exact ⟨rfl, rfl, rfl, fun _ h => h⟩
  · dsimp only
    split
    · have h := frees_ageEpochs c (List.range c.size.toNat)
      exact ⟨h.table, h.size, h.hash_mask, h.bit_is_set⟩
    · exact ⟨rfl, rfl, rfl, fun _ h => h⟩

variable [Inhabited Element] [DecidableEq Element]

theorem frees_contains (c : cache Element) (e : Element) (erase : Bool) :
    Frees c (c.contains hash_function e erase).2 := by
  unfold contains
  split
  · cases erase
    · exact Frees.refl c
    · exact frees_allow_erase c _
  · exact Frees.refl c

/-! ### What `contains` finds -/

/-- `e` is in one of its slots: what `contains(e, erase)` reports. -/
def Contained (c : cache Element) (e : Element) : Prop :=
  ∃ loc ∈ c.compute_hashes hash_function e, c.table.getD loc.toNat default = e

theorem contains_iff (c : cache Element) (e : Element) (erase : Bool) :
    (c.contains hash_function e erase).1 = true ↔ Contained hash_function c e := by
  unfold contains Contained
  split
  · next loc h =>
    simp only [true_iff]
    exact ⟨loc, List.mem_of_find?_eq_some h, by simpa using List.find?_some h⟩
  · next h =>
    simp only [Bool.false_eq_true, false_iff, not_exists, not_and]
    intro loc hloc hx
    exact List.find?_eq_none.mp h loc hloc (by simpa using hx)

omit [DecidableEq Element] in
/-- What is found depends on the table and the mask alone. -/
theorem contained_congr {c c' : cache Element} (htable : c'.table = c.table)
    (hmask : c'.hash_mask = c.hash_mask) (x : Element) :
    Contained hash_function c' x ↔ Contained hash_function c x := by
  unfold Contained
  rw [htable, compute_hashes_of_hash_mask hash_function hmask]

omit [DecidableEq Element] in
/-- Writing `e` into `loc`, one of its slots: `e` is found, and so is every element found before
but the one `loc` held. -/
theorem Contained.write {c c' : cache Element} {e : Element} {loc : UInt32}
    (hmask : c'.hash_mask = c.hash_mask) (htable : c'.table = c.table.set loc.toNat e)
    (hmem : loc ∈ c.compute_hashes hash_function e) (hlt : loc.toNat < c.table.length)
    {x : Element} (hx : x = e ∨ (Contained hash_function c x ∧ x ≠ c.table.getD loc.toNat default)) :
    Contained hash_function c' x := by
  unfold Contained
  rw [compute_hashes_of_hash_mask hash_function hmask, htable]
  rcases hx with rfl | ⟨⟨s, hs, hsx⟩, hne⟩
  · exact ⟨loc, hmem, List.getD_set_self hlt _ _⟩
  · refine ⟨s, hs, ?_⟩
    -- `x` is not what `loc` held, so it is in another slot
    have hsl : loc.toNat ≠ s.toNat := fun h => hne (by rw [h, hsx])
    rw [List.getD_set_ne hsl, hsx]

/-! ### The slots `insert` writes -/

/-- The slots the rounds of `insert` write, as `insertLoop` runs: each slot it swaps at, then the
collectable slot it fills. -/
def insertLoopWrites :
    Nat → cache Element → Element → UInt32 → Bool → List UInt32 → List UInt32
  | 0, _, _, _, _, _ => []
  | fuel + 1, c, e, last_loc, last_epoch, locs =>
    match locs.find? c.bit_is_set with
    | some loc => [loc]
    | none =>
      let last_loc := locs.getD ((1 + locs.idxOf last_loc) % 8) 0
      let evicted := c.table.getD last_loc.toNat default
      let evicted_epoch := c.epoch_flags.getD last_loc.toNat false
      let c :=
        { c with
          table := c.table.set last_loc.toNat e
          epoch_flags := c.epoch_flags.set last_loc.toNat last_epoch }
      last_loc :: insertLoopWrites fuel c evicted last_loc evicted_epoch
        (c.compute_hashes hash_function evicted)

/-- The slots `insert(e)` writes. -/
def insertWrites (c : cache Element) (e : Element) : List UInt32 :=
  let c := c.epoch_check
  let locs := c.compute_hashes hash_function e
  match locs.find? (fun loc => c.table.getD loc.toNat default = e) with
  | some _ => []
  | none => insertLoopWrites hash_function c.depth_limit.toNat c e invalid true locs

/-! ### The invariant -/

/-- `Element()` is kept at `s`: a written slot that holds it, or a slot never written that may
not be collected. -/
def KeepsDefault (c : cache Element) (W : List UInt32) (s : UInt32) : Prop :=
  s.toNat < c.size.toNat ∧
    ((s ∈ W ∧ c.table.getD s.toNat default = default) ∨ (s ∉ W ∧ c.bit_is_set s = false))

omit [DecidableEq Element] in
theorem KeepsDefault.congr {c c' : cache Element} {W W' : List UInt32} {s : UInt32}
    (hsize : c'.size = c.size)
    (htable : c'.table.getD s.toNat default = c.table.getD s.toNat default)
    (hbit : c'.bit_is_set s = c.bit_is_set s) (hW : s ∈ W' ↔ s ∈ W)
    (h : KeepsDefault c' W' s) : KeepsDefault c W s := by
  unfold KeepsDefault at h ⊢
  rwa [hsize, htable, hbit, hW] at h

omit [DecidableEq Element] in
/-- A slot that holds `Element()` and may not be collected keeps it. -/
theorem KeepsDefault.of_bit {c : cache Element} {W : List UInt32} {s : UInt32}
    (hlt : s.toNat < c.size.toNat) (hd : c.table.getD s.toNat default = default)
    (hb : c.bit_is_set s = false) : KeepsDefault c W s := by
  by_cases hs : s ∈ W
  · exact ⟨hlt, .inl ⟨hs, hd⟩⟩
  · exact ⟨hlt, .inr ⟨hs, hb⟩⟩

/-- The invariant of a cache whose written slots are `W`. -/
structure Inv (c : cache Element) (W : List UInt32) : Prop where
  table_length : c.table.length = c.size.toNat
  hash_mask_lt : c.hash_mask.toNat < c.size.toNat
  /-- The slots never written hold `Element()`. -/
  unwritten : ∀ s ∉ W, c.table.getD s.toNat default = default
  /-- A written slot is one of its element's. -/
  mem_hashes : ∀ s ∈ W, s ∈ c.compute_hashes hash_function (c.table.getD s.toNat default)
  /-- No element is in two written slots. -/
  inj : ∀ s ∈ W, ∀ t ∈ W, c.table.getD s.toNat default = c.table.getD t.toNat default → s = t
  /-- `Element()` is kept only in the first of its slots that holds it. -/
  default_first : ∀ s, KeepsDefault c W s →
    (c.compute_hashes hash_function default).find?
      (fun loc => c.table.getD loc.toNat default = default) = some s

/-- The element `insert` carries: in no written slot, and, if it is `Element()`, kept nowhere. -/
structure Homeless (c : cache Element) (W : List UInt32) (e : Element) : Prop where
  not_written : ∀ s ∈ W, c.table.getD s.toNat default ≠ e
  not_kept : e = default → ∀ s, ¬ KeepsDefault c W s

section Inv

variable {hash_function} {c : cache Element} {W : List UInt32}

theorem Inv.lt_of_mem_compute_hashes (hi : Inv hash_function c W) {e : Element} {loc : UInt32}
    (h : loc ∈ c.compute_hashes hash_function e) : loc.toNat < c.size.toNat :=
  lt_of_le_of_lt (toNat_le_of_mem_compute_hashes hash_function h) hi.hash_mask_lt

theorem Inv.lt_of_mem (hi : Inv hash_function c W) {s : UInt32} (hs : s ∈ W) :
    s.toNat < c.size.toNat :=
  hi.lt_of_mem_compute_hashes (hi.mem_hashes s hs)

/-- `Element()` is kept in one slot at most. -/
theorem Inv.keeps_unique (hi : Inv hash_function c W) {s t : UInt32} (hs : KeepsDefault c W s)
    (ht : KeepsDefault c W t) : s = t :=
  Option.some.inj ((hi.default_first s hs).symm.trans (hi.default_first t ht))

theorem Inv.frees {c' : cache Element} (hi : Inv hash_function c W) (hfr : Frees c c') :
    Inv hash_function c' W where
  table_length := by rw [hfr.table, hfr.size]; exact hi.table_length
  hash_mask_lt := by rw [hfr.hash_mask, hfr.size]; exact hi.hash_mask_lt
  unwritten := by rw [hfr.table]; exact hi.unwritten
  mem_hashes := by
    rw [hfr.table, compute_hashes_of_hash_mask hash_function hfr.hash_mask]
    exact hi.mem_hashes
  inj := by rw [hfr.table]; exact hi.inj
  default_first s hs := by
    rw [hfr.table, compute_hashes_of_hash_mask hash_function hfr.hash_mask]
    apply hi.default_first s
    -- a slot kept in `c'` was kept in `c`, which let fewer slots be collected
    obtain ⟨hlt, hw | ⟨hw, hb⟩⟩ := hs
    · rw [hfr.size] at hlt
      rw [hfr.table] at hw
      exact ⟨hlt, .inl hw⟩
    · rw [hfr.size] at hlt
      refine ⟨hlt, .inr ⟨hw, ?_⟩⟩
      cases h : c.bit_is_set s
      · rfl
      · rw [hfr.bit_is_set s h] at hb
        cases hb

/-- `insert(e)` found `e` at `loc` and keeps it there. -/
theorem Inv.keep (hi : Inv hash_function c W) {e : Element} {loc : UInt32}
    (hloc : (c.compute_hashes hash_function e).find?
      (fun loc => c.table.getD loc.toNat default = e) = some loc) (flags : List Bool) :
    Inv hash_function { c.please_keep loc with epoch_flags := flags } W where
  table_length := hi.table_length
  hash_mask_lt := hi.hash_mask_lt
  unwritten := hi.unwritten
  mem_hashes := hi.mem_hashes
  inj := hi.inj
  default_first s hs := by
    by_cases hsl : s = loc ∧ s ∉ W
    · -- a slot never written holds `Element()`: `e` is `Element()`, found first at `loc`
      obtain ⟨rfl, hw⟩ := hsl
      have he : c.table.getD s.toNat default = e := by simpa using List.find?_some hloc
      rw [hi.unwritten s hw] at he
      subst he
      exact hloc
    · apply hi.default_first s
      obtain ⟨hlt, hw | ⟨hw, hb⟩⟩ := hs
      · exact ⟨hlt, .inl hw⟩
      · have hs : s ≠ loc := fun h => hsl ⟨h, hw⟩
        exact ⟨hlt, .inr ⟨hw, (bit_is_set_please_keep_of_ne hs).symm.trans hb⟩⟩

/-- Writing the carried `e` into `loc`, one of its slots, keeps the invariant, given that
`Element()` is found first at `loc` if `e` is `Element()`. -/
theorem Inv.write {c' : cache Element} {e : Element} {loc : UInt32}
    (hi : Inv hash_function c W) (hh : Homeless c W e)
    (hmem : loc ∈ c.compute_hashes hash_function e) (hsize : c'.size = c.size)
    (hmask : c'.hash_mask = c.hash_mask) (htable : c'.table = c.table.set loc.toNat e)
    (hbit : ∀ s, s ≠ loc → c'.bit_is_set s = c.bit_is_set s)
    (hfirst : e = default → (c'.compute_hashes hash_function default).find?
      (fun x => c'.table.getD x.toNat default = default) = some loc) :
    Inv hash_function c' (W ++ [loc]) := by
  have hlt : loc.toNat < c.table.length := hi.table_length ▸ hi.lt_of_mem_compute_hashes hmem
  have hget : ∀ s : UInt32, c'.table.getD s.toNat default =
      if s = loc then e else c.table.getD s.toNat default := by
    intro s
    rw [htable]
    split
    · next h => rw [h, List.getD_set_self hlt]
    · next h => exact List.getD_set_ne (fun h' => h (UInt32.toNat_inj.mp h').symm) _ _
  have hhash := compute_hashes_of_hash_mask hash_function hmask
  have hW : ∀ s, s ≠ loc → (s ∈ W ++ [loc] ↔ s ∈ W) := by
    intro s hs
    simp [hs]
  refine ⟨?_, ?_, ?_, ?_, ?_, ?_⟩
  · rw [htable, List.length_set, hsize]
    exact hi.table_length
  · rw [hmask, hsize]
    exact hi.hash_mask_lt
  · intro s hs
    have hsl : s ≠ loc := fun h => hs (by simp [h])
    rw [hget, if_neg hsl]
    exact hi.unwritten s (fun h => hs ((hW s hsl).mpr h))
  · intro s hs
    rw [hhash, hget]
    split
    · next h => rw [h]; exact hmem
    · next h => exact hi.mem_hashes s ((hW s h).mp hs)
  · intro s hs t ht hst
    rw [hget, hget] at hst
    by_cases hsl : s = loc <;> by_cases htl : t = loc
    · rw [hsl, htl]
    · -- `e` was in no written slot
      rw [if_pos hsl, if_neg htl] at hst
      exact absurd hst.symm (hh.not_written t ((hW t htl).mp ht))
    · rw [if_neg hsl, if_pos htl] at hst
      exact absurd hst (hh.not_written s ((hW s hsl).mp hs))
    · rw [if_neg hsl, if_neg htl] at hst
      exact hi.inj s ((hW s hsl).mp hs) t ((hW t htl).mp ht) hst
  · intro s hs
    by_cases hsl : s = loc
    · -- `loc` is written now: it keeps `Element()` only if `e` is `Element()`
      rw [hsl] at hs
      obtain ⟨-, ⟨-, hd⟩ | ⟨hw, -⟩⟩ := hs
      · rw [hget, if_pos rfl] at hd
        rw [hsl]
        exact hfirst hd
      · exact absurd (by simp) hw
    · have hs' : KeepsDefault c W s :=
        KeepsDefault.congr hsize (by rw [hget, if_neg hsl]) (hbit s hsl) (hW s hsl) hs
      have hfind := hi.default_first s hs'
      rw [hhash]
      refine List.find?_eq_some_of_imp hfind ?_ ?_
      · have hsd := List.find?_some hfind
        simp only [decide_eq_true_eq] at hsd ⊢
        rw [hget, if_neg hsl]
        exact hsd
      · intro x _ hx
        simp only [decide_eq_true_eq] at hx ⊢
        by_cases hxl : x = loc
        · -- `Element()` is kept at `s`, so `e` is not `Element()`
          rw [hget, if_pos hxl] at hx
          exact absurd hs' (hh.not_kept hx s)
        · rwa [hget, if_neg hxl] at hx

/-- A round of `insert` that fills `loc`, the first collectable slot of the carried `e`. -/
theorem Inv.fill (hi : Inv hash_function c W) {e : Element} (hh : Homeless c W e) {loc : UInt32}
    (hloc : (c.compute_hashes hash_function e).find? c.bit_is_set = some loc) (flags : List Bool) :
    Inv hash_function
      { c.please_keep loc with table := c.table.set loc.toNat e, epoch_flags := flags }
      (W ++ [loc]) := by
  have hmem := List.mem_of_find?_eq_some hloc
  have hlt : loc.toNat < c.table.length := hi.table_length ▸ hi.lt_of_mem_compute_hashes hmem
  refine hi.write hh hmem rfl rfl rfl (fun s hs => bit_is_set_please_keep_of_ne hs) ?_
  intro he
  subst he
  -- every slot of `Element()` that holds it now is `loc` or collectable, and `loc` is the first
  -- collectable one
  refine List.find?_eq_some_of_imp hloc
    (by simp only [decide_eq_true_eq]; exact List.getD_set_self hlt _ _) ?_
  intro x hx hxd
  by_cases hxl : x = loc
  · rw [hxl]
    exact List.find?_some hloc
  · have hd : c.table.getD x.toNat default = default := by
      have hxl' : loc.toNat ≠ x.toNat := fun h => hxl (UInt32.toNat_inj.mp h).symm
      simp only [decide_eq_true_eq] at hxd
      rwa [List.getD_set_ne hxl'] at hxd
    cases hb : c.bit_is_set x
    · exact absurd (KeepsDefault.of_bit (hi.lt_of_mem_compute_hashes hx) hd hb)
        (hh.not_kept rfl x)
    · rfl

/-- A round of `insert` that finds no collectable slot and swaps the carried `e` into `loc`, one
of its slots. -/
theorem Inv.swap (hi : Inv hash_function c W) {e : Element} (hh : Homeless c W e) {loc : UInt32}
    (hnone : (c.compute_hashes hash_function e).find? c.bit_is_set = none)
    (hmem : loc ∈ c.compute_hashes hash_function e) (flags : List Bool) :
    Inv hash_function { c with table := c.table.set loc.toNat e, epoch_flags := flags }
      (W ++ [loc]) := by
  have hlt : loc.toNat < c.table.length := hi.table_length ▸ hi.lt_of_mem_compute_hashes hmem
  refine hi.write hh hmem rfl rfl rfl (fun _ _ => rfl) ?_
  intro he
  subst he
  -- every slot of `Element()` is written and may not be collected; none held it, `loc` does now
  refine List.find?_eq_some_of_unique hmem
    (by simp only [decide_eq_true_eq]; exact List.getD_set_self hlt _ _) ?_
  intro x hx hxd
  by_contra hxl
  have hd : c.table.getD x.toNat default = default := by
    have hxl' : loc.toNat ≠ x.toNat := fun h => hxl (UInt32.toNat_inj.mp h).symm
    simp only [decide_eq_true_eq] at hxd
    rwa [List.getD_set_ne hxl'] at hxd
  have hb : c.bit_is_set x = false := by
    simpa using List.find?_eq_none.mp hnone x hx
  exact hh.not_kept rfl x (KeepsDefault.of_bit (hi.lt_of_mem_compute_hashes hx) hd hb)

/-- After the swap, the element `loc` held is the one carried, and it is homeless. -/
theorem Homeless.swap (hi : Inv hash_function c W) {e : Element} (hh : Homeless c W e)
    {loc : UInt32} (hnone : (c.compute_hashes hash_function e).find? c.bit_is_set = none)
    (hmem : loc ∈ c.compute_hashes hash_function e) (flags : List Bool) :
    Homeless { c with table := c.table.set loc.toNat e, epoch_flags := flags } (W ++ [loc])
      (c.table.getD loc.toNat default) := by
  have hlt : loc.toNat < c.table.length := hi.table_length ▸ hi.lt_of_mem_compute_hashes hmem
  have hb : c.bit_is_set loc = false := by
    simpa using List.find?_eq_none.mp hnone loc hmem
  have hkeep : c.table.getD loc.toNat default = default → KeepsDefault c W loc :=
    fun hd => KeepsDefault.of_bit (hi.lt_of_mem_compute_hashes hmem) hd hb
  -- `loc` did not hold `e`: a written slot holds no `e`, a slot never written holds
  -- `Element()`, which `e` is not, as it would be kept at `loc`
  have hne : c.table.getD loc.toNat default ≠ e := by
    intro hXe
    by_cases hw : loc ∈ W
    · exact hh.not_written loc hw hXe
    · have hd := hi.unwritten loc hw
      exact hh.not_kept (hXe.symm.trans hd) loc (hkeep hd)
  have hget : ∀ s : UInt32, s ≠ loc →
      (c.table.set loc.toNat e).getD s.toNat default = c.table.getD s.toNat default :=
    fun s hs => List.getD_set_ne (fun h => hs (UInt32.toNat_inj.mp h).symm) _ _
  constructor
  · intro s hs hsX
    by_cases hsl : s = loc
    · rw [hsl, List.getD_set_self hlt] at hsX
      exact hne hsX.symm
    · rw [hget s hsl] at hsX
      have hsW : s ∈ W := by simpa [hsl] using hs
      by_cases hw : loc ∈ W
      · exact hsl (hi.inj s hsW loc hw hsX)
      · -- both `s` and `loc` would keep `Element()`
        have hd := hi.unwritten loc hw
        exact hsl (hi.keeps_unique ⟨hi.lt_of_mem hsW, .inl ⟨hsW, hsX.trans hd⟩⟩ (hkeep hd))
  · intro hXd s hs
    by_cases hsl : s = loc
    · rw [hsl] at hs
      obtain ⟨-, ⟨-, hd⟩ | ⟨hw, -⟩⟩ := hs
      · rw [List.getD_set_self hlt] at hd
        exact hne (hXd.trans hd.symm)
      · exact hw (by simp)
    · have hs' : KeepsDefault c W s := by
        refine KeepsDefault.congr ?_ ?_ ?_ ?_ hs
        · rfl
        · exact hget s hsl
        · rfl
        · simp [hsl]
      exact hsl (hi.keeps_unique hs' (hkeep hXd))

/-- `insert(e)` found `e` in none of its slots: `e` is homeless. -/
theorem Inv.homeless (hi : Inv hash_function c W) {e : Element}
    (h : (c.compute_hashes hash_function e).find?
      (fun loc => c.table.getD loc.toNat default = e) = none) : Homeless c W e where
  not_written s hs hse :=
    List.find?_eq_none.mp h s (hse ▸ hi.mem_hashes s hs) (by simpa using hse)
  not_kept he s hs := by
    subst he
    have hfind := hi.default_first s hs
    have hsd := List.find?_some hfind
    exact List.find?_eq_none.mp h s (List.mem_of_find?_eq_some hfind) hsd

end Inv

/-- **Step.** The rounds of `insert` keep the invariant, with the slots they write. -/
theorem insertLoop_inv (fuel : Nat) : ∀ (c : cache Element) (W : List UInt32) (e : Element)
    (last_loc : UInt32) (last_epoch : Bool), Inv hash_function c W → Homeless c W e →
    Inv hash_function
      (insertLoop hash_function fuel c e last_loc last_epoch (c.compute_hashes hash_function e))
      (W ++ insertLoopWrites hash_function fuel c e last_loc last_epoch
        (c.compute_hashes hash_function e)) := by
  induction fuel with
  | zero =>
    intro c W _ _ _ hi _
    simpa [insertLoop, insertLoopWrites] using hi
  | succ fuel ih =>
    intro c W e last_loc last_epoch hi hh
    rcases hloc : (c.compute_hashes hash_function e).find? c.bit_is_set with _ | loc
    · -- no collectable slot: swap, and carry on with the evicted element
      simp only [insertLoop, insertLoopWrites, hloc]
      rw [List.append_cons]
      have hmem := getD_mem_compute_hashes hash_function c e
        (1 + (c.compute_hashes hash_function e).idxOf last_loc)
      exact ih _ _ _ _ _ (hi.swap hh hloc hmem _) (Homeless.swap hi hh hloc hmem _)
    · simp only [insertLoop, insertLoopWrites, hloc]
      exact hi.fill hh hloc _

/-- `insert(e)` keeps the invariant, with the slots it writes. -/
theorem Inv.insert {c : cache Element} {W : List UInt32} (hi : Inv hash_function c W)
    (e : Element) :
    Inv hash_function (c.insert hash_function e) (W ++ c.insertWrites hash_function e) := by
  have hi' := hi.frees (frees_epoch_check c)
  rcases hfound : (c.epoch_check.compute_hashes hash_function e).find?
      (fun loc => c.epoch_check.table.getD loc.toNat default = e) with _ | loc
  · simp only [cache.insert, insertWrites, hfound]
    exact insertLoop_inv hash_function _ _ _ _ _ _ hi' (hi'.homeless hfound)
  · simp only [cache.insert, insertWrites, hfound, List.append_nil]
    exact hi'.keep hfound _

omit [DecidableEq Element] in
/-- What `setup` makes when it succeeds: `2^depth_limit` slots, `depth_limit < 32`, holding
`Element()`, every one collectable, and the mask below the size. -/
theorem setup_eq {log2f : ℚ → ℚ} {new_size : UInt32} {c : cache Element}
    (h : cache.setup log2f new_size = .ok c) :
    ∃ depth_limit : UInt8, depth_limit.toNat < 32 ∧ c.size = UInt32.ofNat (2 ^ depth_limit.toNat) ∧
      c.table = List.replicate c.size.toNat default ∧
      c.collection_flags = List.replicate ((c.size.toNat + 7) / 8 * 8) true ∧
      c.hash_mask = c.size - 1 := by
  simp only [cache.setup, Except.bind_eq_ok] at h
  obtain ⟨depth_limit, -, h⟩ := h
  split at h
  · cases h
  · simp only [Except.pure_eq_ok] at h
    subst h
    exact ⟨depth_limit, by omega, rfl, rfl, rfl, rfl⟩

/-- `setup` starts the invariant with no slot written. -/
theorem setup_inv {log2f : ℚ → ℚ} {new_size : UInt32} {c : cache Element}
    (h : cache.setup log2f new_size = .ok c) : Inv hash_function c [] := by
  obtain ⟨depth_limit, hd, hsize, htable, hflags, hmask⟩ := setup_eq h
  have hpos : 0 < c.size.toNat := by
    rw [hsize, UInt32.toNat_ofNat', Nat.mod_eq_of_lt (Nat.pow_lt_pow_right (by norm_num) hd)]
    exact Nat.two_pow_pos _
  refine ⟨by rw [htable, List.length_replicate], ?_, ?_, by simp, by simp, ?_⟩
  · rw [hmask, UInt32.toNat_sub_of_le _ _ (UInt32.le_iff_toNat_le.mpr (by rw [UInt32.toNat_one]; exact hpos))]
    simp only [UInt32.toNat_one]
    omega
  · intro s _
    rw [htable, List.getD_eq_getElem?_getD]
    exact List.getElem?_getD_replicate_default_eq _ _ _
  · -- every slot may be collected, so none keeps `Element()`
    rintro s ⟨hlt, ⟨hw, -⟩ | ⟨-, hb⟩⟩
    · cases hw
    · rw [bit_is_set, hflags, List.getD_replicate _ (by omega)] at hb
      cases hb

omit [DecidableEq Element] in
/-- `setup` fills the table with `Element()`. -/
theorem setup_table {log2f : ℚ → ℚ} {new_size : UInt32} {c : cache Element}
    (h : cache.setup log2f new_size = .ok c) : ∀ x ∈ c.table, x = default := by
  obtain ⟨-, -, -, htable, -⟩ := setup_eq h
  intro x hx
  rw [htable] at hx
  exact List.eq_of_mem_replicate hx

/-! ### Which elements are found -/

omit [DecidableEq Element] in
/-- The table `insertLoop` leaves holds the elements it held, the carried one, and `Element()`. -/
theorem insertLoop_table (fuel : Nat) : ∀ (c : cache Element) (e : Element) (last_loc : UInt32)
    (last_epoch : Bool) (locs : List UInt32),
    ∀ x ∈ (insertLoop hash_function fuel c e last_loc last_epoch locs).table,
      x ∈ c.table ∨ x = e ∨ x = default := by
  induction fuel with
  | zero =>
    intro c _ _ _ _ x hx
    exact .inl hx
  | succ fuel ih =>
    intro c e last_loc last_epoch locs x hx
    rcases hloc : locs.find? c.bit_is_set with _ | loc
    · simp only [insertLoop, hloc] at hx
      rcases ih _ _ _ _ _ x hx with hx | rfl | rfl
      · rcases List.mem_or_eq_of_mem_set hx with hx | rfl
        · exact .inl hx
        · exact .inr (.inl rfl)
      · -- the evicted element was in the table, or read past it as `Element()`
        rcases List.getD_mem_or_eq c.table _ default with h | h
        · exact .inl h
        · exact .inr (.inr h)
      · exact .inr (.inr rfl)
    · simp only [insertLoop, hloc] at hx
      rcases List.mem_or_eq_of_mem_set hx with hx | rfl
      · exact .inl hx
      · exact .inr (.inl rfl)

theorem insert_table (c : cache Element) (e : Element) :
    ∀ x ∈ (c.insert hash_function e).table, x ∈ c.table ∨ x = e ∨ x = default := by
  intro x hx
  have htable := (frees_epoch_check c).table
  rcases hfound : (c.epoch_check.compute_hashes hash_function e).find?
      (fun loc => c.epoch_check.table.getD loc.toNat default = e) with _ | loc
  · simp only [cache.insert, hfound] at hx
    rcases insertLoop_table hash_function _ _ _ _ _ _ x hx with h | h
    · exact .inl (htable ▸ h)
    · exact .inr h
  · simp only [cache.insert, hfound] at hx
    exact .inl (htable ▸ hx)

/-- `insert(e)` loses one element at most: every element found before, and `e`, is found after,
but for `y`. -/
theorem insertLoop_keeps (fuel : Nat) : ∀ (c : cache Element) (e : Element) (last_loc : UInt32)
    (last_epoch : Bool), c.hash_mask.toNat < c.table.length →
    ∃ y, ∀ x, (x = e ∨ Contained hash_function c x) → x ≠ y →
      Contained hash_function
        (insertLoop hash_function fuel c e last_loc last_epoch (c.compute_hashes hash_function e)) x := by
  induction fuel with
  | zero =>
    -- out of rounds: the carried element is the one lost
    intro c e _ _ _
    refine ⟨e, fun x hx hxe => ?_⟩
    rcases hx with rfl | hx
    · exact absurd rfl hxe
    · exact hx
  | succ fuel ih =>
    intro c e last_loc last_epoch hmask
    rcases hloc : (c.compute_hashes hash_function e).find? c.bit_is_set with _ | loc
    · -- swap: what `loc` held is carried on, and the element lost is lost later
      simp only [insertLoop, hloc]
      have hmem := getD_mem_compute_hashes hash_function c e
        (1 + (c.compute_hashes hash_function e).idxOf last_loc)
      have hlt := lt_of_le_of_lt (toNat_le_of_mem_compute_hashes hash_function hmem) hmask
      obtain ⟨y, hy⟩ := ih { c with
          table := c.table.set ((c.compute_hashes hash_function e).getD
            ((1 + (c.compute_hashes hash_function e).idxOf last_loc) % 8) 0).toNat e
          epoch_flags := c.epoch_flags.set ((c.compute_hashes hash_function e).getD
            ((1 + (c.compute_hashes hash_function e).idxOf last_loc) % 8) 0).toNat last_epoch }
        _ _ _ (by simpa using hmask)
      refine ⟨y, fun x hx hxy => hy x ?_ hxy⟩
      by_cases hxX : x = c.table.getD ((c.compute_hashes hash_function e).getD
          ((1 + (c.compute_hashes hash_function e).idxOf last_loc) % 8) 0).toNat default
      · exact .inl hxX
      · refine .inr (Contained.write hash_function ?_ ?_ hmem hlt (hx.imp id fun h => ⟨h, hxX⟩))
          <;> rfl
    · -- fill: the element lost is the one `loc` held
      simp only [insertLoop, hloc]
      have hmem := List.mem_of_find?_eq_some hloc
      have hlt := lt_of_le_of_lt (toNat_le_of_mem_compute_hashes hash_function hmem) hmask
      refine ⟨c.table.getD loc.toNat default, fun x hx hxy => ?_⟩
      refine Contained.write hash_function ?_ ?_ hmem hlt (hx.imp id fun h => ⟨h, hxy⟩) <;> rfl

theorem insert_keeps (c : cache Element) (e : Element) (hmask : c.hash_mask.toNat < c.table.length) :
    ∃ y, ∀ x, (x = e ∨ Contained hash_function c x) → x ≠ y →
      Contained hash_function (c.insert hash_function e) x := by
  have hfr := frees_epoch_check c
  have hold : ∀ x, Contained hash_function c x → Contained hash_function c.epoch_check x :=
    fun x => (contained_congr hash_function hfr.table hfr.hash_mask x).mpr
  rcases hfound : (c.epoch_check.compute_hashes hash_function e).find?
      (fun loc => c.epoch_check.table.getD loc.toNat default = e) with _ | loc
  · simp only [cache.insert, hfound]
    obtain ⟨y, hy⟩ := insertLoop_keeps hash_function c.epoch_check.depth_limit.toNat
      c.epoch_check e invalid true (by rw [hfr.hash_mask, hfr.table]; exact hmask)
    exact ⟨y, fun x hx hxy => hy x (hx.imp id (hold x)) hxy⟩
  · -- found: nothing is lost
    simp only [cache.insert, hfound]
    refine ⟨e, fun x hx _ => ?_⟩
    refine (contained_congr hash_function (c := c.epoch_check) ?_ ?_ x).mpr ?_
    · rfl
    · rfl
    rcases hx with rfl | hx
    · exact ⟨loc, List.mem_of_find?_eq_some hfound, by simpa using List.find?_some hfound⟩
    · exact hold x hx

end cache

/-! ### Runs -/

/-- The calls a cache takes after `setup`. -/
inductive Call (Element : Type)
  | insert (e : Element)
  | contains (e : Element) (erase : Bool)

namespace Call

variable {Element : Type} [Inhabited Element] [DecidableEq Element]
variable (hash_function : Fin 8 → Element → UInt32)

/-- Make a call on the cache. -/
def apply (c : cache Element) : Call Element → cache Element
  | .insert e => c.insert hash_function e
  | .contains e erase => (c.contains hash_function e erase).2

/-- The slots a call writes. -/
def writes (c : cache Element) : Call Element → List UInt32
  | .insert e => c.insertWrites hash_function e
  | .contains _ _ => []

end Call

section Run

variable {Element : Type} [Inhabited Element] [DecidableEq Element]
variable (hash_function : Fin 8 → Element → UInt32)

/-- The cache after a run of calls. -/
def run (c : cache Element) (calls : List (Call Element)) : cache Element :=
  calls.foldl (Call.apply hash_function) c

/-- The slots a run of calls writes. -/
def written : cache Element → List (Call Element) → List UInt32
  | _, [] => []
  | c, call :: calls => call.writes hash_function c ++ written (call.apply hash_function c) calls

open cache

theorem Inv.apply {c : cache Element} {W : List UInt32} (hi : Inv hash_function c W) :
    ∀ call : Call Element, Inv hash_function (call.apply hash_function c)
      (W ++ call.writes hash_function c)
  | .insert e => Inv.insert hash_function hi e
  | .contains e erase => by
    simpa [Call.apply, Call.writes] using hi.frees (frees_contains hash_function c e erase)

/-- **Run.** Every run of calls keeps the invariant, with the slots it writes. -/
theorem run_inv : ∀ (calls : List (Call Element)) (c : cache Element) (W : List UInt32),
    Inv hash_function c W → Inv hash_function (run hash_function c calls)
      (W ++ written hash_function c calls)
  | [], c, W, hi => by simpa [run, written] using hi
  | call :: calls, c, W, hi => by
    rw [run, List.foldl_cons, written, ← List.append_assoc]
    exact run_inv calls _ _ (Inv.apply hash_function hi call)

/-- After a run, the table holds what it held, `Element()`, and elements passed to `insert`. -/
theorem run_table : ∀ (calls : List (Call Element)) (c : cache Element),
    ∀ x ∈ (run hash_function c calls).table, x ∈ c.table ∨ x = default ∨ Call.insert x ∈ calls
  | [], _, x, hx => .inl hx
  | call :: calls, c, x, hx => by
    rw [run, List.foldl_cons] at hx
    rcases run_table calls _ x hx with h | h | h
    · cases call with
      | insert e =>
        rcases insert_table hash_function c e x h with h | rfl | h
        · exact .inl h
        · exact .inr (.inr List.mem_cons_self)
        · exact .inr (.inl h)
      | contains e erase =>
        exact .inl ((frees_contains hash_function c e erase).table ▸ h)
    · exact .inr (.inl h)
    · exact .inr (.inr (List.mem_cons_of_mem _ h))

/-- **`insert` and `contains` along every run.**  For every hash functor, every cache that
`setup(n)` makes, with any `std::log2`, and every sequence of `insert(e)` and `contains(e, erase)`
calls: each slot `insert` has written holds an element that has it among its slots, and no two
written slots hold the same element; `contains` finds only `Element()` and elements passed to
`insert`; and a further `insert(e)` loses one element at most: every element found before, and
`e`, is found after, but for one. -/
theorem cache_insert_contains_run (log2f : ℚ → ℚ) (new_size : UInt32) (c₀ : cache Element)
    (hsetup : cache.setup log2f new_size = .ok c₀) (calls : List (Call Element)) :
    (∀ s ∈ written hash_function c₀ calls,
      s ∈ (run hash_function c₀ calls).compute_hashes hash_function
        ((run hash_function c₀ calls).table.getD s.toNat default) ∧
      ∀ t ∈ written hash_function c₀ calls,
        (run hash_function c₀ calls).table.getD s.toNat default =
          (run hash_function c₀ calls).table.getD t.toNat default → s = t) ∧
    (∀ x erase, ((run hash_function c₀ calls).contains hash_function x erase).1 = true →
      x = default ∨ Call.insert x ∈ calls) ∧
    ∀ e, ∃ y, ∀ x erase,
      (x = e ∨ ((run hash_function c₀ calls).contains hash_function x erase).1 = true) → x ≠ y →
        (((run hash_function c₀ calls).insert hash_function e).contains hash_function x
          erase).1 = true := by
  have hi := run_inv hash_function calls c₀ [] (setup_inv hash_function hsetup)
  rw [List.nil_append] at hi
  refine ⟨fun s hs => ⟨hi.mem_hashes s hs, fun t ht => hi.inj s hs t ht⟩, ?_, ?_⟩
  · intro x erase hx
    obtain ⟨loc, -, hloc⟩ := (contains_iff hash_function _ x erase).mp hx
    rcases List.getD_mem_or_eq (run hash_function c₀ calls).table loc.toNat default with h | h
    · rw [hloc] at h
      rcases run_table hash_function calls c₀ x h with h | h | h
      · exact .inl (setup_table hsetup x h)
      · exact .inl h
      · exact .inr h
    · exact .inl (hloc.symm.trans h)
  · intro e
    obtain ⟨y, hy⟩ := insert_keeps hash_function (run hash_function c₀ calls) e
      (hi.table_length ▸ hi.hash_mask_lt)
    refine ⟨y, fun x erase hx hxy => ?_⟩
    rw [contains_iff] at hx ⊢
    exact hy x hx hxy

/-- `setup(2)` with a `std::log2` that gives `1`: two slots. -/
def setupTwo : cache Nat :=
  { table := [0, 0], size := 2, collection_flags := List.replicate 8 true,
    epoch_flags := [false, false], epoch_heuristic_counter := 1, epoch_size := 1, hash_mask := 1,
    depth_limit := 1 }

theorem cache_insert_contains_run_setupTwo :
    cache.setup (fun _ => 1) 2 = .ok setupTwo ∧
    let hash_function : Fin 8 → Nat → UInt32 := fun i e => UInt32.ofNat (e + i)
    let calls : List (Call Nat) := [.insert 1, .insert 2, .contains 1 true, .insert 3]
    (∀ s ∈ written hash_function setupTwo calls,
      s ∈ (run hash_function setupTwo calls).compute_hashes hash_function
        ((run hash_function setupTwo calls).table.getD s.toNat default) ∧
      ∀ t ∈ written hash_function setupTwo calls,
        (run hash_function setupTwo calls).table.getD s.toNat default =
          (run hash_function setupTwo calls).table.getD t.toNat default → s = t) ∧
    (∀ x erase, ((run hash_function setupTwo calls).contains hash_function x erase).1 = true →
      x = default ∨ Call.insert x ∈ calls) ∧
    ∀ e, ∃ y, ∀ x erase,
      (x = e ∨ ((run hash_function setupTwo calls).contains hash_function x erase).1 = true) →
        x ≠ y →
        (((run hash_function setupTwo calls).insert hash_function e).contains hash_function x
          erase).1 = true :=
  ⟨rfl, cache_insert_contains_run _ (fun _ => 1) 2 setupTwo rfl _⟩

end Run

end CuckooCache

end Unitus
