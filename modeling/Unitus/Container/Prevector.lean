import Mathlib

/-!
# Container — prevector

`prevector<N, T>` of `prevector.h`, the vector that keeps up to `N` elements inline and moves them
to a heap block beyond that; `CScript` is a `prevector<28, unsigned char>`.

The state is the source's two fields.  `_union` holds either the inline array or a heap block with
its `capacity`; the model keeps, for either, the list of its constructed slots.  `_size` is the
`uint32_t` that is also the tag: up to `N` it is the element count of an inline vector, above `N` it
is the count plus `N + 1` of a heap one.  It is a `Nat` reduced modulo `2 ^ 32` where the source
adds to it; `size()`, `capacity()` and every branch of the operations read the tag, never the
union, as the source does.  Moving elements (`memcpy`, `memmove`, `realloc`) is a list operation on
the constructed slots.  `T()`, which `resize` constructs, is `default`.
-/

namespace Unitus

/-- `_union`: the inline array, or a heap block of `capacity` slots, each with the list of its
constructed slots. -/
inductive direct_or_indirect (T : Type) where
  | direct (items : List T)
  | indirect (capacity : Nat) (items : List T)

namespace direct_or_indirect

variable {T : Type}

/-- The constructed slots, in order. -/
def items : direct_or_indirect T → List T
  | .direct items => items
  | .indirect _ items => items

/-- Whether the union holds the inline array, i.e. no heap block. -/
def IsDirect : direct_or_indirect T → Prop
  | .direct _ => True
  | .indirect _ _ => False

/-- The slots rewritten in place, in whichever storage holds them. -/
def modify (f : List T → List T) : direct_or_indirect T → direct_or_indirect T
  | .direct items => .direct (f items)
  | .indirect capacity items => .indirect capacity (f items)

@[simp] theorem items_direct (items : List T) : (direct items).items = items := rfl

@[simp] theorem items_indirect (c : Nat) (items : List T) : (indirect c items).items = items := rfl

@[simp] theorem isDirect_direct (items : List T) : (direct items).IsDirect := trivial

@[simp] theorem not_isDirect_indirect (c : Nat) (items : List T) : ¬(indirect c items).IsDirect :=
  id

@[simp] theorem modify_direct (f : List T → List T) (items : List T) :
    (direct items).modify f = direct (f items) := rfl

@[simp] theorem modify_indirect (f : List T → List T) (c : Nat) (items : List T) :
    (indirect c items).modify f = indirect c (f items) := rfl

@[simp] theorem items_modify (f : List T → List T) (u : direct_or_indirect T) :
    (u.modify f).items = f u.items := by
  cases u <;> rfl

@[simp] theorem isDirect_modify (f : List T → List T) (u : direct_or_indirect T) :
    (u.modify f).IsDirect ↔ u.IsDirect := by
  cases u <;> rfl

end direct_or_indirect

/-- `prevector<N, T>`: the size-and-tag field and the storage. -/
structure prevector (N : Nat) (T : Type) where
  _size : Nat
  _union : direct_or_indirect T

namespace prevector

variable {N : Nat} {T : Type}

/-- `prevector()`: `_size(0)`, and no slot constructed. -/
def empty : prevector N T := ⟨0, .direct []⟩

/-- `is_direct()`. -/
def is_direct (v : prevector N T) : Bool := decide (v._size ≤ N)

/-- `size()`: the tag read back as an element count. -/
def size (v : prevector N T) : Nat := if v.is_direct then v._size else v._size - N - 1

/-- `capacity()`.  Read while the union holds the inline array, `_union.capacity` is part of the
inline bytes; the model gives it no value. -/
def capacity (v : prevector N T) : Nat :=
  if v.is_direct then N
  else match v._union with
    | .indirect capacity _ => capacity
    | .direct _ => 0

/-- What `begin()` to `end()` iterates over: the first `size()` slots. -/
def elements (v : prevector N T) : List T := v._union.items.take v.size

/-- `change_capacity(new_capacity)`. -/
def change_capacity (new_capacity : Nat) (v : prevector N T) : prevector N T :=
  if new_capacity ≤ N then
    if !v.is_direct then
      -- `memcpy` the elements inline, `free` the block, `_size -= N + 1`
      ⟨v._size - (N + 1), .direct (v._union.items.take v.size)⟩
    else v
  else
    if !v.is_direct then
      -- `realloc` keeps the slots that fit in the new block
      ⟨v._size, .indirect new_capacity (v._union.items.take new_capacity)⟩
    else
      -- `malloc`, `memcpy` the inline elements out, `_size += N + 1`
      ⟨(v._size + (N + 1)) % 2 ^ 32, .indirect new_capacity (v._union.items.take v.size)⟩

/-- One turn of the construction loops, `_size++; new(item_ptr(size() - 1)) T(x);`: the slot
after the constructed ones gets `x`. -/
def construct (x : T) (v : prevector N T) : prevector N T :=
  ⟨(v._size + 1) % 2 ^ 32, v._union.modify (· ++ [x])⟩

/-- The loop `while (first != last) { _size++; new(item_ptr(size() - 1)) T(*first); ++first; }`
of the range constructors and `assign`. -/
def constructRange : List T → prevector N T → prevector N T
  | [], v => v
  | x :: xs, v => constructRange xs (v.construct x)

/-- The loop `while (size() < n) { _size++; new(item_ptr(size() - 1)) T(val); }`, for at most
`fuel` turns; the callers give `n`, and each turn raises `size()` by one. -/
def constructUpTo (n : Nat) (val : T) : Nat → prevector N T → prevector N T
  | 0, v => v
  | fuel + 1, v => if v.size < n then constructUpTo n val fuel (v.construct val) else v

/-- The loop of `erase` that destroys `k` elements, each with a `_size--` (which takes a `0` to
`2 ^ 32 - 1`). -/
def destroy : Nat → prevector N T → prevector N T
  | 0, v => v
  | k + 1, v => destroy k ⟨if v._size = 0 then 2 ^ 32 - 1 else v._size - 1, v._union⟩

/-- `erase(first, last)`: destroy the elements at `[first, last)`, then `memmove` the tail down. -/
def erase (first last : Nat) (v : prevector N T) : prevector N T :=
  let v := v.destroy (last - first)
  ⟨v._size, v._union.modify fun items => items.take first ++ items.drop last⟩

/-- `erase(pos)`, that is `erase(pos, pos + 1)`. -/
def erase_one (pos : Nat) (v : prevector N T) : prevector N T := v.erase pos (pos + 1)

/-- `pop_back()`, that is `erase(end() - 1, end())`. -/
def pop_back (v : prevector N T) : prevector N T := v.erase (v.size - 1) v.size

/-- `reserve(new_capacity)`. -/
def reserve (new_capacity : Nat) (v : prevector N T) : prevector N T :=
  if v.capacity < new_capacity then v.change_capacity new_capacity else v

/-- `shrink_to_fit()`. -/
def shrink_to_fit (v : prevector N T) : prevector N T := v.change_capacity v.size

/-- The growth step of `insert` and `push_back`:
`if (capacity() < new_size) change_capacity(new_size + (new_size >> 1));`. -/
def grow (new_size : Nat) (v : prevector N T) : prevector N T :=
  if v.capacity < new_size then v.change_capacity ((new_size + (new_size >>> 1)) % 2 ^ 32) else v

/-- The body of the three `insert` overloads, for the elements `xs` they construct at `p`: grow to
`size() + count`, `memmove` the tail up by `count`, `_size += count`, construct `xs` in the gap. -/
def insertItems (p : Nat) (xs : List T) (v : prevector N T) : prevector N T :=
  let v := v.grow ((v.size + xs.length) % 2 ^ 32)
  ⟨(v._size + xs.length) % 2 ^ 32, v._union.modify fun items => items.take p ++ xs ++ items.drop p⟩

/-- `insert(pos, value)`. -/
def insert (p : Nat) (value : T) (v : prevector N T) : prevector N T := v.insertItems p [value]

/-- `insert(pos, count, value)`. -/
def insert_fill (p count : Nat) (value : T) (v : prevector N T) : prevector N T :=
  v.insertItems p (List.replicate count value)

/-- `insert(pos, first, last)`; `last - first` is a `difference_type`, added to `size()` and
`_size` modulo `2 ^ 32`. -/
def insert_range (p : Nat) (xs : List T) (v : prevector N T) : prevector N T := v.insertItems p xs

/-- `push_back(value)`: grow, construct at `item_ptr(size())`, then `_size++`. -/
def push_back (value : T) (v : prevector N T) : prevector N T :=
  (v.grow ((v.size + 1) % 2 ^ 32)).construct value

/-- `operator[](pos) = value`. -/
def update (pos : Nat) (value : T) (v : prevector N T) : prevector N T :=
  ⟨v._size, v._union.modify (·.set pos value)⟩

/-- `swap(other)`: both fields exchanged. -/
def swap (v other : prevector N T) : prevector N T × prevector N T := (other, v)

/-- `prevector(const prevector& other)`. -/
def copy (other : prevector N T) : prevector N T :=
  (empty.change_capacity other.size).constructRange other.elements

/-- `prevector(prevector&& other)`: `_size(0)`, then `swap(other)`; `other` is left with the new
vector's `_size` of `0` and its unconstructed inline array. -/
def move (other : prevector N T) : prevector N T × prevector N T := empty.swap other

/-- `operator=(prevector&& other)`: `swap(other)`. -/
def move_assign (v other : prevector N T) : prevector N T × prevector N T := v.swap other

/-- `prevector(n, val)`. -/
def ofFill (n : Nat) (val : T) : prevector N T :=
  (empty.change_capacity n).constructUpTo n val n

/-- `prevector(first, last)`; `size_type n = last - first`. -/
def ofRange (xs : List T) : prevector N T :=
  (empty.change_capacity (xs.length % 2 ^ 32)).constructRange xs

section Default

variable [Inhabited T]

/-- `resize(new_size)`. -/
def resize (new_size : Nat) (v : prevector N T) : prevector N T :=
  let v := if new_size < v.size then v.erase new_size v.size else v
  let v := if v.capacity < new_size then v.change_capacity new_size else v
  v.constructUpTo new_size default new_size

/-- `clear()`, that is `resize(0)`. -/
def clear (v : prevector N T) : prevector N T := v.resize 0

/-- `assign(n, val)`. -/
def assign (n : Nat) (val : T) (v : prevector N T) : prevector N T :=
  let v := v.clear
  let v := if v.capacity < n then v.change_capacity n else v
  v.constructUpTo n val n

/-- `assign(first, last)`; `size_type n = last - first`. -/
def assign_range (xs : List T) (v : prevector N T) : prevector N T :=
  let n := xs.length % 2 ^ 32
  let v := v.clear
  let v := if v.capacity < n then v.change_capacity n else v
  v.constructRange xs

/-- `prevector(n)`: `_size(0)`, then `resize(n)`. -/
def ofSize (n : Nat) : prevector N T := (empty : prevector N T).resize n

/-- `operator=(const prevector& other)` between two vectors: `resize(0)`, then as the copy
constructor. -/
def copy_assign (v other : prevector N T) : prevector N T :=
  ((v.resize 0).change_capacity other.size).constructRange other.elements

end Default

end prevector

end Unitus
