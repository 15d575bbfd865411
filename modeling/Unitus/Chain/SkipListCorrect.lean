import Unitus.Chain.SkipList

/-!
# Chain — the skip list finds every ancestor

A chain whose `pskip`s are those `BuildSkip` sets satisfies `Skips`: each block is at the height
of its number of ancestors, the genesis has no `pskip`, and every other block's `pskip` is its
ancestor at `GetSkipHeight(nHeight)`.  On such a chain the walk of `GetAncestor` keeps
`pindexWalk` the ancestor at `heightWalk` (`getAncestorLoop_eq`), so it arrives where the
abstract `GetAncestor` of `Chain.BlockIndex` says (`GetAncestor_refines`); each `BuildSkip`
keeps `Skips` (`BuildSkip_skips`).  The main result:

* **`buildSkips_GetAncestor`**: for a chain from a genesis at height `0`, building the skip list
  block by block never fails; every `pskip` is an ancestor of smaller height; and
  `GetAncestor(h)` of every block is `NULL` outside `[0, nHeight]` and otherwise the block
  `nHeight - h` steps down `pprev`.

A chain whose first block is above height `0` is another matter: `GetAncestor` from it to a
height below runs out of `pprev` (`GetAncestor_root_above_zero`).
-/

namespace Unitus

namespace SkipIndex

/-- Every block is at the height of its number of ancestors, the genesis has no `pskip`, and
every other block's `pskip` is its ancestor at `GetSkipHeight(nHeight)`. -/
def Skips : List SkipIndex → Prop
  | [] => True
  | b :: rest =>
    b.index.nHeight = rest.length ∧
      b.pskip = (if rest = [] then []
        else (b :: rest).drop (b.index.nHeight - GetSkipHeight b.index.nHeight).toNat) ∧
      Skips rest

theorem Skips.suffix {p q : List SkipIndex} (hp : Skips p) (hq : q <:+ p) : Skips q := by
  induction p with
  | nil => rwa [List.suffix_nil.mp hq]
  | cons b rest ih =>
    rcases List.suffix_cons_iff.mp hq with rfl | hq
    · exact hp
    · exact ih hp.2.2 hq

/-- The blocks of a skip list, without their `pskip`s, are a chain. -/
theorem Skips.chainHeights : ∀ {p : List SkipIndex}, Skips p → ChainHeights (p.map index)
  | [], _ => trivial
  | _ :: _, hp => ⟨by rw [List.length_map]; exact hp.1, Skips.chainHeights hp.2.2⟩

/-- A block above the genesis is above height `0`. -/
theorem Skips.one_le {b : SkipIndex} {rest : List SkipIndex} (hp : Skips (b :: rest))
    (hrest : rest ≠ []) : 1 ≤ b.index.nHeight := by
  have := List.length_pos_iff.mpr hrest
  rw [hp.1]
  omega

/-- A non-genesis block's `pskip` is its ancestor at `GetSkipHeight(nHeight)`: a suffix of its
`pprev`'s chain with `GetSkipHeight(nHeight) + 1` blocks. -/
theorem Skips.pskip {b : SkipIndex} {rest : List SkipIndex} (hp : Skips (b :: rest))
    (hrest : rest ≠ []) :
    b.pskip = rest.drop (rest.length - GetSkipHeight b.index.nHeight - 1).toNat ∧
      b.pskip.length = GetSkipHeight b.index.nHeight + 1 := by
  have hlt := GetSkipHeight_lt (hp.one_le hrest)
  have h0 := GetSkipHeight_nonneg b.index.nHeight
  rw [hp.1] at hlt h0
  rw [hp.2.1, if_neg hrest, hp.1,
    show (rest.length - GetSkipHeight rest.length).toNat =
      (rest.length - GetSkipHeight rest.length - 1).toNat + 1 by omega,
    List.drop_succ_cons]
  refine ⟨rfl, ?_⟩
  rw [List.length_drop]
  omega

/-- **Walk.** On a skip list, the walk from the block at `heightWalk` down to `height` arrives
at the ancestor at `height`: following `pskip` never passes `height`, and `pprev` is there
whenever the walk takes it. -/
theorem getAncestorLoop_eq {height : Int} (hheight : 0 ≤ height) (heightWalk : Int)
    (p : List SkipIndex) (hp : Skips p) (hlen : heightWalk + 1 = p.length)
    (hle : height ≤ heightWalk) :
    getAncestorLoop height hheight heightWalk p = .ok (p.drop (heightWalk - height).toNat) := by
  fun_induction getAncestorLoop height hheight heightWalk p with
  | case1 heightWalk hwalk =>
    -- `NULL` at a height above `height`: the walk is past the genesis
    simp only [List.length_nil, Nat.cast_zero] at hlen
    omega
  | case2 heightWalk hwalk b rest hskip ih =>
    -- `pskip`, the ancestor at `GetSkipHeight(heightWalk)`, no lower than `height`
    have hrest : rest ≠ [] := by
      rintro rfl
      exact hskip.1 (by rw [hp.2.1, if_pos rfl])
    simp only [List.length_cons, Nat.cast_add, Nat.cast_one] at hlen
    have hb : b.index.nHeight = heightWalk := by rw [hp.1]; omega
    obtain ⟨hpskip, hslen⟩ := hp.pskip hrest
    rw [hb] at hpskip hslen
    have hs := le_of_followsSkip hskip.2
    have hlt := GetSkipHeight_lt (by omega : 1 ≤ heightWalk)
    rw [ih (hp.2.2.suffix (hpskip ▸ List.drop_suffix _ _)) hslen.symm hs, hpskip,
      List.drop_drop,
      show (heightWalk - height).toNat = (heightWalk - height - 1).toNat + 1 by omega,
      List.drop_succ_cons]
    congr 2
    omega
  | case3 heightWalk hwalk b hskip =>
    -- no `pprev` above `height`: impossible on a chain from height `0`
    simp only [List.length_singleton, Nat.cast_one] at hlen
    omega
  | case4 heightWalk hwalk b rest hskip hrest ih =>
    -- `pprev`, one step down
    simp only [List.length_cons, Nat.cast_add, Nat.cast_one] at hlen
    rw [ih hp.2.2 (by omega) (by omega),
      show (heightWalk - height).toNat = (heightWalk - 1 - height).toNat + 1 by omega,
      List.drop_succ_cons]
  | case5 heightWalk pindexWalk hwalk =>
    -- arrived: `heightWalk = height`
    rw [show heightWalk - height = 0 by omega]
    rfl

/-- `GetAncestor(height)` on a skip list: `NULL` outside `[0, nHeight]`, otherwise the block
`nHeight - height` steps down `pprev`. -/
theorem GetAncestor_eq {b : SkipIndex} {rest : List SkipIndex} (hp : Skips (b :: rest))
    (height : Int) :
    GetAncestor (b :: rest) height =
      .ok (if height > b.index.nHeight ∨ height < 0 then []
        else (b :: rest).drop (b.index.nHeight - height).toNat) := by
  dsimp only [GetAncestor]
  by_cases hout : height > b.index.nHeight ∨ height < 0
  · rw [dif_pos hout, if_pos hout]
  · rw [dif_neg hout, if_neg hout]
    exact getAncestorLoop_eq _ _ _ hp (by rw [hp.1, List.length_cons]; omega) (by omega)

/-- **Refinement.** On a skip list, the walk of `GetAncestor` arrives where the abstract
`GetAncestor` of `Chain.BlockIndex` says. -/
theorem GetAncestor_refines {p : List SkipIndex} (hp : Skips p) (height : Int) :
    (GetAncestor p height).map (List.map index) =
      .ok (Unitus.GetAncestor (p.map index) height) := by
  cases p with
  | nil => rfl
  | cons b rest =>
    rw [GetAncestor_eq hp, List.map_cons]
    dsimp only [Unitus.GetAncestor]
    by_cases hout : height > b.index.nHeight ∨ height < 0
    · rw [if_pos hout, if_pos hout]
      rfl
    · rw [if_neg hout, if_neg hout, ← List.map_cons, ← List.map_drop]
      rfl

/-- One `BuildSkip` on a skip list, for a block above it, succeeds and keeps `Skips`. -/
theorem BuildSkip_skips (index : CBlockIndex) {pprev : List SkipIndex} (hp : Skips pprev)
    (hh : index.nHeight = pprev.length) :
    ∃ pskip, BuildSkip index pprev = .ok (⟨index, pskip⟩ :: pprev) ∧
      Skips (⟨index, pskip⟩ :: pprev) := by
  cases pprev with
  | nil => exact ⟨[], rfl, hh, by simp, trivial⟩
  | cons c crest =>
    -- `pprev->GetAncestor(GetSkipHeight(nHeight))` is below `pprev`
    have hc : c.index.nHeight = crest.length := hp.1
    simp only [List.length_cons, Nat.cast_add, Nat.cast_one] at hh
    have hlt := GetSkipHeight_lt (by omega : 1 ≤ index.nHeight)
    have h0 := GetSkipHeight_nonneg index.nHeight
    refine ⟨_, by simp only [BuildSkip, GetAncestor_eq hp]; rfl, ?_, ?_, hp⟩
    · rw [hh, List.length_cons]
      omega
    · simp only [if_neg (List.cons_ne_nil c crest)]
      rw [if_neg (by omega), hc,
        show (index.nHeight - GetSkipHeight index.nHeight).toNat =
          (crest.length - GetSkipHeight index.nHeight).toNat + 1 by omega,
        List.drop_succ_cons]

/-- **Build.** On a chain from a genesis at height `0`, `BuildSkip` on each block after its
predecessor never fails, and gives a skip list of the chain's blocks. -/
theorem buildSkips_skips : ∀ p : BlockPtr, ChainHeights p →
    ∃ q, buildSkips p = .ok q ∧ q.map index = p ∧ Skips q
  | [], _ => ⟨[], rfl, rfl, trivial⟩
  | b :: rest, hp => by
    obtain ⟨q, hq, hmap, hs⟩ := buildSkips_skips rest hp.2
    have hh : b.nHeight = q.length := by rw [hp.1, ← hmap, List.length_map]
    obtain ⟨pskip, hb, hs'⟩ := BuildSkip_skips b hs hh
    refine ⟨_, ?_, by rw [List.map_cons, hmap], hs'⟩
    simp only [buildSkips, hq, bind, Except.bind, hb]

/-- **The skip list of a chain.**  For every chain from a genesis at height `0`, building the
`pskip`s block by block from the genesis succeeds; in the result every block's `pskip`, when set,
is an ancestor of smaller height; and every block's `GetAncestor(height)` is `NULL` when
`height < 0` or `height > nHeight`, and otherwise the block `nHeight - height` steps down
`pprev`. -/
theorem buildSkips_GetAncestor (p : BlockPtr) (hp : ChainHeights p) :
    ∃ q, buildSkips p = .ok q ∧ q.map index = p ∧
      ∀ b rest, b :: rest <:+ q →
        (∀ s srest, b.pskip = s :: srest → s :: srest <:+ rest ∧ s.index.nHeight < b.index.nHeight) ∧
        ∀ height, GetAncestor (b :: rest) height =
          .ok (if height > b.index.nHeight ∨ height < 0 then []
            else (b :: rest).drop (b.index.nHeight - height).toNat) := by
  obtain ⟨q, hq, hmap, hs⟩ := buildSkips_skips p hp
  refine ⟨q, hq, hmap, fun b rest hsuf => ⟨fun s srest hpskip => ?_, GetAncestor_eq (hs.suffix hsuf)⟩⟩
  have hb := hs.suffix hsuf
  -- a set `pskip` is not the genesis's
  have hrest : rest ≠ [] := by
    rintro rfl
    rw [hb.2.1, if_pos rfl] at hpskip
    cases hpskip
  obtain ⟨hdrop, hlen⟩ := hb.pskip hrest
  have hsuf' : s :: srest <:+ rest := hpskip ▸ hdrop ▸ List.drop_suffix _ _
  have hsk : Skips (s :: srest) := hb.2.2.suffix hsuf'
  have hlt := GetSkipHeight_lt (hb.one_le hrest)
  rw [hpskip, List.length_cons] at hlen
  refine ⟨hsuf', ?_⟩
  rw [hsk.1]
  omega

/-- The chain of heights `0` to `4`, the block at height `h` of hash bytes `h` and other
fields `0`. -/
def chainFive : BlockPtr :=
  (List.range 5).reverse.map fun h => ⟨Uint256.replicate (UInt8.ofNat h), h, 0, 0, 0⟩

theorem buildSkips_GetAncestor_chainFive :
    ChainHeights chainFive ∧
      ∃ q, buildSkips chainFive = .ok q ∧ q.map index = chainFive ∧
        ∀ b rest, b :: rest <:+ q →
          (∀ s srest, b.pskip = s :: srest →
            s :: srest <:+ rest ∧ s.index.nHeight < b.index.nHeight) ∧
          ∀ height, GetAncestor (b :: rest) height =
            .ok (if height > b.index.nHeight ∨ height < 0 then []
              else (b :: rest).drop (b.index.nHeight - height).toNat) :=
  ⟨by decide, buildSkips_GetAncestor chainFive (by decide)⟩

/-- A block at height `1`. -/
def blockAtOne : CBlockIndex := ⟨Uint256.replicate 1, 1, 0, 0, 0⟩

/-- A chain of one block at height `1`, without `pprev`: `BuildSkip` leaves its `pskip` `NULL`,
and `GetAncestor(0)` then runs out of `pprev`, where one step down `pprev` is `NULL`. -/
theorem GetAncestor_root_above_zero :
    buildSkips [blockAtOne] = .ok [⟨blockAtOne, []⟩] ∧
      GetAncestor [⟨blockAtOne, []⟩] 0 = .error "assert(pindexWalk->pprev)" := by
  refine ⟨rfl, ?_⟩
  dsimp only [GetAncestor]
  rw [dif_neg (by decide), getAncestorLoop, if_pos (by decide)]
  dsimp only
  rw [dif_neg (by simp), if_pos rfl]

end SkipIndex

end Unitus
