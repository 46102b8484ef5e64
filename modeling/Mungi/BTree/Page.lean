import Mungi.Lib.ForLoop
import Mungi.Lib.Cat
import Mathlib.Data.Nat.Bitwise

/-!
# Pages of the object table

The object table is the B+ tree of `klibc/btree.c`, configured by the macros of
`btree_conf.h`.  A page is a record of two arrays, and a child pointer leads to
another page or, out of a leaf, to an object.  Here pages are values: a child
pointer carries the page it points to, and a page keeps its place in the page
pool, which is all `free_page` wants of its address.

## Main definitions

* `BTConf` — the macros of `btree_conf.h` and `BT_ORDER`.
* `BTPtr`, `BTPage`, `BTree` — child pointers, pages and trees.
* `PagePool`, `allocPage`, `freePage` — the bitmap of free pages.
* `pageSearch` — the binary search every operation makes in a page.
* `btSearch` — `BTSearch`.
* `BTPtr.toList` — the objects below a pointer, in order.

## Main results

* `pageSearch_spec` — where the binary search ends.
-/

namespace Mungi

open Cat ForLoop

/-- The configuration of the tree: `btree_conf.h`, together with what the code
reads when it takes a page for an object. -/
structure BTConf (α : Type) where
  /-- `BT_ORDER`, the maximal number of children of a page. -/
  btOrder : ℤ
  /-- `BTGetObjKey`, the base of an object. -/
  btGetObjKey : α → ℕ
  /-- The end of an object, one past its last key. -/
  btGetObjLim : α → ℕ
  /-- The first word of a page: `count`, `isleaf` and padding, read as a `base`.
  It depends on the byte order, so it is left open. -/
  pageWord : ℤ → Bool → ℕ

variable {α : Type}

/-- `BT_MAXKEY` -/
def BTConf.btMaxkey (c : BTConf α) : ℤ := c.btOrder - 1

/-- `BT_MINKEY`, that is `BT_MAXKEY >> 1`. -/
def BTConf.btMinkey (c : BTConf α) : ℤ := c.btMaxkey / 2

/-- `BTObjMatch`: the key lies within the object. -/
def BTConf.btObjMatch (c : BTConf α) (o : α) (k : ℕ) : Bool :=
  decide (c.btGetObjKey o ≤ k) && decide (k < c.btGetObjLim o)

/-- `BTOverlaps` -/
def BTConf.btOverlaps (c : BTConf α) (o₁ o₂ : α) : Bool :=
  (decide (c.btGetObjKey o₁ ≤ c.btGetObjKey o₂) && decide (c.btGetObjKey o₂ < c.btGetObjLim o₁)) ||
  (decide (c.btGetObjKey o₂ ≤ c.btGetObjKey o₁) && decide (c.btGetObjKey o₁ < c.btGetObjLim o₂))

/-- The codes the operations return; `BT_FOUND` is `BT_OK`. -/
inductive BTRet where
  | ok
  | invalid
  | notFound
  | duplicate
  | overlap
  | allocFail
  /-- Internal: place the promoted key. -/
  | promotion
  /-- Internal: redistribute keys from a sibling. -/
  | lessThanMin
  deriving DecidableEq, Repr

/-! ### Pages and trees -/

/-- `struct sBTPage`, over the type of its child pointers, with the place of the
page in the pool. -/
structure PageOf (P : Type) where
  /-- The page is `pool->base + idx * L4_PAGESIZE`. -/
  idx : ℕ
  count : ℤ
  isleaf : Bool
  key : ℤ → ℕ
  child : ℤ → P

/-- A child pointer: to a page, or, out of a leaf, to an object. -/
inductive BTPtr (α : Type) where
  | null
  | obj (o : α)
  | page (p : PageOf (BTPtr α))

/-- A page. -/
abbrev BTPage (α : Type) := PageOf (BTPtr α)

/-- The objects below a pointer, in order. -/
def BTPtr.toList : BTPtr α → List α
  | .null => []
  | .obj o => [o]
  | .page ⟨_, count, _, _, child⟩ => cat (fun i => (child i).toList) 0 (count + 1).toNat

@[simp] theorem BTPtr.toList_null : (BTPtr.null : BTPtr α).toList = [] := rfl

@[simp] theorem BTPtr.toList_obj (o : α) : (BTPtr.obj o).toList = [o] := rfl

/-- `BTGetObjKey` of a child pointer taken for an object. -/
def BTConf.ptrKey (c : BTConf α) : BTPtr α → ℕ
  | .null => 0
  | .obj o => c.btGetObjKey o
  | .page p => c.pageWord p.count p.isleaf

/-- `ptr->count` -/
def BTPtr.count : BTPtr α → ℤ
  | .page p => p.count
  | _ => 0

/-- The place of a page in the pool. -/
def BTPtr.idx : BTPtr α → ℕ
  | .page p => p.idx
  | _ => 0

@[simp] theorem BTPtr.count_page (p : BTPage α) : (BTPtr.page p).count = p.count := rfl

@[simp] theorem BTPtr.idx_page (p : BTPage α) : (BTPtr.page p).idx = p.idx := rfl

/-- `GetLeastKey`: down the first children to a leaf, and the key of its first
object. -/
def getLeastKey (c : BTConf α) : BTPtr α → ℕ
  | .null => 0
  | .obj _ => 0
  | .page ⟨_, _, isleaf, _, child⟩ =>
      if isleaf then c.ptrKey (child 0) else getLeastKey c (child 0)

/-! ### The page pool -/

/-- `PagePool`, its pages counted from `base` on. -/
structure PagePool where
  /-- In pages, the number of bits of `bitmap`. -/
  size : ℕ
  nAllocs : ℕ
  nFrees : ℕ
  /-- 32-bit words, a bit set for every page in use. -/
  bitmap : ℕ → ℕ

/-- The first loop of `alloc_page`: the first word from `w` on with a clear bit. -/
def firstWord (pool : PagePool) : ℕ → ℕ → ℕ
  | 0, w => w
  | fuel + 1, w =>
      if w * 32 < pool.size ∧ pool.bitmap w = 2 ^ 32 - 1 then firstWord pool fuel (w + 1) else w

/-- The second loop of `alloc_page`: the first clear bit of a word from `b` on. -/
def firstClear (word : ℕ) : ℕ → ℕ → ℕ
  | 0, b => b
  | fuel + 1, b => if word.testBit b then firstClear word fuel (b + 1) else b

/-- `alloc_page`: the place of the new page; `none` when the pool has run out. -/
def allocPage (pool : PagePool) : Option (ℕ × PagePool) :=
  let w := firstWord pool pool.size 0
  if pool.size ≤ w * 32 then none
  else
    let b := firstClear (pool.bitmap w) 32 0
    some (w * 32 + b,
      { pool with
        bitmap := Function.update pool.bitmap w (pool.bitmap w ||| 2 ^ b)
        nAllocs := (pool.nAllocs + 1) % 2 ^ 32 })

/-- `free_page`; `none` when it panics.  The bit it clears is
`b % 8*sizeof(int)`, which C reads as `(b % 8) * 4`. -/
def freePage (pool : PagePool) (b : ℕ) : Option PagePool :=
  let w := b / 32
  let bit := b % 8 * 4
  if (pool.bitmap w).testBit bit then
    some { pool with
      bitmap := Function.update pool.bitmap w (pool.bitmap w &&& (2 ^ 32 - 1 - 2 ^ bit))
      nFrees := (pool.nFrees + 1) % 2 ^ 32 }
  else none

/-- `free_page` for one page after another. -/
def freePages : PagePool → List ℕ → Option PagePool
  | pool, [] => some pool
  | pool, b :: bs => (freePage pool b).bind fun pool' => freePages pool' bs

@[simp] theorem freePages_nil (pool : PagePool) : freePages pool [] = some pool := rfl

theorem freePages_append (pool : PagePool) (bs bs' : List ℕ) :
    freePages pool (bs ++ bs') = (freePages pool bs).bind fun pool' => freePages pool' bs' := by
  induction bs generalizing pool with
  | nil => rfl
  | cons b bs ih =>
    simp only [List.cons_append, freePages]
    cases freePage pool b with
    | none => rfl
    | some pool' => exact ih pool'

/-- `BTree_S` -/
structure BTree (α : Type) where
  depth : ℤ
  /-- The root page, `null` for the empty tree. -/
  root : BTPtr α
  pool : PagePool

/-- The objects of a tree, in order. -/
def BTree.toList (t : BTree α) : List α := t.root.toList

/-! ### Binary search -/

/-- The loop `while (lo < hi)` that looks `k` up among the keys of a page: the
final `hi`, and whether the loop was left at an equal key. -/
def pageSearch (key : ℤ → ℕ) (k : ℕ) : ℕ → ℤ → ℤ → ℤ × Bool
  | 0, _, hi => (hi, false)
  | fuel + 1, lo, hi =>
      if lo < hi then
        let mid := (lo + hi) / 2
        if key mid = k then (mid + 1, true)
        else if k < key mid then pageSearch key k fuel lo mid
        else pageSearch key k fuel (mid + 1) hi
      else (hi, false)

/-- The binary search over all keys of a page. -/
def PageOf.search {P : Type} (p : PageOf P) (k : ℕ) : ℤ × Bool :=
  pageSearch p.key k p.count.toNat 0 p.count

/-- The search stays in its interval, and an equal key is where it says. -/
theorem pageSearch_bounds (key : ℤ → ℕ) (k : ℕ) : ∀ (fuel : ℕ) (lo hi : ℤ), lo ≤ hi →
    lo ≤ (pageSearch key k fuel lo hi).1 ∧ (pageSearch key k fuel lo hi).1 ≤ hi ∧
      ((pageSearch key k fuel lo hi).2 = true →
        lo < (pageSearch key k fuel lo hi).1 ∧
          key ((pageSearch key k fuel lo hi).1 - 1) = k) := by
  intro fuel
  induction fuel with
  | zero => intro lo hi h; simp [pageSearch, h]
  | succ fuel ih =>
    intro lo hi h
    rw [pageSearch]
    by_cases hlt : lo < hi
    · rw [if_pos hlt]
      have hmid : lo ≤ (lo + hi) / 2 ∧ (lo + hi) / 2 < hi := by omega
      dsimp only
      generalize (lo + hi) / 2 = mid at hmid
      by_cases heq : key mid = k
      · rw [if_pos heq]
        refine ⟨by omega, by omega, fun _ => ⟨by omega, ?_⟩⟩
        rw [show mid + 1 - 1 = mid by omega, heq]
      · rw [if_neg heq]
        split
        · obtain ⟨h₁, h₂, h₃⟩ := ih lo mid hmid.1
          exact ⟨h₁, by omega, h₃⟩
        · obtain ⟨h₁, h₂, h₃⟩ := ih (mid + 1) hi (by omega)
          exact ⟨by omega, h₂, fun hf => ⟨by have := (h₃ hf).1; omega, (h₃ hf).2⟩⟩
    · rw [if_neg hlt]
      simp [h]

/-- **Where the binary search ends.**  In increasing keys it ends at the first
key above `k`, unless it was left at `k` itself. -/
theorem pageSearch_spec {key : ℤ → ℕ} {k : ℕ} : ∀ (fuel : ℕ) (lo hi : ℤ), lo ≤ hi →
    hi - lo ≤ fuel → (∀ i j, lo ≤ i → i < j → j < hi → key i < key j) →
    (pageSearch key k fuel lo hi).2 = false →
      (∀ i, lo ≤ i → i < (pageSearch key k fuel lo hi).1 → key i < k) ∧
        (∀ i, (pageSearch key k fuel lo hi).1 ≤ i → i < hi → k < key i) := by
  intro fuel
  induction fuel with
  | zero =>
    intro lo hi h hf _ _
    simp only [pageSearch]
    exact ⟨fun i h₁ h₂ => by omega, fun i h₁ h₂ => by omega⟩
  | succ fuel ih =>
    intro lo hi h hf hmono
    rw [pageSearch]
    by_cases hlt : lo < hi
    · rw [if_pos hlt]
      have hmid : lo ≤ (lo + hi) / 2 ∧ (lo + hi) / 2 < hi := by omega
      dsimp only
      generalize (lo + hi) / 2 = mid at hmid
      by_cases heq : key mid = k
      · rw [if_pos heq]; intro h; cases h
      · rw [if_neg heq]
        by_cases hgt : k < key mid
        · rw [if_pos hgt]
          intro hfound
          obtain ⟨h₁, h₂⟩ := ih lo mid hmid.1 (by omega)
            (fun i j hi hij hj => hmono i j hi hij (by omega)) hfound
          refine ⟨h₁, fun i hi₁ hi₂ => ?_⟩
          rcases lt_trichotomy i mid with hm | hm | hm
          · exact h₂ i hi₁ hm
          · rw [hm]; exact hgt
          · exact lt_trans hgt (hmono mid i hmid.1 hm hi₂)
        · rw [if_neg hgt]
          intro hfound
          obtain ⟨h₁, h₂⟩ := ih (mid + 1) hi (by omega) (by omega)
            (fun i j hi hij hj => hmono i j (by omega) hij hj) hfound
          refine ⟨fun i hi₁ hi₂ => ?_, h₂⟩
          rcases lt_trichotomy i mid with hm | hm | hm
          · exact lt_trans (hmono i mid hi₁ hm hmid.2) (by omega)
          · rw [hm]; omega
          · exact h₁ i (by omega) hi₂
    · rw [if_neg hlt]
      intro _
      exact ⟨fun i h₁ h₂ => by dsimp only at h₂; omega, fun i h₁ h₂ => by dsimp only at h₁; omega⟩

/-! ### Lookup -/

/-- The descent of `BTSearch`: the object left in `*obj`. -/
def btSearchPage (c : BTConf α) (k : ℕ) : BTPtr α → Option α
  | .null => none
  | .obj _ => none
  | .page ⟨idx, count, isleaf, key, child⟩ =>
      let hi := (PageOf.search ⟨idx, count, isleaf, key, child⟩ k).1
      if isleaf then
        match child hi with
        | .obj o => some o
        | _ => none
      else btSearchPage c k (child hi)

/-- `BTSearch`; the object is meant only with `BT_OK`. -/
def btSearch (c : BTConf α) (t : BTree α) (k : ℕ) : BTRet × Option α :=
  match t.root with
  | .null => (.notFound, none)
  | r =>
    match btSearchPage c k r with
    | some o => if c.btObjMatch o k then (.ok, some o) else (.notFound, some o)
    | none => (.notFound, none)

end Mungi
