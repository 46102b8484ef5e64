import Mungi.BTree.Page
import Mungi.Lib.Runs
import Mungi.Words
import Mathlib.Data.Finset.Card

/-!
# The page pool of the object table

The pages of the object table come from one block of memory and are handed out by a
bitmap.  `alloc_page` and `free_page` compute the place of a page's bit by different
expressions: page `i` has bit `i % 32` of its word for the first, and bit `(i % 8) * 4`,
the C reading of `b % 8*sizeof(int)`, for the second.  The two agree for the pages
whose number is a multiple of 32.  And the array is shorter than the pool: 1000 pages
want 32 words, `1000/32` is 31, and with all of these full `alloc_page` looks at a word
behind the array.

## Main definitions

* `PoolMemory`, `objtableInit` — what `kmalloc` returned, and the pool made of it.
* `allocTouched` — the words of the bitmap that `alloc_page` looks at.
* `Allocatable` — a page that `alloc_page` comes to return.
* `PoolState`, `poolStep` — the pool, the pages in use, and the calls.
* `PoolState.Sound` — what a call is to do.

## Main results

* `allocatable_iff` — **the pages to come are those with a clear bit.**
* `pool_sound_iff` — **all calls of a run do what they are to do just when every freed page
  has a number that is a multiple of 32 and no page is asked for of a full array.**
-/

namespace Mungi

open Runs

/-- `MAX_POOL_SIZE` -/
def maxPoolSize : ℕ := 1000

/-- The length of the array `bitmap`: `MAX_POOL_SIZE/(8*sizeof(int))`. -/
def bitmapWords : ℕ := maxPoolSize / (8 * 4)

/-! ### The memory of the pool -/

/-- What `kmalloc` returned to `objtable_init`. -/
structure PoolMemory where
  /-- `L4_PAGESIZE` -/
  pageSize : ℕ
  pos : 0 < pageSize
  /-- The block for the pages, `size * L4_PAGESIZE` bytes. -/
  raw : ℕ
  /-- The block ends within the address space. -/
  fits : raw + maxPoolSize * pageSize ≤ 2 ^ 64
  /-- The bytes from `bitmap` on: those of the array, and those that lie behind. -/
  byte : ℕ → UInt8
  /-- The order of the bytes of a word. -/
  bigEndian : Bool

namespace PoolMemory

variable (m : PoolMemory)

/-- `pool->base`: the block, page aligned. -/
def base : ℕ := pageRoundUp m.pageSize m.raw

/-- The bytes from `bitmap` on after the `memset`, which takes a number of words for one
of bytes. -/
def cleared (i : ℕ) : UInt8 := if i < maxPoolSize / (8 * 4) then 0 else m.byte i

/-- A word of the bitmap after the `memset`. -/
def word (w : ℕ) : ℕ :=
  let b := fun i => (m.cleared (4 * w + i)).toNat
  if m.bigEndian then ((b 0 * 256 + b 1) * 256 + b 2) * 256 + b 3
  else ((b 3 * 256 + b 2) * 256 + b 1) * 256 + b 0

/-- `objtable_init`: the pool before the first object. -/
def objtableInit : PagePool where
  size := maxPoolSize
  nAllocs := 0
  nFrees := 0
  bitmap := m.word

/-- The address `alloc_page` returns for page `i`. -/
def address (i : ℕ) : ℕ := m.base + m.pageSize * i

/-- The number of a page, as `free_page` computes it from the address. -/
def number (p : ℕ) : ℕ := (p - m.base) / m.pageSize

/-- The page at `p` lies inside the block. -/
def Inside (p : ℕ) : Prop := m.raw ≤ p ∧ p + m.pageSize ≤ m.raw + maxPoolSize * m.pageSize

theorem word_lt (w : ℕ) : m.word w < 2 ^ 32 := by
  have h₀ := (m.cleared (4 * w + 0)).toNat_lt
  have h₁ := (m.cleared (4 * w + 1)).toNat_lt
  have h₂ := (m.cleared (4 * w + 2)).toNat_lt
  have h₃ := (m.cleared (4 * w + 3)).toNat_lt
  dsimp only [word]
  split <;> omega

@[simp] theorem number_address (i : ℕ) : m.number (m.address i) = i := by
  unfold number address
  rw [Nat.add_sub_cancel_left]
  exact Nat.mul_div_cancel_left i m.pos

theorem address_inj {i j : ℕ} (h : m.address i = m.address j) : i = j := by
  rw [← m.number_address i, h, number_address]

/-- Rounding up costs less than a page, and the array has no bit for the last eight. -/
theorem inside_address {i : ℕ} (h : i < bitmapWords * 32) : m.Inside (m.address i) := by
  have hfits := m.fits
  have h₁ : m.pageSize * 1 ≤ m.pageSize * maxPoolSize :=
    Nat.mul_le_mul_left _ (show 1 ≤ maxPoolSize by decide)
  have h₂ : m.pageSize * (i + 2) ≤ m.pageSize * maxPoolSize :=
    Nat.mul_le_mul_left _ (by unfold bitmapWords maxPoolSize at h; unfold maxPoolSize; omega)
  rw [Nat.mul_comm] at hfits
  obtain ⟨hle, hlt⟩ := pageRoundUp_spec (a := m.raw) m.pos (by omega)
  unfold Inside address base
  rw [Nat.mul_comm maxPoolSize]
  rw [Nat.mul_add] at h₂
  constructor
  · exact le_trans hle (Nat.le_add_right ..)
  · omega

end PoolMemory

/-! ### Bits of words -/

/-- The bit of page `i`, as `alloc_page` sees it. -/
def PagePool.bit (pool : PagePool) (i : ℕ) : Bool := (pool.bitmap (i / 32)).testBit (i % 32)

/-- All words have 32 bits. -/
def PagePool.Words (pool : PagePool) : Prop := ∀ w, pool.bitmap w < 2 ^ 32

theorem testBit_mask (b : ℕ) (hb : b < 32) (i : ℕ) :
    (2 ^ 32 - 1 - 2 ^ b).testBit i = (decide (i < 32) && decide (i ≠ b)) := by
  have h : 2 ^ b < 2 ^ 32 := Nat.pow_lt_pow_right (by decide) hb
  rw [show 2 ^ 32 - 1 - 2 ^ b = 2 ^ 32 - (2 ^ b + 1) by omega, Nat.testBit_two_pow_sub_succ h,
    Nat.testBit_two_pow]
  by_cases hib : b = i <;> simp [hib, Ne.symm]

theorem exists_clear {word : ℕ} (hlt : word < 2 ^ 32) (hne : word ≠ 2 ^ 32 - 1) :
    ∃ b < 32, word.testBit b = false := by
  by_contra hno
  apply hne
  apply Nat.eq_of_testBit_eq
  intro i
  rw [Nat.testBit_two_pow_sub_one]
  by_cases hi : i < 32
  · simp only [hi, decide_true]
    by_contra hbit
    exact hno ⟨i, hi, by simpa using hbit⟩
  · simp only [hi, decide_false]
    exact Nat.testBit_lt_two_pow (lt_of_lt_of_le hlt (Nat.pow_le_pow_right (by decide) (by omega)))

/-- Every bit of a full word is set. -/
theorem testBit_full {b : ℕ} (hb : b < 32) : (2 ^ 32 - 1).testBit b = true := by
  rw [Nat.testBit_two_pow_sub_one]
  simpa using hb

/-! ### The loops of `alloc_page` -/

/-- The words that the first loop of `alloc_page` looks at from `w` on.  The word it stops
at is the one it then sets a bit of. -/
def touchedFrom (pool : PagePool) : ℕ → ℕ → List ℕ
  | 0, _ => []
  | fuel + 1, w =>
      if w * 32 < pool.size then
        w :: if pool.bitmap w = 2 ^ 32 - 1 then touchedFrom pool fuel (w + 1) else []
      else []

/-- The words of the bitmap that `alloc_page` reads and writes. -/
def allocTouched (pool : PagePool) : List ℕ := touchedFrom pool pool.size 0

/-- Where the first loop of `alloc_page` stops, and what it has looked at. -/
theorem firstWord_spec (pool : PagePool) : ∀ fuel w, pool.size ≤ (w + fuel) * 32 →
    w ≤ firstWord pool fuel w ∧
      (∀ v, w ≤ v → v < firstWord pool fuel w → pool.bitmap v = 2 ^ 32 - 1) ∧
      (firstWord pool fuel w * 32 < pool.size →
        pool.bitmap (firstWord pool fuel w) ≠ 2 ^ 32 - 1) ∧
      ∀ v, v ∈ touchedFrom pool fuel w ↔
        w ≤ v ∧ v ≤ firstWord pool fuel w ∧ v * 32 < pool.size := by
  intro fuel
  induction fuel with
  | zero =>
    intro w hsize
    simp only [firstWord, touchedFrom]
    refine ⟨le_rfl, fun v h₁ h₂ => by omega, fun h => by omega, fun v => ?_⟩
    simp only [List.not_mem_nil, false_iff]
    omega
  | succ fuel ih =>
    intro w hsize
    simp only [firstWord, touchedFrom]
    by_cases hw : w * 32 < pool.size
    · by_cases hfull : pool.bitmap w = 2 ^ 32 - 1
      · obtain ⟨h₁, h₂, h₃, h₄⟩ := ih (w + 1) (by omega)
        rw [if_pos ⟨hw, hfull⟩, if_pos hw, if_pos hfull]
        refine ⟨by omega, fun v hle hlt => ?_, h₃, fun v => ?_⟩
        · rcases Nat.eq_or_lt_of_le hle with rfl | hlt'
          · exact hfull
          · exact h₂ v hlt' hlt
        · rw [List.mem_cons, h₄]
          constructor
          · rintro (rfl | ⟨ha, hb, hc⟩)
            · exact ⟨le_rfl, by omega, hw⟩
            · exact ⟨by omega, hb, hc⟩
          · rintro ⟨ha, hb, hc⟩
            rcases Nat.eq_or_lt_of_le ha with rfl | hlt'
            · exact Or.inl rfl
            · exact Or.inr ⟨hlt', hb, hc⟩
      · rw [if_neg (fun h => hfull h.2), if_pos hw, if_neg hfull]
        refine ⟨le_rfl, fun v h₁ h₂ => by omega, fun _ => hfull, fun v => ?_⟩
        rw [List.mem_singleton]
        constructor
        · rintro rfl
          exact ⟨le_rfl, le_rfl, hw⟩
        · rintro ⟨ha, hb, -⟩
          omega
    · rw [if_neg (fun h => hw h.1), if_neg hw]
      refine ⟨le_rfl, fun v h₁ h₂ => by omega, fun h => absurd h hw, fun v => ?_⟩
      simp only [List.not_mem_nil, false_iff]
      omega

/-- The second loop of `alloc_page` finds the first clear bit. -/
theorem firstClear_spec {word : ℕ} : ∀ fuel b, (∃ c, b ≤ c ∧ c < b + fuel ∧
    word.testBit c = false) →
    firstClear word fuel b < b + fuel ∧ word.testBit (firstClear word fuel b) = false ∧
      ∀ c, b ≤ c → c < firstClear word fuel b → word.testBit c = true := by
  intro fuel
  induction fuel with
  | zero =>
    rintro b ⟨c, h₁, h₂, -⟩
    omega
  | succ fuel ih =>
    rintro b ⟨c, h₁, h₂, hc⟩
    rw [firstClear]
    cases hb : word.testBit b with
    | false =>
      rw [if_neg (by simp)]
      exact ⟨by omega, hb, fun c' h₁' h₂' => by omega⟩
    | true =>
      rw [if_pos rfl]
      have hne : b ≠ c := by
        rintro rfl
        rw [hb] at hc
        cases hc
      obtain ⟨i₁, i₂, i₃⟩ := ih (b + 1) ⟨c, by omega, by omega, hc⟩
      refine ⟨by omega, i₂, fun c' h₁' h₂' => ?_⟩
      rcases Nat.eq_or_lt_of_le h₁' with rfl | hlt
      · exact hb
      · exact i₃ c' hlt h₂'

/-! ### What the calls do to the bits -/

/-- What `alloc_page` does: it looks at the words up to the first one with a clear bit and
returns the page of the first clear bit, unless the pool has run out. -/
theorem allocPage_spec {pool : PagePool} (hw : pool.Words) :
    (allocPage pool = none ∧ (∀ i, i / 32 * 32 < pool.size → pool.bit i = true) ∧
        ∀ v, v * 32 < pool.size → v ∈ allocTouched pool) ∨
      ∃ i pool', allocPage pool = some (i, pool') ∧ i / 32 * 32 < pool.size ∧
        pool.bit i = false ∧ (∀ j < i, pool.bit j = true) ∧ pool'.size = pool.size ∧
        pool'.Words ∧ (∀ j, pool'.bit j = (decide (j = i) || pool.bit j)) ∧
        ∀ v, v ∈ allocTouched pool ↔ v ≤ i / 32 := by
  obtain ⟨-, hfull, hstop, htouched⟩ := firstWord_spec pool pool.size 0 (by omega)
  dsimp only [allocPage]
  rw [show touchedFrom pool pool.size 0 = allocTouched pool from rfl] at htouched
  generalize firstWord pool pool.size 0 = w at hfull hstop htouched
  -- the bits below word `w` are set
  have hbelow : ∀ i, i / 32 < w → pool.bit i = true := by
    intro i hi
    unfold PagePool.bit
    rw [hfull _ (Nat.zero_le _) hi]
    exact testBit_full (Nat.mod_lt _ (by decide))
  by_cases hsize : pool.size ≤ w * 32
  · left
    rw [if_pos hsize]
    refine ⟨rfl, fun i hi => hbelow i (by omega), fun v hv => ?_⟩
    exact (htouched v).mpr ⟨Nat.zero_le v, by omega, hv⟩
  · right
    rw [if_neg hsize]
    obtain ⟨c, hc, hclear⟩ := exists_clear (hw w) (hstop (by omega))
    obtain ⟨hlt, hbit, hbefore⟩ := firstClear_spec 32 0 ⟨c, by omega, by omega, hclear⟩
    generalize firstClear (pool.bitmap w) 32 0 = b at hlt hbit hbefore
    have hdiv : (w * 32 + b) / 32 = w := by omega
    have hmod : (w * 32 + b) % 32 = b := by omega
    refine ⟨w * 32 + b, _, rfl, by omega, ?_, ?_, rfl, ?_, ?_, ?_⟩
    · unfold PagePool.bit
      rwa [hdiv, hmod]
    · intro j hj
      by_cases hjw : j / 32 < w
      · exact hbelow j hjw
      · unfold PagePool.bit
        rw [show j / 32 = w by omega]
        exact hbefore _ (Nat.zero_le _) (by omega)
    · intro v
      by_cases hv : v = w
      · subst hv
        simp only [Function.update_self]
        exact Nat.or_lt_two_pow (hw v) (Nat.pow_lt_pow_right (by decide) (by omega))
      · simp only [Function.update_of_ne hv]
        exact hw v
    · intro j
      unfold PagePool.bit
      by_cases hv : j / 32 = w
      · simp only [hv, Function.update_self, Nat.testBit_or, Nat.testBit_two_pow]
        rw [Bool.or_comm]
        congr 1
        exact decide_eq_decide.mpr ⟨fun h => by omega, fun h => by omega⟩
      · simp only [Function.update_of_ne hv]
        rw [decide_eq_false (by omega), Bool.false_or]
    · intro v
      rw [htouched, hdiv]
      exact ⟨fun h => h.2.1, fun h => ⟨Nat.zero_le v, h, by omega⟩⟩

/-- The page whose bit `free_page` clears. -/
def freedBit (i : ℕ) : ℕ := i / 32 * 32 + i % 8 * 4

/-- What `free_page` does: it panics, or clears a bit. -/
theorem freePage_spec {pool : PagePool} (hw : pool.Words) (i : ℕ) :
    (pool.bit (freedBit i) = false ∧ freePage pool i = none) ∨
      (pool.bit (freedBit i) = true ∧ ∃ pool', freePage pool i = some pool' ∧
        pool'.size = pool.size ∧ pool'.Words ∧
        ∀ j, pool'.bit j = (pool.bit j && decide (j ≠ freedBit i))) := by
  have hdiv : freedBit i / 32 = i / 32 := by unfold freedBit; omega
  have hmod : freedBit i % 32 = i % 8 * 4 := by unfold freedBit; omega
  dsimp only [freePage]
  have hbit : pool.bit (freedBit i) = (pool.bitmap (i / 32)).testBit (i % 8 * 4) := by
    unfold PagePool.bit
    rw [hdiv, hmod]
  rw [hbit]
  cases (pool.bitmap (i / 32)).testBit (i % 8 * 4) with
  | false => exact Or.inl ⟨rfl, if_neg (by simp)⟩
  | true =>
    refine Or.inr ⟨rfl, _, if_pos rfl, rfl, ?_, ?_⟩
    · intro v
      by_cases hv : v = i / 32
      · subst hv
        simp only [Function.update_self]
        exact lt_of_le_of_lt Nat.and_le_left (hw _)
      · simp only [Function.update_of_ne hv]
        exact hw v
    · intro j
      unfold PagePool.bit
      by_cases hv : j / 32 = i / 32
      · simp only [hv, Function.update_self, Nat.testBit_and]
        rw [testBit_mask _ (by omega)]
        have hj : j % 32 < 32 := Nat.mod_lt _ (by decide)
        simp only [hj, decide_true, Bool.true_and]
        congr 1
        exact decide_eq_decide.mpr ⟨fun h h' => h (by rw [h']; exact hmod),
          fun h h' => h (by unfold freedBit; omega)⟩
      · simp only [Function.update_of_ne hv]
        have hj : j ≠ freedBit i := fun h => hv (by rw [h, hdiv])
        simp [hj]

/-- The two expressions agree for the pages whose number is a multiple of 32. -/
theorem freedBit_eq_iff (i : ℕ) : freedBit i = i ↔ 32 ∣ i := by
  unfold freedBit
  omega

/-! ### The pages to come -/

/-- `alloc_page` comes to return page `i` of the pool, called again and again. -/
inductive Allocatable : PagePool → ℕ → Prop
  /-- At the next call. -/
  | now {pool pool' : PagePool} {i : ℕ} (h : allocPage pool = some (i, pool')) :
      Allocatable pool i
  /-- At a later call. -/
  | later {pool pool' : PagePool} {i j : ℕ} (h : allocPage pool = some (j, pool'))
      (hi : Allocatable pool' i) : Allocatable pool i

/-- The number of pages that `alloc_page` returns before page `i`. -/
def PagePool.clearBelow (pool : PagePool) (i : ℕ) : ℕ :=
  ((Finset.range i).filter fun j => pool.bit j = false).card

/-- **The pages to come are those with a clear bit**, in the words of the bitmap that the
search gets to. -/
theorem allocatable_iff {pool : PagePool} (hw : pool.Words) (i : ℕ) :
    Allocatable pool i ↔ i / 32 * 32 < pool.size ∧ pool.bit i = false := by
  constructor
  · intro h
    induction h with
    | now h =>
      obtain ⟨hnone, -⟩ | ⟨j, pool', hj, hsize, hclear, -⟩ := allocPage_spec hw
      · rw [h] at hnone
        cases hnone
      · rw [h] at hj
        cases hj
        exact ⟨hsize, hclear⟩
    | later h _ ih =>
      obtain ⟨hnone, -⟩ | ⟨j, pool', hj, -, -, -, hsize, hw', hbits, -⟩ := allocPage_spec hw
      · rw [h] at hnone
        cases hnone
      · rw [h] at hj
        cases hj
        obtain ⟨h₁, h₂⟩ := ih hw'
        rw [hbits, Bool.or_eq_false_iff] at h₂
        exact ⟨by rwa [hsize] at h₁, h₂.2⟩
  · rintro ⟨hi, hclear⟩
    -- by the number of clear bits before it: each call sets the first of them
    induction hn : pool.clearBelow i using Nat.strong_induction_on generalizing pool with
    | _ n ih =>
      obtain ⟨-, hfull⟩ | ⟨j, pool', hj, -, hjc, hbefore, hsize, hw', hbits, -⟩ :=
        allocPage_spec hw
      · rw [hfull.1 i hi] at hclear
        cases hclear
      · by_cases hij : i = j
        · subst hij
          exact .now hj
        · have hlt : j < i := by
            rcases Nat.lt_trichotomy i j with h | h | h
            · rw [hbefore i h] at hclear
              cases hclear
            · exact absurd h hij
            · exact h
          refine .later hj (ih (pool'.clearBelow i) ?_ hw' (by rwa [hsize]) ?_ rfl)
          · rw [← hn]
            apply Finset.card_lt_card
            rw [Finset.ssubset_iff_of_subset]
            · exact ⟨j, by simp [hlt, hjc], by simp [hbits]⟩
            · intro k
              simp only [Finset.mem_filter, hbits, Bool.or_eq_false_iff]
              exact fun h => ⟨h.1, h.2.2⟩
          · rw [hbits, hclear, decide_eq_false hij, Bool.or_false]

/-! ### Runs of the pool -/

/-- The pool, and the pages that are in use. -/
structure PoolState where
  pool : PagePool
  /-- The addresses `alloc_page` has returned since they were last freed. -/
  live : List ℕ

/-- The calls. -/
inductive PoolOp where
  | alloc
  | free (p : ℕ)
  deriving DecidableEq, Repr

/-- One call: none for a page that is not in use, and the kernel stops at a panic. -/
def poolStep (m : PoolMemory) (s : PoolState) : PoolOp → Option PoolState
  | .alloc =>
      match allocPage s.pool with
      | some (i, pool) => some ⟨pool, m.address i :: s.live⟩
      | none => some s
  | .free p =>
      if p ∈ s.live then (freePage s.pool (m.number p)).map fun pool => ⟨pool, s.live.erase p⟩
      else none

/-- The state `objtable_init` leaves. -/
def poolStart (m : PoolMemory) : PoolState := ⟨m.objtableInit, []⟩

/-- What a call is to do: stay within the array, return a page of the block that is not in
use, and free a page in use without a panic, so that just this page can be allocated again. -/
def PoolState.Sound (m : PoolMemory) (s : PoolState) : PoolOp → Prop
  | .alloc => (∀ w ∈ allocTouched s.pool, w < bitmapWords) ∧
      ∀ i pool, allocPage s.pool = some (i, pool) → m.address i ∉ s.live ∧ m.Inside (m.address i)
  | .free p => p ∈ s.live → m.number p / 32 < bitmapWords ∧
      ∃ pool, freePage s.pool (m.number p) = some pool ∧
        ∀ i, Allocatable pool i ↔ i = m.number p ∨ Allocatable s.pool i

/-- When it does so: a word of the array is not full, and the number of the page is a multiple
of 32. -/
def PoolState.Fits (m : PoolMemory) (s : PoolState) : PoolOp → Prop
  | .alloc => ∃ w < bitmapWords, s.pool.bitmap w ≠ 2 ^ 32 - 1
  | .free p => p ∈ s.live → 32 ∣ m.number p

/-- The invariant of the calls that go well: a page in use has its bit set in the array. -/
structure PoolState.Kept (m : PoolMemory) (s : PoolState) : Prop where
  size : s.pool.size = maxPoolSize
  words : s.pool.Words
  nodup : s.live.Nodup
  set : ∀ p ∈ s.live, ∃ i < bitmapWords * 32, p = m.address i ∧ s.pool.bit i = true

section Calls
variable {m : PoolMemory} {s s' : PoolState}

theorem kept_start (m : PoolMemory) : (poolStart m).Kept m where
  size := rfl
  words := m.word_lt
  nodup := List.nodup_nil
  set := by simp [poolStart]

/-- A call does what it is to do just when it meets the condition. -/
theorem sound_iff_fits (h : s.Kept m) (op : PoolOp) : s.Sound m op ↔ s.Fits m op := by
  cases op with
  | alloc =>
    simp only [PoolState.Sound, PoolState.Fits]
    obtain ⟨hnone, hfull⟩ | ⟨i, pool, hi, hsize, hclear, hbefore, -, -, -, htouched⟩ :=
      allocPage_spec h.words
    · -- the search runs through the array and on to the word behind it
      rw [h.size] at hfull
      constructor
      · rintro ⟨htouch, -⟩
        exact absurd (htouch bitmapWords (hfull.2 _ (by decide))) (lt_irrefl _)
      · rintro ⟨w, hw, hne⟩
        obtain ⟨b, hb, hbit⟩ := exists_clear (h.words w) hne
        have hset := hfull.1 (w * 32 + b)
          (by unfold bitmapWords maxPoolSize at hw; unfold maxPoolSize; omega)
        unfold PagePool.bit at hset
        rw [show (w * 32 + b) / 32 = w by omega, show (w * 32 + b) % 32 = b by omega, hbit]
          at hset
        cases hset
    · have hword : i / 32 < bitmapWords ↔ ∃ w < bitmapWords, s.pool.bitmap w ≠ 2 ^ 32 - 1 := by
        constructor
        · intro hlt
          refine ⟨i / 32, hlt, fun hfull => ?_⟩
          unfold PagePool.bit at hclear
          rw [hfull, testBit_full (Nat.mod_lt _ (by decide))] at hclear
          cases hclear
        · rintro ⟨w, hw, hne⟩
          obtain ⟨b, hb, hbit⟩ := exists_clear (h.words w) hne
          by_contra hle
          have hset := hbefore (w * 32 + b) (by omega)
          unfold PagePool.bit at hset
          rw [show (w * 32 + b) / 32 = w by omega, show (w * 32 + b) % 32 = b by omega, hbit]
            at hset
          cases hset
      rw [← hword]
      constructor
      · rintro ⟨htouch, -⟩
        exact htouch _ ((htouched _).mpr le_rfl)
      · intro hlt
        refine ⟨fun v hv => lt_of_le_of_lt ((htouched v).mp hv) hlt, ?_⟩
        intro j pool' hj
        rw [hi] at hj
        cases hj
        refine ⟨fun hlive => ?_, m.inside_address (by omega)⟩
        obtain ⟨j, -, hij, hset⟩ := h.set _ hlive
        rw [← m.address_inj hij, hclear] at hset
        cases hset
  | free p =>
    simp only [PoolState.Sound, PoolState.Fits]
    apply imp_congr_right
    intro hlive
    obtain ⟨i, hi, rfl, hset⟩ := h.set p hlive
    rw [m.number_address]
    obtain ⟨hbit, hpanic⟩ | ⟨hbit, pool, hfree, hsize, hwords, hbits⟩ := freePage_spec h.words i
    · -- a bit that is not set is not the page's own
      simp only [hpanic]
      constructor
      · rintro ⟨-, pool, hno, -⟩
        cases hno
      · intro hdvd
        rw [(freedBit_eq_iff i).mpr hdvd, hset] at hbit
        cases hbit
    · constructor
      · rintro ⟨-, pool', hfree', hall⟩
        rw [hfree] at hfree'
        cases hfree'
        have hagain := (allocatable_iff hwords i).mp ((hall i).mpr (Or.inl rfl))
        rw [hbits, hset, Bool.true_and, decide_eq_false_iff_not, not_not] at hagain
        exact (freedBit_eq_iff i).mp hagain.2.symm
      · intro hdvd
        have hplace := (freedBit_eq_iff i).mpr hdvd
        refine ⟨by omega, pool, hfree, fun j => ?_⟩
        rw [allocatable_iff hwords, allocatable_iff h.words, hbits, hsize, hplace]
        by_cases hj : j = i
        · subst hj
          have hin : j / 32 * 32 < s.pool.size := by
            rw [h.size]
            unfold bitmapWords maxPoolSize at hi
            unfold maxPoolSize
            omega
          simp [hin]
        · simp [hj]

/-- A call that meets the condition keeps the invariant. -/
theorem kept_step (h : s.Kept m) {op : PoolOp} (hfits : s.Fits m op)
    (hstep : poolStep m s op = some s') : s'.Kept m := by
  cases op with
  | alloc =>
    obtain ⟨hnone, -⟩ | ⟨i, pool, hi, -, hclear, -, hsize, hwords, hbits, htouched⟩ :=
      allocPage_spec h.words
    · simp only [poolStep, hnone, Option.some.injEq] at hstep
      rwa [← hstep]
    · have hsound := (sound_iff_fits h .alloc).mpr hfits
      simp only [poolStep, hi, Option.some.injEq] at hstep
      rw [← hstep]
      have hlt := hsound.1 _ ((htouched _).mpr le_rfl)
      refine ⟨by rw [hsize, h.size], hwords, ?_, ?_⟩
      · exact List.nodup_cons.mpr ⟨(hsound.2 i pool hi).1, h.nodup⟩
      · intro p hp
        rcases List.mem_cons.mp hp with rfl | hp
        · exact ⟨i, by omega, rfl, by simp [hbits]⟩
        · obtain ⟨j, hj, rfl, hset⟩ := h.set p hp
          exact ⟨j, hj, rfl, by simp [hbits, hset]⟩
  | free p =>
    by_cases hlive : p ∈ s.live
    · obtain ⟨i, hi, rfl, hset⟩ := h.set p hlive
      have hdvd := hfits hlive
      rw [m.number_address] at hdvd
      simp only [poolStep, if_pos hlive, m.number_address] at hstep
      obtain ⟨-, hpanic⟩ | ⟨-, pool, hfree, hsize, hwords, hbits⟩ := freePage_spec h.words i
      · rw [hpanic] at hstep
        cases hstep
      · rw [hfree, Option.map_some, Option.some.injEq] at hstep
        rw [← hstep]
        refine ⟨by rw [hsize, h.size], hwords, h.nodup.erase _, ?_⟩
        intro p hp
        obtain ⟨hne, hp⟩ := (h.nodup.mem_erase_iff).mp hp
        obtain ⟨j, hj, rfl, hset'⟩ := h.set p hp
        have hji : j ≠ i := fun h => hne (by rw [h])
        refine ⟨j, hj, rfl, ?_⟩
        rw [hbits, (freedBit_eq_iff i).mpr hdvd]
        simp [hset', hji]
    · simp only [poolStep, if_neg hlive] at hstep
      cases hstep

end Calls

/-- **The runs of the pool.**  All calls of a run do what they are to do just when all of them
meet the condition: no page is asked for of a full array, and only pages are freed whose number
is a multiple of 32. -/
theorem pool_sound_iff (m : PoolMemory) (ops : List PoolOp) :
    Along (poolStep m) (PoolState.Sound m) (poolStart m) ops ↔
      Along (poolStep m) (PoolState.Fits m) (poolStart m) ops :=
  along_congr (fun _ op h => sound_iff_fits h op)
    (fun _ _ _ h hfits hstep => kept_step h hfits hstep) ops _ (kept_start m)

/-- A block of pages that starts on a page boundary, and memory that was clear. -/
def clearMemory : PoolMemory := ⟨4096, by decide, 4096, by decide, fun _ => 0, true⟩

/-- Two pages are taken, and `free_page` looks at bit 4 for the second. -/
theorem pool_not_sound : ¬ ∀ m ops,
    Along (poolStep m) (PoolState.Sound m) (poolStart m) ops := by
  intro h
  have hrun : (run (poolStep clearMemory) (poolStart clearMemory) [.alloc, .alloc]).map
      (fun s => (decide (8192 ∈ s.live), (freePage s.pool (clearMemory.number 8192)).isNone)) =
        some (true, true) := by decide +kernel
  obtain ⟨s, hs, hfacts⟩ := Option.map_eq_some_iff.mp hrun
  obtain ⟨hlive, hpanic⟩ := Prod.mk.inj hfacts
  have hsound := (h clearMemory ([.alloc, .alloc] ++ .free 8192 :: [])).at hs
  obtain ⟨-, pool, hfree, -⟩ := hsound (of_decide_eq_true hlive)
  rw [hfree] at hpanic
  cases hpanic

end Mungi
