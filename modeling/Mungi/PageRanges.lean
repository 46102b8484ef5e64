import Mathlib.Data.Set.BooleanAlgebra
import Mathlib.Order.CompletePartialOrder
import Mathlib.Order.Interval.Set.Basic
import Mungi.Lib.Bytes
import Mungi.Validation

/-!
# Ranges of pages

`PageCopy` and `PageFlush` (`syscalls.c`) are given ranges of pages by their first address and a
count, and validate the address.  Where a range ends is computed with words: the product of the
count and the page size may have lost its upper bits, and the sum may have wrapped.  `PageCopy`
compares the ends with those of the objects, but does not ask whether the ranges overlap, and
`PageFlush` compares the end with where the object starts.

## Main definitions

* `sysPageCopy`, `sysPageFlush` — the functions.
* `PageUnit.range`, `Obj.extent` — ranges of pages, and objects, as sets of addresses.
* `CopyRight`, `FlushRight` — a call does what it is for.
* `CopyMeets`, `FlushMeets` — where the functions go right.

## Main results

* `PageUnit.range_subset_iff`, `PageUnit.disjoint_range_iff` — the sets, in numbers.
* `CopyValidated.sysPageCopy_eq` — what `sys_page_copy` comes to.
* `validateObj_contains` — addresses that are validated are those of the object.
* `pageRanges_iff` — **when the calls do what they are for.**
-/

namespace Mungi

open Bytes ForLoop Runs

variable {O : Type}

/-! ### The code -/

/-- `L4_PAGESIZE`, which is a number of whole words, and how many bits its product with a count
has: 32 if it is an `int`, more if it is a `long`. -/
structure PageUnit where
  size : ℕ
  width : ℕ
  words : 8 ∣ size
  wide : 32 ≤ width

/-- `n_pages*L4_PAGESIZE` -/
def PageUnit.bytes (u : PageUnit) (nPages : UInt32) : ℕ := nPages.toNat * u.size % 2 ^ u.width

/-- What the calls return. -/
inductive PageRet where
  | succ
  | prot
  | rng
  deriving DecidableEq

/-- The readings of the clock that a validation makes. -/
structure Clock where
  now : ℕ
  t₁ : ℕ
  t₂ : ℕ

/-- `validate_obj`: the cache, and the object. -/
def validateObj (k : Kernel O) (apd : ApdDesc) (v : Vcache O CapPtr) (addr : ℕ) (access : Access)
    (time : Clock) : Option (Vcache O CapPtr × Option O) :=
  (doValidateObj k apd v addr access time.now time.t₁ time.t₂).map fun r => (r.1, r.2.1)

/-- What the calls may change: the cache of the caller's APD, and the memory of the objects. -/
structure PageState (O : Type) where
  cache : Vcache O CapPtr
  mem : ℕ → BitVec 8

/-- The arguments of `PageCopy`, and the readings of the clock when they are validated. -/
structure CopyCall where
  src : ℕ
  dest : ℕ
  nPages : UInt32
  srcTime : Clock
  destTime : Clock

/-- The arguments of `PageFlush`. -/
structure FlushCall where
  page : ℕ
  nPages : UInt32
  time : Clock

/-- `((long long*)dest)[i] = ((long long*)src)[i]` -/
def copyWord (src dest : ℕ) (i : ℤ) (m : ℕ → BitVec 8) : ℕ → BitVec 8 :=
  copy m (wordAdd dest (8 * i.toNat)) 8 fun j => m (wordAdd src (8 * i.toNat) + j)

/-- The loop of `sys_page_copy`; no result when its index, an `int`, overflows. -/
def copyWords (src dest words : ℕ) (m : ℕ → BitVec 8) : Option (ℕ → BitVec 8) :=
  if words < 2 ^ 31 then some (forUp (copyWord src dest) 0 words m) else none

/-- `sys_page_copy` -/
def sysPageCopy (u : PageUnit) (k : Kernel O) (apd : ApdDesc) (s : PageState O) (c : CopyCall) :
    Option (PageState O × PageRet) :=
  (validateObj k apd s.cache c.src mRead c.srcTime).bind fun r =>
    match r with
    | (v, none) => some (⟨v, s.mem⟩, .prot)
    | (v, some objsrc) =>
      (validateObj k apd v c.dest mWrite c.destTime).bind fun r =>
        match r with
        | (v, none) => some (⟨v, s.mem⟩, .prot)
        | (v, some objdest) =>
          let srclimit := wordAdd c.src (u.bytes c.nPages)
          let destlimit := wordAdd c.dest (u.bytes c.nPages)
          if srclimit > (k.obj objsrc).limit ∨ destlimit > (k.obj objdest).limit then
            some (⟨v, s.mem⟩, .rng)
          else (copyWords c.src c.dest (u.bytes c.nPages / 8) s.mem).map fun m => (⟨v, m⟩, .succ)

/-- `sys_page_flush` -/
def sysPageFlush (u : PageUnit) (k : Kernel O) (apd : ApdDesc) (s : PageState O) (c : FlushCall) :
    Option (PageState O × PageRet) :=
  (validateObj k apd s.cache c.page (mRead ||| mWrite) c.time).bind fun r =>
    match r with
    | (v, none) => some (⟨v, s.mem⟩, .prot)
    | (v, some obj) =>
      let ptrlimit := wordAdd c.page (u.bytes c.nPages)
      if ptrlimit > (k.obj obj).base then some (⟨v, s.mem⟩, .rng)
      else some (⟨v, s.mem⟩, .succ)

/-! ### What the calls are for -/

/-- The number of bytes that a count of pages stands for. -/
def PageUnit.total (u : PageUnit) (nPages : UInt32) : ℕ := nPages.toNat * u.size

/-- The addresses of a range of pages. -/
def PageUnit.range (u : PageUnit) (addr : ℕ) (nPages : UInt32) : Set ℕ :=
  Set.Ico addr (addr + u.total nPages)

/-- The addresses of an object. -/
def Obj.extent (obj : Obj) : Set ℕ := {addr | obj.Contains addr}

/-- The range from `dest` on has got what was in the range from `src` on, and nothing else has
changed. -/
structure PageUnit.Copied (u : PageUnit) (src dest : ℕ) (nPages : UInt32)
    (m m' : ℕ → BitVec 8) : Prop where
  copied : ∀ i < u.total nPages, m' (dest + i) = m (src + i)
  others : ∀ x, x ∉ u.range dest nPages → m' x = m x

/-- The addresses are validated, `src` in the object `objsrc` and `dest` in `objdest`. -/
structure CopyValidated (k : Kernel O) (apd : ApdDesc) (s : PageState O) (c : CopyCall)
    (objsrc objdest : O) : Prop where
  valid : ∃ v w, validateObj k apd s.cache c.src mRead c.srcTime = some (v, some objsrc) ∧
    validateObj k apd v c.dest mWrite c.destTime = some (w, some objdest)
  src_mem : (k.obj objsrc).Contains c.src
  dest_mem : (k.obj objdest).Contains c.dest

/-- The address is validated, in the object `obj`. -/
structure FlushValidated (k : Kernel O) (apd : ApdDesc) (s : PageState O) (c : FlushCall)
    (obj : O) : Prop where
  valid : ∃ v, validateObj k apd s.cache c.page (mRead ||| mWrite) c.time = some (v, some obj)
  page_mem : (k.obj obj).Contains c.page

/-- A call of `PageCopy` does what it is for.  With validated addresses it succeeds if and only if
the ranges are in their objects and do not overlap, and has then copied the one to the other; when
it is refused, no memory has changed. -/
structure CopyRight (u : PageUnit) (k : Kernel O) (apd : ApdDesc) (s : PageState O)
    (c : CopyCall) : Prop where
  refused : ∀ s' ret, sysPageCopy u k apd s c = some (s', ret) → ret ≠ .succ → s'.mem = s.mem
  validated : ∀ objsrc objdest, CopyValidated k apd s c objsrc objdest →
    ∃ s' ret, sysPageCopy u k apd s c = some (s', ret) ∧
      (ret = .succ ↔ u.range c.src c.nPages ⊆ (k.obj objsrc).extent ∧
        u.range c.dest c.nPages ⊆ (k.obj objdest).extent ∧
        Disjoint (u.range c.src c.nPages) (u.range c.dest c.nPages)) ∧
      (ret = .succ → u.Copied c.src c.dest c.nPages s.mem s'.mem)

/-- A call of `PageFlush` does what it is for. -/
structure FlushRight (u : PageUnit) (k : Kernel O) (apd : ApdDesc) (s : PageState O)
    (c : FlushCall) : Prop where
  refused : ∀ s' ret, sysPageFlush u k apd s c = some (s', ret) → ret ≠ .succ → s'.mem = s.mem
  validated : ∀ obj, FlushValidated k apd s c obj →
    ∃ s' ret, sysPageFlush u k apd s c = some (s', ret) ∧
      (ret = .succ ↔ u.range c.page c.nPages ⊆ (k.obj obj).extent)

/-! ### Where they go right -/

/-- What makes `sys_page_copy` go right, of the objects and the memory. -/
structure CopyMeets (u : PageUnit) (m : ℕ → BitVec 8) (objsrc objdest : Obj) (c : CopyCall) :
    Prop where
  /-- Ranges in the objects do not overlap. -/
  apart : c.src + u.total c.nPages ≤ objsrc.limit → c.dest + u.total c.nPages ≤ objdest.limit →
    u.total c.nPages = 0 ∨ c.src + u.total c.nPages ≤ c.dest ∨ c.dest + u.total c.nPages ≤ c.src
  /-- Where a range is not in its object, one of the ends is still too high for the object after
  it has wrapped. -/
  past : objsrc.limit < c.src + u.total c.nPages ∨ objdest.limit < c.dest + u.total c.nPages →
    objsrc.limit < (c.src + u.bytes c.nPages) % 2 ^ 64 ∨
      objdest.limit < (c.dest + u.bytes c.nPages) % 2 ^ 64
  /-- The index does not overflow, and the bytes that the product has lost are the same anyway. -/
  counted : c.src + u.total c.nPages ≤ objsrc.limit → c.dest + u.total c.nPages ≤ objdest.limit →
    u.bytes c.nPages / 8 < 2 ^ 31 ∧
      ∀ i, u.bytes c.nPages ≤ i → i < u.total c.nPages → m (c.dest + i) = m (c.src + i)

/-- What makes `sys_page_flush` go right. -/
structure FlushMeets (u : PageUnit) (obj : Obj) (c : FlushCall) : Prop where
  /-- A range in the object starts where the object does, and comes to no bytes. -/
  start : c.page + u.total c.nPages ≤ obj.limit → c.page = obj.base ∧ u.bytes c.nPages = 0
  past : obj.limit < c.page + u.total c.nPages →
    obj.base < (c.page + u.bytes c.nPages) % 2 ^ 64

/-! ### Ranges in numbers -/

section Ranges
variable {u : PageUnit} {obj : Obj} {a b : ℕ} {n : UInt32}

theorem PageUnit.bytes_le_total : u.bytes n ≤ u.total n := Nat.mod_le ..

theorem PageUnit.bytes_eq_total (h : u.total n < 2 ^ u.width) : u.bytes n = u.total n :=
  Nat.mod_eq_of_lt h

/-- Also a product that has lost its upper bits is that of whole words. -/
theorem PageUnit.dvd_bytes (u : PageUnit) (n : UInt32) : 8 ∣ u.bytes n := by
  have hpow : 2 ^ 3 ∣ 2 ^ u.width := Nat.pow_dvd_pow 2 (le_trans (by omega) u.wide)
  exact (Nat.dvd_mod_iff hpow).mpr (Dvd.dvd.mul_left u.words _)

theorem PageUnit.mem_range {x : ℕ} : x ∈ u.range a n ↔ a ≤ x ∧ x < a + u.total n := Iff.rfl

/-- From an address of an object on, a range is in the object when it ends there. -/
theorem PageUnit.range_subset_iff (h : obj.Contains a) :
    u.range a n ⊆ obj.extent ↔ a + u.total n ≤ obj.limit := by
  constructor
  · intro hsub
    by_cases hn : u.total n = 0
    · rw [hn, Nat.add_zero]
      exact h.2.le
    · -- the last address of the range
      have hlast : a + u.total n - 1 ∈ obj.extent :=
        hsub (PageUnit.mem_range.mpr ⟨by omega, by omega⟩)
      have hlt : a + u.total n - 1 < obj.limit := hlast.2
      omega
  · intro hle x hx
    obtain ⟨h₁, h₂⟩ := PageUnit.mem_range.mp hx
    exact ⟨le_trans h.1 h₁, lt_of_lt_of_le h₂ hle⟩

theorem PageUnit.disjoint_range_iff : Disjoint (u.range a n) (u.range b n) ↔
    u.total n = 0 ∨ a + u.total n ≤ b ∨ b + u.total n ≤ a := by
  rw [Set.disjoint_left]
  constructor
  · intro h
    by_contra hne
    -- the higher of the two addresses is in both ranges
    have hmax := h (a := max a b) (PageUnit.mem_range.mpr ⟨le_max_left a b, by omega⟩)
    exact hmax (PageUnit.mem_range.mpr ⟨le_max_right a b, by omega⟩)
  · intro h x hx hy
    obtain ⟨hx₁, hx₂⟩ := PageUnit.mem_range.mp hx
    obtain ⟨hy₁, hy₂⟩ := PageUnit.mem_range.mp hy
    omega

/-- The end of a range that is in its object is not too high for the object. -/
theorem PageUnit.wordAdd_bytes (hlimit : obj.limit < 2 ^ 64) (h : a + u.total n ≤ obj.limit) :
    wordAdd a (u.bytes n) = a + u.bytes n ∧ a + u.bytes n ≤ obj.limit := by
  have hle : u.bytes n ≤ u.total n := u.bytes_le_total
  exact ⟨wordAdd_eq (by omega), by omega⟩

end Ranges

/-! ### What the functions come to -/

section Calls
variable {u : PageUnit} {k : Kernel O} {apd : ApdDesc} {s : PageState O}

/-- Where no address wraps, the loop copies what was there at first. -/
theorem copyWords_eq {src dest words : ℕ} {m : ℕ → BitVec 8} (hsrc : src + 8 * words < 2 ^ 64)
    (hdest : dest + 8 * words < 2 ^ 64) (hwords : words < 2 ^ 31)
    (h : dest ≤ src ∨ src + 8 * words ≤ dest) :
    copyWords src dest words m = some (copy m dest (8 * words) fun i => m (src + i)) := by
  rw [copyWords, if_pos hwords, ← forUp_copyStep h]
  congr 1
  apply forUp_congr
  intro i m' h₁ h₂
  rw [copyWord, copyStep, wordAdd_eq (by omega), wordAdd_eq (by omega)]

/-- A call of `PageCopy` that is refused changes no memory. -/
theorem sysPageCopy_refused {c : CopyCall} {s' : PageState O} {ret : PageRet}
    (h : sysPageCopy u k apd s c = some (s', ret)) (hret : ret ≠ .succ) : s'.mem = s.mem := by
  unfold sysPageCopy at h
  obtain ⟨⟨v, objsrc⟩, -, h⟩ := Option.bind_eq_some_iff.mp h
  cases objsrc with
  | none =>
    obtain ⟨rfl, -⟩ := Prod.mk.inj (Option.some.inj h)
    rfl
  | some objsrc =>
    obtain ⟨⟨w, objdest⟩, -, h⟩ := Option.bind_eq_some_iff.mp h
    cases objdest with
    | none =>
      obtain ⟨rfl, -⟩ := Prod.mk.inj (Option.some.inj h)
      rfl
    | some objdest =>
      dsimp only at h
      split_ifs at h with hlimit
      · obtain ⟨rfl, -⟩ := Prod.mk.inj (Option.some.inj h)
        rfl
      · obtain ⟨m, -, h⟩ := Option.map_eq_some_iff.mp h
        obtain ⟨-, rfl⟩ := Prod.mk.inj h
        exact absurd rfl hret

/-- A call of `PageFlush` changes no memory. -/
theorem sysPageFlush_mem {c : FlushCall} {s' : PageState O} {ret : PageRet}
    (h : sysPageFlush u k apd s c = some (s', ret)) : s'.mem = s.mem := by
  unfold sysPageFlush at h
  obtain ⟨⟨v, obj⟩, -, h⟩ := Option.bind_eq_some_iff.mp h
  cases obj with
  | none =>
    obtain ⟨rfl, -⟩ := Prod.mk.inj (Option.some.inj h)
    rfl
  | some obj =>
    dsimp only at h
    split_ifs at h with hlimit
    all_goals
      obtain ⟨rfl, -⟩ := Prod.mk.inj (Option.some.inj h)
      rfl

/-- **`sys_page_copy`** with validated addresses. -/
theorem CopyValidated.sysPageCopy_eq {c : CopyCall} {objsrc objdest : O}
    (h : CopyValidated k apd s c objsrc objdest) :
    ∃ v, sysPageCopy u k apd s c =
      if wordAdd c.src (u.bytes c.nPages) > (k.obj objsrc).limit ∨
          wordAdd c.dest (u.bytes c.nPages) > (k.obj objdest).limit then
        some (⟨v, s.mem⟩, .rng)
      else (copyWords c.src c.dest (u.bytes c.nPages / 8) s.mem).map fun m => (⟨v, m⟩, .succ) := by
  obtain ⟨v, w, hsrc, hdest⟩ := h.valid
  refine ⟨w, ?_⟩
  unfold sysPageCopy
  rw [hsrc, Option.bind_some]
  dsimp only
  rw [hdest, Option.bind_some]

/-- **`sys_page_flush`** with a validated address. -/
theorem FlushValidated.sysPageFlush_eq {c : FlushCall} {obj : O}
    (h : FlushValidated k apd s c obj) :
    ∃ v, sysPageFlush u k apd s c =
      some (⟨v, s.mem⟩, if wordAdd c.page (u.bytes c.nPages) > (k.obj obj).base then .rng
        else .succ) := by
  obtain ⟨v, hv⟩ := h.valid
  refine ⟨v, ?_⟩
  unfold sysPageFlush
  rw [hv, Option.bind_some]
  dsimp only
  split_ifs <;> rfl

/-- On an object table that stays as it is, an address that is validated is one of the object,
whatever has been validated before. -/
theorem validateObj_contains {rs : List Request} {v w : Vcache O CapPtr} {addr : ℕ}
    {access : Access} {time : Clock} {o : O} (hv : run (validateStep k apd) vcacheNew rs = some v)
    (h : validateObj k apd v addr access time = some (w, some o)) :
    (k.obj o).Contains addr ∧ run (validateStep k apd) vcacheNew
      (rs ++ [⟨addr, access, time.now, time.t₁, time.t₂⟩]) = some w := by
  obtain ⟨v', hv', hsearched⟩ := validateRun_searched k apd rs
  obtain rfl := Option.some.inj (hv.symm.trans hv')
  obtain ⟨r, hr, hout⟩ := doValidateObj_outcome (fun _ _ => Searched.obj_ne_none) k apd hsearched
    addr access time.now time.t₁ time.t₂
  rw [validateObj, hr] at h
  obtain ⟨rfl, hobj⟩ := Prod.mk.inj (Option.some.inj h)
  constructor
  · cases hout with
    | unknown => cases hobj
    | denied => cases hobj
    | hit w e info o' holds entry matches_entry time rights obj =>
      obtain ⟨r', -, g, hg, rfl, rfl⟩ := entry
      obtain rfl : g.obj = o' := Option.some.inj obj
      obtain rfl : g.obj = o := Option.some.inj hobj
      exact ((grantSpec hg).contains matches_entry rights).1
    | granted w g holds verdict =>
      obtain rfl : g.obj = o := Option.some.inj hobj
      exact objectFind_contains (grantSpec verdict).found
  · rw [run_append, hv, Option.bind_some]
    show (validateStep k apd v _).bind _ = _
    rw [validateStep, hr]
    rfl

end Calls

/-! ### When the calls do what they are for -/

section Meets
variable {u : PageUnit} {m : ℕ → BitVec 8} {objsrc objdest : Obj} {c : CopyCall}

/-- Where nothing is lost or wraps, `PageCopy` goes right but for overlapping ranges. -/
theorem copyMeets_iff (hsrc : c.src + u.total c.nPages < 2 ^ 64)
    (hdest : c.dest + u.total c.nPages < 2 ^ 64) (hwidth : u.total c.nPages < 2 ^ u.width)
    (hindex : u.total c.nPages / 8 < 2 ^ 31) :
    CopyMeets u m objsrc objdest c ↔
      (c.src + u.total c.nPages ≤ objsrc.limit → c.dest + u.total c.nPages ≤ objdest.limit →
        Disjoint (u.range c.src c.nPages) (u.range c.dest c.nPages)) := by
  rw [PageUnit.disjoint_range_iff]
  refine ⟨CopyMeets.apart, fun hapart => ⟨hapart, ?_, ?_⟩⟩
  · intro hpast
    rw [PageUnit.bytes_eq_total hwidth, Nat.mod_eq_of_lt hsrc, Nat.mod_eq_of_lt hdest]
    exact hpast
  · intro _ _
    rw [PageUnit.bytes_eq_total hwidth]
    exact ⟨hindex, fun i h₁ h₂ => absurd h₂ (not_lt.mpr h₁)⟩

/-- Where nothing is lost or wraps, `PageFlush` goes right on ranges that reach out of the object,
and on empty ranges where it starts. -/
theorem flushMeets_iff {obj : Obj} {c : FlushCall} (hobj : obj.Contains c.page)
    (hpage : c.page + u.total c.nPages < 2 ^ 64) (hwidth : u.total c.nPages < 2 ^ u.width) :
    FlushMeets u obj c ↔ obj.limit < c.page + u.total c.nPages ∨
      c.page = obj.base ∧ u.total c.nPages = 0 := by
  have hbytes := PageUnit.bytes_eq_total hwidth
  constructor
  · intro h
    rcases Nat.lt_or_ge obj.limit (c.page + u.total c.nPages) with hout | hin
    · exact Or.inl hout
    · exact Or.inr (hbytes ▸ h.start hin)
  · intro h
    refine ⟨fun hin => ?_, fun hout => ?_⟩
    · rw [hbytes]
      exact h.resolve_left (not_lt.mpr hin)
    · rw [hbytes, Nat.mod_eq_of_lt hpage]
      exact lt_of_le_of_lt hobj.1 (lt_trans hobj.2 hout)

end Meets

section Iff
variable {u : PageUnit} {k : Kernel O} {apd : ApdDesc} {s : PageState O}

/-- What is copied when both ranges are in their objects and do not overlap: as much as the product
has left. -/
theorem copyWords_bytes {src dest : ℕ} {n : UInt32} {osrc odest : Obj} {m : ℕ → BitVec 8}
    (hsrc : osrc.limit < 2 ^ 64) (hdest : odest.limit < 2 ^ 64)
    (hin : src + u.total n ≤ osrc.limit) (hin' : dest + u.total n ≤ odest.limit)
    (hapart : u.total n = 0 ∨ src + u.total n ≤ dest ∨ dest + u.total n ≤ src)
    (hindex : u.bytes n / 8 < 2 ^ 31) :
    copyWords src dest (u.bytes n / 8) m = some (copy m dest (u.bytes n) fun i => m (src + i)) := by
  have hle : u.bytes n ≤ u.total n := u.bytes_le_total
  have hwords : 8 * (u.bytes n / 8) = u.bytes n := Nat.mul_div_cancel' (u.dvd_bytes n)
  rw [copyWords_eq (by omega) (by omega) hindex (by omega), hwords]

/-- Such a copy is what was asked for when the bytes that it leaves out are the same anyway. -/
theorem copied_iff {src dest : ℕ} {n : UInt32} {m : ℕ → BitVec 8} :
    u.Copied src dest n m (copy m dest (u.bytes n) fun i => m (src + i)) ↔
      ∀ i, u.bytes n ≤ i → i < u.total n → m (dest + i) = m (src + i) := by
  have hle : u.bytes n ≤ u.total n := u.bytes_le_total
  constructor
  · intro h i h₁ h₂
    rw [← h.copied i h₂, copy_outside (by omega)]
  · intro h
    refine ⟨fun i hi => ?_, fun x hx => ?_⟩
    · rcases Nat.lt_or_ge i (u.bytes n) with hlt | hge
      · exact copy_inside hlt
      · rw [copy_outside (by omega)]
        exact h i hge hi
    · rw [PageUnit.mem_range] at hx
      exact copy_outside (by omega)

/-- **A call of `PageCopy` does what it is for** just where its condition holds. -/
theorem copyRight_iff (hk : ∀ o, (k.obj o).limit < 2 ^ 64) (c : CopyCall) :
    CopyRight u k apd s c ↔ ∀ objsrc objdest, CopyValidated k apd s c objsrc objdest →
      CopyMeets u s.mem (k.obj objsrc) (k.obj objdest) c := by
  constructor
  · intro h objsrc objdest hv
    obtain ⟨s', ret, hcall, hsucc, hcopied⟩ := h.validated objsrc objdest hv
    obtain ⟨v, heq⟩ := hv.sysPageCopy_eq (u := u)
    rw [PageUnit.range_subset_iff hv.src_mem, PageUnit.range_subset_iff hv.dest_mem,
      PageUnit.disjoint_range_iff] at hsucc
    rw [heq] at hcall
    have hmeets : c.src + u.total c.nPages ≤ (k.obj objsrc).limit →
        c.dest + u.total c.nPages ≤ (k.obj objdest).limit →
        (u.total c.nPages = 0 ∨ c.src + u.total c.nPages ≤ c.dest ∨
          c.dest + u.total c.nPages ≤ c.src) ∧ u.bytes c.nPages / 8 < 2 ^ 31 ∧
        ∀ i, u.bytes c.nPages ≤ i → i < u.total c.nPages →
          s.mem (c.dest + i) = s.mem (c.src + i) := by
      -- such a range is accepted, so the loop has ended
      intro hin hin'
      obtain ⟨hend, hle⟩ := PageUnit.wordAdd_bytes (hk objsrc) hin
      obtain ⟨hend', hle'⟩ := PageUnit.wordAdd_bytes (hk objdest) hin'
      rw [if_neg (by omega)] at hcall
      obtain ⟨m', hm', hres⟩ := Option.map_eq_some_iff.mp hcall
      obtain ⟨rfl, rfl⟩ := Prod.mk.inj hres
      have hapart := (hsucc.mp rfl).2.2
      have hindex : u.bytes c.nPages / 8 < 2 ^ 31 := by
        by_contra hbig
        rw [copyWords, if_neg hbig] at hm'
        cases hm'
      rw [copyWords_bytes (hk objsrc) (hk objdest) hin hin' hapart hindex] at hm'
      obtain rfl := Option.some.inj hm'
      exact ⟨hapart, hindex, copied_iff.mp (hcopied rfl)⟩
    refine ⟨fun hin hin' => (hmeets hin hin').1, fun hpast => ?_,
      fun hin hin' => (hmeets hin hin').2⟩
    by_contra hends
    rw [if_neg (by unfold wordAdd; omega)] at hcall
    obtain ⟨m', -, hres⟩ := Option.map_eq_some_iff.mp hcall
    obtain ⟨-, rfl⟩ := Prod.mk.inj hres
    have := hsucc.mp rfl
    omega
  · intro h
    refine ⟨fun s' ret hcall hret => sysPageCopy_refused hcall hret, fun objsrc objdest hv => ?_⟩
    obtain ⟨v, heq⟩ := hv.sysPageCopy_eq (u := u)
    have hmeets := h objsrc objdest hv
    rw [PageUnit.range_subset_iff hv.src_mem, PageUnit.range_subset_iff hv.dest_mem,
      PageUnit.disjoint_range_iff]
    by_cases hin : c.src + u.total c.nPages ≤ (k.obj objsrc).limit ∧
        c.dest + u.total c.nPages ≤ (k.obj objdest).limit
    · obtain ⟨hin, hin'⟩ := hin
      obtain ⟨hend, hle⟩ := PageUnit.wordAdd_bytes (hk objsrc) hin
      obtain ⟨hend', hle'⟩ := PageUnit.wordAdd_bytes (hk objdest) hin'
      obtain ⟨hindex, hrest⟩ := hmeets.counted hin hin'
      have hapart := hmeets.apart hin hin'
      rw [if_neg (by omega),
        copyWords_bytes (hk objsrc) (hk objdest) hin hin' hapart hindex] at heq
      exact ⟨_, _, heq, iff_of_true rfl ⟨hin, hin', hapart⟩, fun _ => copied_iff.mpr hrest⟩
    · have hpast : wordAdd c.src (u.bytes c.nPages) > (k.obj objsrc).limit ∨
          wordAdd c.dest (u.bytes c.nPages) > (k.obj objdest).limit := hmeets.past (by omega)
      rw [if_pos hpast] at heq
      exact ⟨_, _, heq, iff_of_false nofun (by omega), nofun⟩

/-- **A call of `PageFlush` does what it is for** just where its condition holds. -/
theorem flushRight_iff (hk : ∀ o, (k.obj o).limit < 2 ^ 64) (c : FlushCall) :
    FlushRight u k apd s c ↔
      ∀ obj, FlushValidated k apd s c obj → FlushMeets u (k.obj obj) c := by
  have hsound : ∀ obj, FlushValidated k apd s c obj →
      ((∃ s' ret, sysPageFlush u k apd s c = some (s', ret) ∧
        (ret = .succ ↔ u.range c.page c.nPages ⊆ (k.obj obj).extent)) ↔
      FlushMeets u (k.obj obj) c) := by
    intro obj hv
    obtain ⟨v, heq⟩ := hv.sysPageFlush_eq (u := u)
    rw [PageUnit.range_subset_iff hv.page_mem]
    have hbase := hv.page_mem.1
    constructor
    · rintro ⟨s', ret, hcall, hsucc⟩
      rw [heq] at hcall
      obtain ⟨-, rfl⟩ := Prod.mk.inj (Option.some.inj hcall)
      refine ⟨fun hin => ?_, fun hout => ?_⟩
      · -- the end is compared with the base, so it must be the base
        obtain ⟨hend, -⟩ := PageUnit.wordAdd_bytes (hk obj) hin
        by_contra hne
        rw [if_pos (by omega)] at hsucc
        cases hsucc.mpr hin
      · by_contra hle
        rw [if_neg (show ¬ wordAdd c.page (u.bytes c.nPages) > (k.obj obj).base from hle)] at hsucc
        exact absurd (hsucc.mp rfl) (not_le.mpr hout)
    · intro hmeets
      refine ⟨_, _, heq, ?_⟩
      by_cases hin : c.page + u.total c.nPages ≤ (k.obj obj).limit
      · obtain ⟨hend, -⟩ := PageUnit.wordAdd_bytes (hk obj) hin
        have hstart := hmeets.start hin
        rw [if_neg (by omega)]
        exact iff_of_true rfl hin
      · have hpast : wordAdd c.page (u.bytes c.nPages) > (k.obj obj).base :=
          hmeets.past (not_le.mp hin)
        rw [if_pos hpast]
        exact iff_of_false nofun hin
  constructor
  · intro h obj hv
    exact (hsound obj hv).mp (h.validated obj hv)
  · intro h
    exact ⟨fun s' ret hcall _ => sysPageFlush_mem hcall,
      fun obj hv => (hsound obj hv).mpr (h obj hv)⟩

end Iff

/-- **When the calls do what they are for.**  `PageCopy` goes wrong where ranges in their objects
overlap, where an end that has wrapped hides that a range is not in its object, and where the count
of bytes has lost its upper bits or is too much for the index; `PageFlush` goes right only on
ranges that are not in their object and whose end does not wrap to before it, and on ranges of no
bytes at its start. -/
theorem pageRanges_iff (u : PageUnit) {k : Kernel O} (hk : ∀ o, (k.obj o).limit < 2 ^ 64)
    (apd : ApdDesc) (s : PageState O) (copyCall : CopyCall) (flushCall : FlushCall) :
    (CopyRight u k apd s copyCall ↔
      ∀ objsrc objdest, CopyValidated k apd s copyCall objsrc objdest →
        CopyMeets u s.mem (k.obj objsrc) (k.obj objdest) copyCall) ∧
    (FlushRight u k apd s flushCall ↔
      ∀ obj, FlushValidated k apd s flushCall obj → FlushMeets u (k.obj obj) flushCall) :=
  ⟨copyRight_iff hk copyCall, flushRight_iff hk flushCall⟩

/-- Pages of 4096 bytes, where `L4_PAGESIZE` is an `int`. -/
def intPages : PageUnit := ⟨4096, 32, by decide, by decide⟩

/-- The state after an address of the object has been read, with memory that holds nothing. -/
def readState : PageState ℕ :=
  ⟨(run (validateStep sharedKernel sharedApd) vcacheNew [⟨0x2000, mRead, 5, 5, 5⟩]).getD vcacheNew,
    fun _ => 0⟩

theorem pageRanges_iff_sharedKernel :
    (CopyRight intPages sharedKernel sharedApd readState
        ⟨0x1000, 0x2000, 1, ⟨5, 5, 5⟩, ⟨6, 6, 6⟩⟩ ↔
      ∀ objsrc objdest, CopyValidated sharedKernel sharedApd readState
          ⟨0x1000, 0x2000, 1, ⟨5, 5, 5⟩, ⟨6, 6, 6⟩⟩ objsrc objdest →
        CopyMeets intPages (fun _ => 0) (sharedKernel.obj objsrc) (sharedKernel.obj objdest)
          ⟨0x1000, 0x2000, 1, ⟨5, 5, 5⟩, ⟨6, 6, 6⟩⟩) ∧
    (FlushRight intPages sharedKernel sharedApd readState ⟨0x1000, 0, ⟨7, 7, 7⟩⟩ ↔
      ∀ obj, FlushValidated sharedKernel sharedApd readState ⟨0x1000, 0, ⟨7, 7, 7⟩⟩ obj →
        FlushMeets intPages (sharedKernel.obj obj) ⟨0x1000, 0, ⟨7, 7, 7⟩⟩) :=
  pageRanges_iff intPages (fun _ => (by decide : sharedObj.limit < 2 ^ 64)) sharedApd readState
    ⟨0x1000, 0x2000, 1, ⟨5, 5, 5⟩, ⟨6, 6, 6⟩⟩ ⟨0x1000, 0, ⟨7, 7, 7⟩⟩

/-- A copy of the first page of an object to half a page further on succeeds, and the first page of
an object cannot be flushed. -/
theorem pageRanges_wrong :
    ¬ CopyRight intPages sharedKernel sharedApd readState
        ⟨0x1000, 0x1800, 1, ⟨5, 5, 5⟩, ⟨6, 6, 6⟩⟩ ∧
      ¬ FlushRight intPages sharedKernel sharedApd readState ⟨0x1000, 1, ⟨7, 7, 7⟩⟩ := by
  have hk : ∀ o, (sharedKernel.obj o).limit < 2 ^ 64 :=
    fun _ => (by decide : sharedObj.limit < 2 ^ 64)
  rw [copyRight_iff hk, flushRight_iff hk]
  constructor
  · intro h
    have hmeets := h 1 1 ⟨⟨_, _, rfl, rfl⟩, by decide, by decide⟩
    exact absurd (hmeets.apart (by decide) (by decide)) (by decide)
  · intro h
    have hmeets := h 1 ⟨⟨_, rfl⟩, by decide⟩
    exact absurd (hmeets.start (by decide)) (by decide)

end Mungi
