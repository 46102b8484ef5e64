import Mungi.Lib.Formats
import Mungi.Lib.Heap

/-!
# Instances of a component

The instances of the component for name trees are kept in one object (`CNameTree_ccs.c`).  It begins
with a pointer to a block that is free; behind it there are 46 blocks, each with a header and the
data of an instance, and the free ones are chained by their first words.  A block is handed out with
a password in its header, and a flag that says that it is valid.  The password is the same for all
blocks, so that a capability for a block that was given back is one for the instance that is there
next.

## Main definitions

* `Pool`, `getInstobj`, `cntCiStubConstructor`, `cntCiStubDestructor` — the code.
* `Formatted` — the object holds a list of free blocks, and instances.

## Main results

* `getInstobj_formatted` — the object in the beginning.
* `Formatted.constructed`, `Formatted.destructed` — **what making and giving back a block does.**
* `Formatted.store` — what storing the data of an instance does.
-/

namespace Mungi.Component

open Bytes Chain

/-! ### The code -/

/-- `cap_t` -/
structure CapT where
  address : BitVec 64
  passwd : BitVec 64

/-- `cicap_t` -/
structure Cicap where
  password : BitVec 64
  ref : BitVec 64

/-- `res_desc_t` -/
structure ResDesc where
  data1 : BitVec 64
  data0 : BitVec 62
  type : BitVec 2

/-- `cnt_t` -/
structure Cnt where
  btree : BitVec 64
  mallocCap : CapT

/-- `PAGESIZE` -/
def pagesize : ℕ := 4096

/-- `sizeof(cihdr_t)` -/
def cihdrSize : ℕ := 64

/-- `inst_size` -/
def instSize : ℕ := 88

/-- `count` -/
def instCount : ℕ := 46

/-- `generate_password()` -/
def generatePassword : BitVec 64 := 4

/-- `MCS_STUB_EXCEPTION`, with what is raised. -/
def stubException (code : BitVec 64) : ResDesc := ⟨code <<< 48, 0, 2⟩

/-- The memory, `instobj`, and `clist->caps[0].address` of the component. -/
structure Pool where
  mem : ℕ → BitVec 8
  instobj : BitVec 64
  inst : BitVec 64

section Code
variable (o : ByteOrder)

/-- A pointer or a `long`. -/
def word : Format (BitVec 64) := .number o 8 8 (by decide) le_rfl

/-- An `unsigned int` -/
def uint : Format (BitVec 32) := .number o 4 4 (by decide) le_rfl

/-- A `short` -/
def short : Format (BitVec 16) := .number o 2 2 (by decide) le_rfl

/-- `cnt_t` in memory. -/
def cntFormat : Format Cnt :=
  .record (.pair (word o) (.pair (word o) (word o)))
    (fun c => (c.btree, c.mallocCap.address, c.mallocCap.passwd)) (fun x => ⟨x.1, x.2.1, x.2.2⟩)
    fun _ => rfl

/-- The address of the block with number `i`. -/
def block (page i : ℕ) : ℕ := page + 8 + instSize * i

/-- The loop of `get_instobj`: `k` blocks are chained to the next ones. -/
def linkBlocks (page : ℕ) : ℕ → (ℕ → BitVec 8) → ℕ → BitVec 8
  | 0, m => m
  | k + 1, m => (word o).put (linkBlocks page k m) (block page k) (.ofNat 64 (block page (k + 1)))

/-- What `get_instobj` makes of the new object. -/
def formatObject (page : ℕ) (m : ℕ → BitVec 8) : ℕ → BitVec 8 :=
  let m := (word o).put m page (.ofNat 64 (block page 0))
  let m := linkBlocks o page (instCount - 1) m
  (word o).put m (block page (instCount - 1)) 0

variable (page : BitVec 64)

/-- `get_instobj`, in a protection domain with the Clist; `page` is what `ObjCreate` answers. -/
def getInstobj (s : Pool) : Except ResDesc Pool :=
  if s.inst = 0 then
    if page = 0 then .error (stubException 204)
    else .ok ⟨formatObject o page.toNat s.mem, page, page⟩
  else .ok { s with instobj := s.inst }

/-- The header and the data of a new instance, in `cnt_ci_stub_constructor`. -/
def initInst (m : ℕ → BitVec 8) (hdr : ℕ) : ℕ → BitVec 8 :=
  let m := copy m hdr cihdrSize fun _ => 0
  let m := (word o).put m (hdr + 8) generatePassword
  let m := (short o).put m hdr 1
  let m := (uint o).put m (hdr + 44) 3
  let m := (uint o).put m (hdr + 40) 3
  let m := (short o).put m (hdr + 54) 1
  copy m (hdr + cihdrSize) (cntFormat o).size fun _ => 0

/-- `cnt_ci_stub_constructor` -/
def cntCiStubConstructor (s : Pool) : ResDesc × Pool :=
  match if s.instobj = 0 then getInstobj o page s else .ok s with
  | .error res => (res, s)
  | .ok s =>
    let hdr := (word o).get s.mem s.instobj.toNat
    if hdr = 0 then (stubException 205, s)
    else
      let m := (word o).put s.mem s.instobj.toNat ((word o).get s.mem hdr.toNat)
      let m := initInst o m hdr.toNat
      (⟨generatePassword, .setWidth 62 (hdr >>> 2), 0⟩, { s with mem := m })

/-- `IS_NOT_VALID` -/
def isNotValid (m : ℕ → BitVec 8) (hdr : BitVec 64) : Bool :=
  (short o).get m (hdr.toNat + 54) &&& 1 == 0

/-- `cnt_ci_stub_destructor`; `param` is read as a `cicap_t`. -/
def cntCiStubDestructor (param : CapT) (s : Pool) : ResDesc × Pool :=
  let cicap : Cicap := ⟨param.address, param.passwd⟩
  let hdr := cicap.ref
  if isNotValid o s.mem hdr ∨ (word o).get s.mem (hdr.toNat + 8) ≠ cicap.password then
    (stubException 201, s)
  else
    match if s.instobj = 0 then getInstobj o page s else .ok s with
    | .error res => (res, s)
    | .ok s =>
      let m := (short o).put s.mem (hdr.toNat + 54) 0
      let m := (word o).put m hdr.toNat ((word o).get m s.instobj.toNat)
      let m := (word o).put m s.instobj.toNat hdr
      (⟨0, 0, 0⟩, { s with mem := m })

end Code

/-! ### The object -/

/-- The address of a block. -/
def IsBlock (page r : ℕ) : Prop := ∃ i < instCount, r = block page i

variable {o : ByteOrder} {page r r' : ℕ} {m m' : ℕ → BitVec 8}

@[simp] theorem word_size : (word o).size = 8 := rfl

@[simp] theorem uint_size : (uint o).size = 4 := rfl

@[simp] theorem short_size : (short o).size = 2 := rfl

@[simp] theorem cntFormat_size : (cntFormat o).size = 24 := rfl

/-- A block is behind the first word, and in the object. -/
theorem IsBlock.bounds (h : IsBlock page r) :
    page + 8 ≤ r ∧ r + instSize ≤ page + pagesize ∧ r % 8 = page % 8 := by
  obtain ⟨i, hi, rfl⟩ := h
  unfold block instSize pagesize
  unfold instCount at hi
  omega

/-- Blocks do not overlap. -/
theorem IsBlock.apart (h : IsBlock page r) (h' : IsBlock page r') (hne : r ≠ r') :
    r + instSize ≤ r' ∨ r' + instSize ≤ r := by
  obtain ⟨i, hi, rfl⟩ := h
  obtain ⟨j, hj, rfl⟩ := h'
  unfold block instSize at *
  rcases Nat.lt_or_ge i j with hij | hij
  · exact Or.inl (by omega)
  · exact Or.inr (by omega)

/-- **The object holds free blocks and instances**: the first word leads to the chain of the free
ones, and of the blocks that were handed out at some time, those are valid that have data. -/
structure Formatted (o : ByteOrder) (page : ℕ) (m : ℕ → BitVec 8) (free : List ℕ)
    (data : ℕ → Option Cnt) (made : ℕ → Prop) : Prop where
  chain : IsChain (fun r => ((word o).get m r).toNat) ((word o).get m page).toNat free
  free_block : ∀ r ∈ free, IsBlock page r
  made_block : ∀ r, made r → IsBlock page r
  live_made : ∀ r, data r ≠ none → made r
  live_not_free : ∀ r, data r ≠ none → r ∉ free
  valid : ∀ r, made r → (((short o).get m (r + 54) &&& 1 == 0) = (data r).isNone)
  opasswd : ∀ r, data r ≠ none → (word o).get m (r + 8) = generatePassword
  cnt : ∀ r c, data r = some c → (cntFormat o).get m (r + cihdrSize) = c

variable {free : List ℕ} {data : ℕ → Option Cnt} {made : ℕ → Prop}

/-- The memory of a block is the same. -/
def SameBlock (m m' : ℕ → BitVec 8) (r : ℕ) : Prop := ∀ q, r ≤ q → q < r + instSize → m' q = m q

theorem SameBlock.get_word {i : ℕ} (h : SameBlock m m' r) (hi : i ≤ 80) :
    (word o).get m' (r + i) = (word o).get m (r + i) := by
  apply (word o).get_congr
  intro q h₁ h₂
  rw [word_size] at h₂
  exact h q (by omega) (by unfold instSize; omega)

theorem SameBlock.get_flags (h : SameBlock m m' r) :
    (short o).get m' (r + 54) = (short o).get m (r + 54) := by
  apply (short o).get_congr
  intro q h₁ h₂
  rw [short_size] at h₂
  exact h q (by omega) (by unfold instSize; omega)

theorem SameBlock.get_cnt (h : SameBlock m m' r) :
    (cntFormat o).get m' (r + cihdrSize) = (cntFormat o).get m (r + cihdrSize) := by
  apply (cntFormat o).get_congr
  intro q h₁ h₂
  rw [cntFormat_size] at h₂
  unfold cihdrSize at h₁ h₂
  exact h q (by omega) (by unfold instSize; omega)

theorem SameBlock.next (h : SameBlock m m' r) :
    ((word o).get m' r).toNat = ((word o).get m r).toNat :=
  congrArg BitVec.toNat (h.get_word (i := 0) (by decide))

/-- **A change of one block.** -/
theorem Formatted.change (h : Formatted o page m free data made) (hr : IsBlock page r)
    (hsame : ∀ x, IsBlock page x → x ≠ r → SameBlock m m' x) {free' : List ℕ} {v : Option Cnt}
    (hchain : IsChain (fun x => ((word o).get m' x).toNat) ((word o).get m' page).toNat free')
    (hfree : ∀ x ∈ free', x ∈ free ∨ x = r) (hlive : v ≠ none → r ∉ free')
    (hvalid : ((short o).get m' (r + 54) &&& 1 == 0) = v.isNone)
    (hpass : v ≠ none → (word o).get m' (r + 8) = generatePassword)
    (hcnt : ∀ c, v = some c → (cntFormat o).get m' (r + cihdrSize) = c) :
    Formatted o page m' free' (Function.update data r v) fun x => made x ∨ x = r where
  chain := hchain
  free_block x hx := by
    rcases hfree x hx with hx | rfl
    · exact h.free_block x hx
    · exact hr
  made_block x hx := by
    rcases hx with hx | rfl
    · exact h.made_block x hx
    · exact hr
  live_made x hx := by
    by_cases hxr : x = r
    · exact Or.inr hxr
    · rw [Function.update_of_ne hxr] at hx
      exact Or.inl (h.live_made x hx)
  live_not_free x hx hmem := by
    by_cases hxr : x = r
    · subst hxr
      rw [Function.update_self] at hx
      exact hlive hx hmem
    · rw [Function.update_of_ne hxr] at hx
      exact h.live_not_free x hx ((hfree x hmem).resolve_right hxr)
  valid x hx := by
    by_cases hxr : x = r
    · subst hxr
      rw [Function.update_self]
      exact hvalid
    · have hmade := hx.resolve_right hxr
      rw [Function.update_of_ne hxr, (hsame x (h.made_block x hmade) hxr).get_flags]
      exact h.valid x hmade
  opasswd x hx := by
    by_cases hxr : x = r
    · subst hxr
      rw [Function.update_self] at hx
      exact hpass hx
    · rw [Function.update_of_ne hxr] at hx
      rw [(hsame x (h.made_block x (h.live_made x hx)) hxr).get_word (by decide)]
      exact h.opasswd x hx
  cnt x c hx := by
    by_cases hxr : x = r
    · subst hxr
      rw [Function.update_self] at hx
      exact hcnt c hx
    · rw [Function.update_of_ne hxr] at hx
      have hlive : data x ≠ none := by
        rw [hx]
        exact Option.some_ne_none c
      rw [(hsame x (h.made_block x (h.live_made x hlive)) hxr).get_cnt]
      exact h.cnt x c hx

/-- The bytes of the object. -/
def InObject (page q : ℕ) : Prop := page ≤ q ∧ q < page + pagesize

/-- Nothing else counts. -/
theorem Formatted.congr (h : Formatted o page m free data made)
    (hsame : ∀ q, InObject page q → m' q = m q) : Formatted o page m' free data made := by
  have hblock : ∀ x, IsBlock page x → SameBlock m m' x := by
    intro x hx q h₁ h₂
    obtain ⟨hlow, hhigh, -⟩ := hx.bounds
    exact hsame q ⟨by omega, by omega⟩
  have hhead : (word o).get m' page = (word o).get m page := by
    apply (word o).get_congr
    intro q h₁ h₂
    rw [word_size] at h₂
    exact hsame q ⟨h₁, by unfold pagesize; omega⟩
  refine ⟨?_, h.free_block, h.made_block, h.live_made, h.live_not_free, fun x hx => ?_,
    fun x hx => ?_, fun x c hx => ?_⟩
  · rw [hhead]
    exact h.chain.congr fun x hx => (hblock x (h.free_block x hx)).next
  · rw [(hblock x (h.made_block x hx)).get_flags]
    exact h.valid x hx
  · rw [(hblock x (h.made_block x (h.live_made x hx))).get_word (by decide)]
    exact h.opasswd x hx
  · have hlive : data x ≠ none := by
      rw [hx]
      exact Option.some_ne_none c
    rw [(hblock x (h.made_block x (h.live_made x hlive))).get_cnt]
    exact h.cnt x c hx

/-! ### The calls -/

/-- What `ObjCreate` answers for an object of one page. -/
structure ObjectPage (page : BitVec 64) : Prop where
  ne_zero : page ≠ 0
  aligned : page.toNat % 8 = 0
  fits : page.toNat + pagesize ≤ 2 ^ 64

/-- All the blocks, in the order in which they are handed out. -/
def allBlocks (page : ℕ) : List ℕ := (List.range instCount).map (block page)

/-- Memory outside the object is the same. -/
def SameOutside (page : ℕ) (m m' : ℕ → BitVec 8) : Prop := ∀ q, ¬ InObject page q → m' q = m q

theorem word_get_put (m : ℕ → BitVec 8) (p v : ℕ) :
    ((word o).get ((word o).put m p (.ofNat 64 v)) p).toNat = v % 2 ^ 64 := by
  rw [(word o).get_put, BitVec.toNat_ofNat]

theorem linkBlocks_outside (k : ℕ) {q : ℕ} (hq : q < page + 8 ∨ block page k ≤ q) :
    linkBlocks o page k m q = m q := by
  induction k with
  | zero => rfl
  | succ k ih =>
    unfold block instSize at hq ih
    rw [linkBlocks, (word o).put_outside _ _ _ q (by unfold block instSize; simp; omega)]
    exact ih (by omega)

/-- What the loop chains. -/
theorem linkBlocks_next {k i : ℕ} (hi : i < k) :
    ((word o).get (linkBlocks o page k m) (block page i)).toNat
      = block page (i + 1) % 2 ^ 64 := by
  induction k with
  | zero => exact absurd hi (Nat.not_lt_zero i)
  | succ k ih =>
    rw [linkBlocks]
    rcases Nat.lt_succ_iff_lt_or_eq.mp hi with hlt | rfl
    · rw [Format.get_put_apart (by unfold block instSize; simp; omega)]
      exact ih hlt
    · exact word_get_put _ _ _

theorem block_lt (h : page + pagesize ≤ 2 ^ 64) {i : ℕ} (hi : i < instCount) :
    block page i % 2 ^ 64 = block page i := by
  apply Nat.mod_eq_of_lt
  unfold block instSize
  unfold pagesize at h
  unfold instCount at hi
  omega

/-- **The object in the beginning**: all blocks are free. -/
theorem formatObject_formatted (h : page + pagesize ≤ 2 ^ 64) (m : ℕ → BitVec 8) :
    Formatted o page (formatObject o page m) (allBlocks page) (fun _ => none) (fun _ => False) ∧
      SameOutside page m (formatObject o page m) := by
  have hlast : ∀ q, q < block page 45 ∨ block page 45 + 8 ≤ q → formatObject o page m q
      = linkBlocks o page 45 ((word o).put m page (.ofNat 64 (block page 0))) q := by
    intro q hq
    exact (word o).put_outside _ _ _ q hq
  have hnext : ∀ i < 45, ((word o).get (formatObject o page m) (block page i)).toNat
      = block page (i + 1) := by
    intro i hi
    have hlink : ((word o).get (linkBlocks o page 45 ((word o).put m page
        (.ofNat 64 (block page 0)))) (block page i)).toNat = block page (i + 1) % 2 ^ 64 :=
      linkBlocks_next hi
    rw [block_lt h (by unfold instCount; omega)] at hlink
    rw [← hlink]
    congr 1
    apply (word o).get_congr
    intro q _ hq
    rw [word_size] at hq
    refine hlast q (Or.inl ?_)
    unfold block instSize at *
    omega
  have hend : ((word o).get (formatObject o page m) (block page 45)).toNat = 0 := by
    unfold formatObject
    rw [show instCount - 1 = 45 from rfl, (word o).get_put]
    rfl
  have hhead : ((word o).get (formatObject o page m) page).toNat = block page 0 := by
    have hput := word_get_put (o := o) m page (block page 0)
    rw [block_lt h (by decide)] at hput
    rw [← hput]
    congr 1
    apply (word o).get_congr
    intro q _ hq
    rw [word_size] at hq
    rw [hlast q (Or.inl (by unfold block instSize; omega)), linkBlocks_outside 45 (Or.inl hq)]
  -- the chain from a block on
  have hchain : ∀ k ≤ 45, IsChain (fun r => ((word o).get (formatObject o page m) r).toNat)
      (block page (45 - k)) ((List.range' (45 - k) (k + 1)).map (block page)) := by
    intro k hk
    induction k with
    | zero => exact ⟨rfl, by unfold block; omega, hend⟩
    | succ k ih =>
      rw [List.range'_succ, List.map_cons]
      refine ⟨rfl, by unfold block; omega, ?_⟩
      dsimp only
      rw [hnext (45 - (k + 1)) (by omega), show 45 - (k + 1) + 1 = 45 - k by omega]
      exact ih (by omega)
  refine ⟨⟨?_, fun r hr => ?_, fun r hr => hr.elim, fun r hr => absurd rfl hr,
    fun r hr => absurd rfl hr, fun r hr => hr.elim, fun r hr => absurd rfl hr,
    fun r c hr => absurd hr (Option.some_ne_none c).symm⟩, fun q hq => ?_⟩
  · rw [hhead]
    have hall := hchain 45 le_rfl
    rwa [← List.range_eq_range'] at hall
  · obtain ⟨i, hi, rfl⟩ := List.mem_map.mp hr
    exact ⟨i, List.mem_range.mp hi, rfl⟩
  · unfold InObject pagesize at hq
    rw [hlast q (by unfold block instSize; omega),
      linkBlocks_outside 45 (by unfold block instSize; omega)]
    exact (word o).put_outside _ _ _ q (by simp; omega)

/-- Nothing but the block is written to. -/
theorem initInst_outside {q : ℕ} (hq : q < r ∨ r + instSize ≤ q) : initInst o m r q = m q := by
  unfold instSize at hq
  unfold initInst cihdrSize
  rw [copy_outside (by simp; omega), (short o).put_outside _ _ _ q (by simp; omega),
    (uint o).put_outside _ _ _ q (by simp; omega), (uint o).put_outside _ _ _ q (by simp; omega),
    (short o).put_outside _ _ _ q (by simp; omega), (word o).put_outside _ _ _ q (by simp; omega),
    copy_outside (by omega)]

theorem get_initInst_apart {α : Type*} {f : Format α} {q : ℕ}
    (h : q + f.size ≤ r ∨ r + instSize ≤ q) : f.get (initInst o m r) q = f.get m q := by
  apply f.get_congr
  intro i h₁ h₂
  exact initInst_outside (by omega)

theorem initInst_opasswd : (word o).get (initInst o m r) (r + 8) = generatePassword := by
  unfold initInst cihdrSize
  dsimp only
  rw [Format.get_copy_apart (by simp), Format.get_put_apart (by simp),
    Format.get_put_apart (by simp), Format.get_put_apart (by simp),
    Format.get_put_apart (by simp), (word o).get_put]

theorem initInst_flags : (short o).get (initInst o m r) (r + 54) = 1 := by
  unfold initInst cihdrSize
  dsimp only
  rw [Format.get_copy_apart (by simp), (short o).get_put]

/-- Data of zeros. -/
def zeroCnt : Cnt := ⟨0, ⟨0, 0⟩⟩

theorem initInst_cnt (ho : o.Plain) :
    (cntFormat o).get (initInst o m r) (r + cihdrSize) = zeroCnt := by
  have hzero : ∀ i ≤ 16, (word o).get (initInst o m r) (r + 64 + i) = 0 := by
    intro i hi
    have hload : load o (initInst o m r) (r + 64 + i) 8 = 0 := by
      refine load_zeros ho fun q h₁ h₂ => ?_
      obtain ⟨j, rfl⟩ := Nat.exists_eq_add_of_le (show r + 64 ≤ q by omega)
      unfold initInst cihdrSize
      exact copy_inside (show j < (cntFormat o).size by simp; omega)
    unfold word Format.number
    dsimp only
    rw [hload]
    rfl
  have h₀ := hzero 0 (by decide)
  have h₁ := hzero 8 (by decide)
  have h₂ := hzero 16 (by decide)
  change Cnt.mk ((word o).get (initInst o m r) (r + 64))
    ⟨(word o).get (initInst o m r) (r + 64 + 8),
      (word o).get (initInst o m r) (r + 64 + 8 + 8)⟩ = zeroCnt
  rw [h₁]
  rw [Nat.add_zero] at h₀
  rw [Nat.add_assoc (r + 64), h₂, h₀]
  rfl

/-- A block that was handed out before is not handed out for the first time. -/
theorem made_or_eq (h : made r) : (fun x => made x ∨ x = r) = made := by
  funext x
  refine propext ⟨fun hx => ?_, Or.inl⟩
  rcases hx with hx | rfl
  · exact hx
  · exact h

/-- **A block is handed out.** -/
theorem Formatted.constructed (h : Formatted o page m (r :: free) data made) (ho : o.Plain) :
    Formatted o page (initInst o ((word o).put m page ((word o).get m r)) r) free
      (Function.update data r (some zeroCnt)) fun x => made x ∨ x = r := by
  have hr := h.free_block r List.mem_cons_self
  obtain ⟨hlow, -, -⟩ := hr.bounds
  obtain ⟨-, -, hrest⟩ := h.chain
  have hnot : r ∉ free := (List.nodup_cons.mp h.chain.nodup).1
  have hsame : ∀ x, IsBlock page x → x ≠ r →
      SameBlock m (initInst o ((word o).put m page ((word o).get m r)) r) x := by
    intro x hx hxr q h₁ h₂
    have hapart := hx.apart hr hxr
    rw [initInst_outside (by omega)]
    exact (word o).put_outside _ _ _ q (Or.inr (by have := hx.bounds.1; simp; omega))
  refine h.change hr hsame ?_ (fun x hx => Or.inl (List.mem_cons_of_mem r hx)) (fun _ => hnot) ?_
    (fun _ => initInst_opasswd) fun c hc => ?_
  · rw [get_initInst_apart (by simp; omega), (word o).get_put]
    refine hrest.congr fun x hx => ?_
    exact (hsame x (h.free_block x (List.mem_cons_of_mem r hx)) fun hxr => hnot (hxr ▸ hx)).next
  · rw [initInst_flags]
    rfl
  · rw [← Option.some.inj hc]
    exact initInst_cnt ho

/-- **A block is given back.** -/
theorem Formatted.destructed {hdr : BitVec 64} (h : Formatted o page m free data made)
    (hdata : data hdr.toNat ≠ none) {m₁ m₂ : ℕ → BitVec 8}
    (h₁ : (short o).put m (hdr.toNat + 54) 0 = m₁)
    (h₂ : (word o).put m₁ hdr.toNat ((word o).get m₁ page) = m₂) :
    Formatted o page ((word o).put m₂ page hdr) (hdr.toNat :: free)
      (Function.update data hdr.toNat none) made := by
  have hmade := h.live_made _ hdata
  have hr := h.made_block _ hmade
  obtain ⟨hlow, -, -⟩ := hr.bounds
  have hsame : ∀ x, IsBlock page x → x ≠ hdr.toNat → SameBlock m ((word o).put m₂ page hdr) x := by
    intro x hx hxr q hq₁ hq₂
    have hapart := hx.apart hr hxr
    unfold instSize at hapart hq₂
    rw [(word o).put_outside _ _ _ q (Or.inr (by have := hx.bounds.1; simp; omega)), ← h₂,
      (word o).put_outside _ _ _ q (by simp; omega), ← h₁]
    exact (short o).put_outside _ _ _ q (by simp; omega)
  rw [← made_or_eq hmade]
  refine h.change hr hsame ?_ (fun x hx => (List.mem_cons.mp hx).symm) (fun hne => absurd rfl hne)
    ?_ (fun hne => absurd rfl hne) fun c hc => absurd hc (Option.some_ne_none c).symm
  · -- the old head is behind the block
    rw [(word o).get_put]
    refine ⟨rfl, by omega, ?_⟩
    have hnext : (word o).get ((word o).put m₂ page hdr) hdr.toNat = (word o).get m page := by
      rw [Format.get_put_apart (by simp; omega), ← h₂, (word o).get_put, ← h₁]
      exact Format.get_put_apart (by simp; omega)
    dsimp only
    rw [hnext]
    refine h.chain.congr fun x hx => (hsame x (h.free_block x hx) fun hxr => ?_).next
    exact h.live_not_free _ hdata (hxr ▸ hx)
  · have hflags : (short o).get ((word o).put m₂ page hdr) (hdr.toNat + 54) = 0 := by
      rw [Format.get_put_apart (by simp; omega), ← h₂, Format.get_put_apart (by simp), ← h₁]
      exact (short o).get_put _ _ _
    rw [hflags]
    rfl

/-- The data of an instance are stored. -/
theorem Formatted.store (h : Formatted o page m free data made) (hdata : data r ≠ none) (c : Cnt) :
    Formatted o page ((cntFormat o).put m (r + cihdrSize) c) free
      (Function.update data r (some c)) made := by
  have hmade := h.live_made _ hdata
  have hr := h.made_block _ hmade
  obtain ⟨hlow, -, -⟩ := hr.bounds
  have hsame : ∀ x, IsBlock page x → x ≠ r →
      SameBlock m ((cntFormat o).put m (r + cihdrSize) c) x := by
    intro x hx hxr q h₁ h₂
    have hapart := hx.apart hr hxr
    unfold instSize at hapart h₂
    exact (cntFormat o).put_outside _ _ _ q (by unfold cihdrSize; simp; omega)
  rw [← made_or_eq hmade]
  refine h.change hr hsame ?_ (fun x hx => Or.inl hx) (fun _ => h.live_not_free r hdata) ?_
    (fun _ => ?_) fun c' hc => ?_
  · rw [Format.get_put_apart (by unfold cihdrSize; simp; omega)]
    refine h.chain.congr fun x hx => (hsame x (h.free_block x hx) fun hxr => ?_).next
    exact h.live_not_free r hdata (hxr ▸ hx)
  · rw [Format.get_put_apart (by unfold cihdrSize; simp), h.valid r hmade]
    obtain ⟨c₀, hc₀⟩ := Option.ne_none_iff_exists'.mp hdata
    rw [hc₀]
    rfl
  · rw [Format.get_put_apart (by unfold cihdrSize; simp)]
    exact h.opasswd r hdata
  · rw [← Option.some.inj hc]
    exact (cntFormat o).get_put _ _ _

/-! ### The pool -/

/-- **The pool of instances**: the object is there, or it is to be made when the first instance
is. -/
def Pool.Ready (o : ByteOrder) (page : BitVec 64) (s : Pool) (free : List ℕ)
    (data : ℕ → Option Cnt) (made : ℕ → Prop) : Prop :=
  s.instobj = page ∧ Formatted o page.toNat s.mem free data made ∨
    s.instobj = 0 ∧ s.inst = 0 ∧ free = allBlocks page.toNat ∧ data = (fun _ => none) ∧
      made = fun _ => False

variable {s : Pool}

section Calls
variable {page : BitVec 64}

theorem Pool.Ready.formatted (h : s.Ready o page free data made) (hmade : made r) :
    s.instobj = page ∧ Formatted o page.toNat s.mem free data made := by
  rcases h with h | ⟨-, -, -, -, rfl⟩
  · exact h
  · exact hmade.elim

theorem Pool.Ready.made_block (h : s.Ready o page free data made) (hmade : made r) :
    IsBlock page.toNat r :=
  (h.formatted hmade).2.made_block r hmade

/-- The object is made when it is not there. -/
theorem Pool.Ready.opened (h : s.Ready o page free data made) (hp : ObjectPage page) :
    ∃ s', (if s.instobj = 0 then getInstobj o page s else .ok s) = .ok s' ∧ s'.instobj = page ∧
      Formatted o page.toNat s'.mem free data made ∧ SameOutside page.toNat s.mem s'.mem := by
  rcases h with ⟨hobj, hformatted⟩ | ⟨hobj, hinst, rfl, rfl, rfl⟩
  · rw [if_neg (by rw [hobj]; exact hp.ne_zero)]
    exact ⟨s, rfl, hobj, hformatted, fun _ _ => rfl⟩
  · obtain ⟨hformatted, hsame⟩ := formatObject_formatted (o := o) hp.fits s.mem
    rw [if_pos hobj]
    refine ⟨⟨formatObject o page.toNat s.mem, page, page⟩, ?_, rfl, hformatted, hsame⟩
    unfold getInstobj
    rw [if_pos hinst, if_neg hp.ne_zero]

/-- **Making an instance.**  It gets the first block that is free. -/
theorem Pool.Ready.constructed (h : s.Ready o page (r :: free) data made) (hp : ObjectPage page)
    (ho : o.Plain) : ∃ s', cntCiStubConstructor o page s
        = (⟨generatePassword, .setWidth 62 (BitVec.ofNat 64 r >>> 2), 0⟩, s') ∧
      s'.Ready o page free (Function.update data r (some zeroCnt)) (fun x => made x ∨ x = r) ∧
        SameOutside page.toNat s.mem s'.mem := by
  obtain ⟨s₁, hopen, hobj, hformatted, hsame⟩ := h.opened hp
  have hr := hformatted.free_block r List.mem_cons_self
  obtain ⟨hlow, hhigh, -⟩ := hr.bounds
  obtain ⟨hhead, hne, -⟩ := hformatted.chain
  have hhdr : (word o).get s₁.mem page.toNat = BitVec.ofNat 64 r := by
    rw [← hhead, BitVec.ofNat_toNat, BitVec.setWidth_eq]
  have hnot : (word o).get s₁.mem page.toNat ≠ 0 := by
    intro h0
    rw [h0] at hhead
    exact hne hhead.symm
  unfold cntCiStubConstructor
  rw [hopen]
  dsimp only
  rw [hobj, if_neg hnot, hhead, hhdr]
  refine ⟨_, rfl, Or.inl ⟨rfl, hformatted.constructed ho⟩, fun q hq => ?_⟩
  unfold InObject at hq
  unfold instSize pagesize at *
  rw [← hsame q hq]
  dsimp only
  rw [initInst_outside (by unfold instSize; omega)]
  exact (word o).put_outside _ _ _ q (by simp; omega)

/-- Where no block is free there is an exception. -/
theorem Pool.Ready.constructed_none (h : s.Ready o page [] data made) (hp : ObjectPage page) :
    ∃ s', cntCiStubConstructor o page s = (stubException 205, s') ∧
      s'.Ready o page [] data made ∧ SameOutside page.toNat s.mem s'.mem := by
  obtain ⟨s₁, hopen, hobj, hformatted, hsame⟩ := h.opened hp
  have hhead : (word o).get s₁.mem page.toNat = 0 := BitVec.eq_of_toNat_eq hformatted.chain
  unfold cntCiStubConstructor
  rw [hopen]
  dsimp only
  rw [hobj, if_pos hhead]
  exact ⟨s₁, rfl, Or.inl ⟨hobj, hformatted⟩, hsame⟩

variable {hdr : BitVec 64}

/-- A block that was handed out is valid if it has data. -/
theorem Pool.Ready.isNotValid_eq (h : s.Ready o page free data made) (hmade : made hdr.toNat) :
    isNotValid o s.mem hdr = (data hdr.toNat).isNone :=
  (h.formatted hmade).2.valid _ hmade

/-- **Deleting an instance.**  Its block is the next one that is handed out. -/
theorem Pool.Ready.destructed (h : s.Ready o page free data made) (hp : ObjectPage page)
    (hmade : made hdr.toNat) (hdata : data hdr.toNat ≠ none) :
    ∃ s', cntCiStubDestructor o page ⟨generatePassword, hdr⟩ s = (⟨0, 0, 0⟩, s') ∧
      s'.Ready o page (hdr.toNat :: free) (Function.update data hdr.toNat none) made ∧
        SameOutside page.toNat s.mem s'.mem := by
  obtain ⟨hobj, hformatted⟩ := h.formatted hmade
  have hvalid : isNotValid o s.mem hdr = false := by
    rw [h.isNotValid_eq hmade]
    exact Option.isNone_eq_false_iff.mpr (Option.isSome_iff_ne_none.mpr hdata)
  have hpass := hformatted.opasswd _ hdata
  unfold cntCiStubDestructor
  dsimp only
  rw [hvalid, hpass, if_neg (by simp), if_neg (by rw [hobj]; exact hp.ne_zero)]
  refine ⟨_, rfl, Or.inl ⟨hobj, ?_⟩, fun q hq => ?_⟩
  · dsimp only
    rw [hobj]
    exact hformatted.destructed hdata rfl rfl
  · obtain ⟨hlow, hhigh, -⟩ := (hformatted.made_block _ hmade).bounds
    unfold InObject at hq
    unfold instSize pagesize at *
    dsimp only
    rw [hobj, (word o).put_outside _ _ _ q (by simp; omega),
      (word o).put_outside _ _ _ q (by simp; omega)]
    exact (short o).put_outside _ _ _ q (by simp; omega)

/-- A block that was given back is refused. -/
theorem Pool.Ready.destructed_none (h : s.Ready o page free data made) (hmade : made hdr.toNat)
    (hdata : data hdr.toNat = none) (passwd : BitVec 64) :
    cntCiStubDestructor o page ⟨passwd, hdr⟩ s = (stubException 201, s) := by
  have hvalid : isNotValid o s.mem hdr = true := by
    rw [h.isNotValid_eq hmade, hdata]
    rfl
  unfold cntCiStubDestructor
  dsimp only
  rw [hvalid, if_pos (Or.inl rfl)]

/-- Nothing outside the object counts. -/
theorem Pool.Ready.congr (h : s.Ready o page free data made) {m' : ℕ → BitVec 8}
    (hsame : ∀ q, InObject page.toNat q → m' q = s.mem q) :
    Pool.Ready o page { s with mem := m' } free data made := by
  rcases h with ⟨hobj, hformatted⟩ | h
  · exact Or.inl ⟨hobj, hformatted.congr hsame⟩
  · exact Or.inr h

/-- The data of an instance are stored. -/
theorem Pool.Ready.store (h : s.Ready o page free data made) (hmade : made r)
    (hdata : data r ≠ none) (c : Cnt) :
    Pool.Ready o page { s with mem := (cntFormat o).put s.mem (r + cihdrSize) c } free
      (Function.update data r (some c)) made := by
  obtain ⟨hobj, hformatted⟩ := h.formatted hmade
  exact Or.inl ⟨hobj, hformatted.store hdata c⟩

end Calls

end Mungi.Component
