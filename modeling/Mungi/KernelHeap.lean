import Mungi.Words
import Mungi.Lib.Heap
import Mungi.Lib.Runs
import Mathlib.Data.List.Range
import Mathlib.Data.List.Perm.Basic

/-!
# The kernel heap

Kernel data comes from a heap of its own (`mm.c`).  A request is rounded up to a power of two
that fits its eight bytes of overhead, and served from the list of free blocks of that bucket;
an empty list is refilled from the end of the heap, with a page of small blocks or with one block
that is a page larger than its power of two.  The overhead of a block is the link to the next
free block, or else a magic number and the bucket, in the same memory.

The power of two is computed as an `int`: from `1 << 31` on it is not what was meant, and the
end of the heap moves backwards.

## Main definitions

* `KHeap`, `heapNew` — the heap, and `_libmach_heap_new`.
* `kmalloc`, `morecore`, `kfree` — `_kmalloc`, `morecore` and `_kfree`.
* `KHeapRun`, `kheapStep` — a heap in use.
* `KHeapRun.Sound` — what is to hold of its blocks.

## Main results

* `heap_sound` — **the heap is sound as long as no block of 2³¹ bytes is asked for.**
-/

namespace Mungi

open Runs Chain

/-! ### The heap -/

/-- `NBUCKETS` -/
def nBuckets : ℕ := 80

/-- `MAGIC` -/
def magic : ℕ := 0xef

/-- `sizeof(union overhead)` -/
def sizeofOverhead : ℕ := 8

/-- `union overhead`, by what was last stored in it. -/
inductive Overhead where
  /-- `ov_next` -/
  | next (p : ℕ)
  /-- `ov_magic` and `ov_index` -/
  | ovu (magic index : ℕ)
  deriving DecidableEq, Repr

/-- `ov_next` of a free block. -/
def Overhead.next? : Overhead → Option ℕ
  | .next p => some p
  | .ovu _ _ => none

/-- `ov_index` of a block in use. -/
def Overhead.index? : Overhead → Option ℕ
  | .next _ => none
  | .ovu _ i => some i

/-- What the machine fixes. -/
structure HeapConf where
  /-- `L4_PAGESIZE` is this power of two. -/
  pageBits : ℕ
  three_le : 3 ≤ pageBits
  lt_int : pageBits < 31
  /-- `sizeof(heap_t)` -/
  sizeofHeap : ℕ
  sizeofHeap_pos : 0 < sizeofHeap

/-- `heap_t`, at the address `base`. -/
structure KHeap where
  base : ℕ
  locked : Bool
  nextf : ℕ → ℕ
  pagesz : ℕ
  pagebucket : ℕ
  /-- `hs_current_brk` -/
  brk : ℕ
  /-- `hs_size` -/
  size : ℕ
  /-- The memory of the heap, where it is an overhead. -/
  mem : ℕ → Overhead

/-- The loop of `_libmach_heap_new` that finds `heap_pagebucket`; `amt` is doubled less than 64
times. -/
def pageBucketFrom (pagesz : ℕ) : ℕ → ℕ → ℕ → ℕ
  | 0, _, bucket => bucket
  | fuel + 1, amt, bucket =>
    if amt < pagesz then pageBucketFrom pagesz fuel (amt * 2 % 2 ^ 64) (bucket + 1) else bucket

/-- `_libmach_heap_new` -/
def heapNew (c : HeapConf) (base size : ℕ) (mem : ℕ → Overhead) : KHeap where
  base := base
  locked := false
  nextf := fun _ => 0
  pagesz := 2 ^ c.pageBits
  pagebucket := pageBucketFrom (2 ^ c.pageBits) 64 8 0
  brk := pageRoundUp (2 ^ c.pageBits) (wordAdd base c.sizeofHeap)
  size := size
  mem := mem

namespace KHeap

/-- `sbrk`, none for -1. -/
def sbrk (h : KHeap) (incr : ℕ) : Option (ℕ × KHeap) :=
  if wordAdd h.base h.size < wordAdd h.brk incr then none
  else some (h.brk, { h with brk := wordAdd h.brk incr })

/-- `*op = o` -/
def write (h : KHeap) (op : ℕ) (o : Overhead) : KHeap :=
  { h with mem := Function.update h.mem op o }

/-- `nextf[bucket] = op` -/
def setNextf (h : KHeap) (bucket op : ℕ) : KHeap :=
  { h with nextf := Function.update h.nextf bucket op }

/-- The loop of `morecore`, with `n` blocks to come after `op`. -/
def carve (sz : ℕ) : KHeap → ℕ → ℕ → KHeap
  | h, op, 0 => h.write op (.next 0)
  | h, op, n + 1 => carve sz (h.write op (.next (wordAdd op sz))) (wordAdd op sz) n

end KHeap

/-- `1 << k` as an `int`, made a `size_t`.  None where the shift is by more than the width. -/
def intShift (k : ℕ) : Option ℕ :=
  if k < 31 then some (2 ^ k) else if k = 31 then some (2 ^ 64 - 2 ^ 31) else none

/-- `morecore` -/
def morecore (h : KHeap) (bucket : ℕ) : Option KHeap :=
  (intShift (bucket + 3)).map fun sz =>
    if sz = 0 then h
    else
      let amt := if sz < h.pagesz then h.pagesz else wordAdd sz h.pagesz
      let nblks := if sz < h.pagesz then amt / 2 ^ (bucket + 3) else 1
      match h.sbrk amt with
      | none => h
      | some (op, h) => (h.setNextf bucket op).carve sz op (nblks - 1)

/-- The loop of `_kmalloc`: the bucket, or `NULL` for a request that is too large.  None when
`fuel` is too small. -/
def bucketFrom (nbytes n : ℕ) : ℕ → ℕ → ℕ → Option (Option ℕ)
  | 0, _, _ => none
  | fuel + 1, amt, bucket =>
    if wordAdd amt n < nbytes then
      if amt * 2 % 2 ^ 64 = 0 then some none
      else bucketFrom nbytes n fuel (amt * 2 % 2 ^ 64) (bucket + 1)
    else some (some bucket)

/-- The bucket a request is served from. -/
def KHeap.bucketOf (h : KHeap) (nbytes : ℕ) : Option (Option ℕ) :=
  let n := wordSub h.pagesz sizeofOverhead
  if nbytes ≤ n then bucketFrom nbytes (wordSub 0 sizeofOverhead) 64 8 0
  else bucketFrom nbytes n 64 h.pagesz h.pagebucket

/-- `_kmalloc` once the bucket is known.  The lock is not given back when there is no memory. -/
def kmallocFrom (h : KHeap) (bucket : ℕ) : Option (ℕ × KHeap) :=
  if h.locked then none
  else
    let h := { h with locked := true }
    (if h.nextf bucket = 0 then morecore h bucket else some h).bind fun h =>
      if h.nextf bucket = 0 then some (0, h)
      else
        let op := h.nextf bucket
        (h.mem op).next?.map fun next =>
          (wordAdd op sizeofOverhead,
            { (h.setNextf bucket next).write op (.ovu magic (bucket % 2 ^ 8)) with
              locked := false })

/-- `_kmalloc`: the pointer and the heap.  None when it does not return, for the heap is
locked. -/
def kmalloc (h : KHeap) (nbytes : ℕ) : Option (ℕ × KHeap) :=
  (h.bucketOf nbytes).bind fun
    | none => some (0, h)
    | some bucket => kmallocFrom h bucket

/-- `_kfree` -/
def kfree (h : KHeap) (ptr : ℕ) : Option KHeap :=
  let op := wordSub ptr sizeofOverhead
  (h.mem op).index?.bind fun size =>
    if h.locked then none
    else some ((h.write op (.next (h.nextf size))).setNextf size op)

/-! ### A heap in use -/

/-- A block that was handed out, by the address of its overhead. -/
structure LiveBlock where
  op : ℕ
  nbytes : ℕ
  deriving DecidableEq, Repr

/-- A heap with the blocks in use, and those that were carved, each with its bucket. -/
structure KHeapRun where
  heap : KHeap
  live : List LiveBlock
  carved : List (ℕ × ℕ)

/-- The calls. -/
inductive KHeapOp where
  | alloc (nbytes : ℕ)
  | free (n : ℕ)
  deriving DecidableEq, Repr

/-- The size of the blocks of a bucket, overhead included. -/
def blockSize (pagesz bucket : ℕ) : ℕ :=
  if 2 ^ (bucket + 3) < pagesz then 2 ^ (bucket + 3) else 2 ^ (bucket + 3) + pagesz

/-- The blocks of a bucket that were carved when the end of the heap moved. -/
def carvedFor (h h' : KHeap) (bucket : ℕ) : List (ℕ × ℕ) :=
  (List.range' h.brk ((h'.brk - h.brk) / blockSize h.pagesz bucket)
    (blockSize h.pagesz bucket)).map fun op => (op, bucket)

/-- One call: a request for no more than the heap has, or a block in use that is freed. -/
def kheapStep (s : KHeapRun) : KHeapOp → Option KHeapRun
  | .alloc nbytes =>
    if nbytes ≤ s.heap.size then
      (kmalloc s.heap nbytes).map fun r =>
        { heap := r.2
          live := if r.1 = 0 then s.live
            else s.live ++ [⟨wordSub r.1 sizeofOverhead, nbytes⟩]
          carved := s.carved ++
            match s.heap.bucketOf nbytes with
            | some (some bucket) => carvedFor s.heap r.2 bucket
            | _ => [] }
    else none
  | .free n =>
    s.live[n]?.bind fun x =>
      (kfree s.heap (wordAdd x.op sizeofOverhead)).map fun h =>
        { s with heap := h, live := s.live.eraseIdx n }

/-- A new heap. -/
def kheapStart (h : KHeap) : KHeapRun := ⟨h, [], []⟩

namespace KHeapRun

/-- Two blocks do not overlap. -/
def Apart (pagesz : ℕ) (x y : ℕ × ℕ) : Prop :=
  x.1 + blockSize pagesz x.2 ≤ y.1 ∨ y.1 + blockSize pagesz y.2 ≤ x.1

/-- The blocks in use, with the bucket in their overhead. -/
def liveBlocks (h : KHeap) (live : List LiveBlock) : List (ℕ × ℕ) :=
  live.map fun x => (x.op, (h.mem x.op).index?.getD 0)

/-- The blocks on the lists of free blocks, with the bucket of their list. -/
def freeBlocks (lists : ℕ → List ℕ) : List (ℕ × ℕ) :=
  (List.range nBuckets).flatMap fun bucket => (lists bucket).map fun op => (op, bucket)

/-- All blocks. -/
def blocks (s : KHeapRun) (lists : ℕ → List ℕ) : List (ℕ × ℕ) :=
  liveBlocks s.heap s.live ++ freeBlocks lists

/-- What is to hold of the heap, with the lists of its free blocks. -/
structure SoundBy (s : KHeapRun) (lists : ℕ → List ℕ) : Prop where
  chains : ∀ bucket, IsChain (fun op => (s.heap.mem op).next?.getD 0) (s.heap.nextf bucket)
    (lists bucket)
  /-- Blocks do not overlap; in particular none is listed twice. -/
  apart : (s.blocks lists).Pairwise (Apart s.heap.pagesz)
  inside : ∀ x ∈ s.blocks lists, s.heap.base ≤ x.1 ∧
    x.1 + blockSize s.heap.pagesz x.2 ≤ s.heap.base + s.heap.size
  magic : ∀ x ∈ s.live, ∃ bucket, bucket < nBuckets ∧ s.heap.mem x.op = .ovu magic bucket
  usable : ∀ x ∈ s.live, sizeofOverhead + x.nbytes ≤
    blockSize s.heap.pagesz ((s.heap.mem x.op).index?.getD 0)
  /-- A block is of the bucket it was carved for. -/
  carved : (s.blocks lists).Perm s.carved

/-- What is to hold of the heap at every moment. -/
def Sound (s : KHeapRun) : Prop := ∃ lists, s.SoundBy lists

/-- A request that finds no free block is of a size below `2 ^ 31`, and the memory it needs ends
below the end of the address space. -/
def Fits (s : KHeapRun) : KHeapOp → Prop
  | .alloc nbytes => ∀ bucket, s.heap.bucketOf nbytes = some (some bucket) →
      s.heap.nextf bucket = 0 → bucket + 3 < 31 ∧
        s.heap.brk + max s.heap.pagesz (blockSize s.heap.pagesz bucket) < 2 ^ 64
  | .free _ => True

end KHeapRun

/-! ### Sizes -/

section Sizes
variable {c : HeapConf} {nbytes n fuel k b bucket p : ℕ}

/-- The bucket of a page. -/
theorem pageBucketFrom_eq (hk : k ≤ p) (hp : p < 64) (hfuel : p < k + fuel) :
    pageBucketFrom (2 ^ p) fuel (2 ^ k) bucket = bucket + (p - k) := by
  induction fuel generalizing k bucket with
  | zero => omega
  | succ fuel ih =>
    rw [pageBucketFrom]
    rcases Nat.eq_or_lt_of_le hk with rfl | hlt
    · rw [if_neg (Nat.lt_irrefl _), Nat.sub_self, Nat.add_zero]
    · have hmod : 2 ^ k * 2 % 2 ^ 64 = 2 ^ (k + 1) := by
        rw [← Nat.pow_succ]
        exact Nat.mod_eq_of_lt (Nat.pow_lt_pow_right (by decide) (by omega))
      rw [if_pos (Nat.pow_lt_pow_right (by decide) hlt), hmod, ih (by omega) (by omega)]
      omega

/-- The loop of `_kmalloc` ends: `amt` is doubled until it is nothing. -/
theorem bucketFrom_total (hk : k < 64) (hfuel : 64 ≤ k + fuel) :
    bucketFrom nbytes n fuel (2 ^ k) bucket ≠ none := by
  induction fuel generalizing k bucket with
  | zero => omega
  | succ fuel ih =>
    rw [bucketFrom, ← Nat.pow_succ]
    split
    · split
      · simp
      · rename_i hne
        have hk' : k + 1 < 64 := by
          by_contra hge
          obtain rfl : k = 63 := by omega
          exact hne (Nat.mod_self _)
        rw [Nat.mod_eq_of_lt (Nat.pow_lt_pow_right (by decide) hk')]
        exact ih hk' (by omega)
    · simp

/-- What the loop of `_kmalloc` finds: a power of two that is large enough. -/
theorem bucketFrom_spec (hk : k < 64)
    (h : bucketFrom nbytes n fuel (2 ^ k) bucket = some (some b)) :
    ∃ j, b = bucket + j ∧ k + j < 64 ∧ nbytes ≤ wordAdd (2 ^ (k + j)) n := by
  induction fuel generalizing k bucket with
  | zero => cases h
  | succ fuel ih =>
    rw [bucketFrom, ← Nat.pow_succ] at h
    split at h
    · split at h
      · cases h
      · rename_i hne
        have hk' : k + 1 < 64 := by
          by_contra hge
          obtain rfl : k = 63 := by omega
          exact hne (Nat.mod_self _)
        rw [Nat.mod_eq_of_lt (Nat.pow_lt_pow_right (by decide) hk')] at h
        obtain ⟨j, rfl, hj, hle⟩ := ih hk' h
        refine ⟨j + 1, by omega, by omega, ?_⟩
        rwa [show k + (j + 1) = k + 1 + j by omega]
    · rename_i hle
      obtain rfl := Option.some.inj (Option.some.inj h)
      exact ⟨0, rfl, hk, Nat.le_of_not_lt hle⟩

theorem blockSize_pos (pagesz bucket : ℕ) : sizeofOverhead ≤ blockSize pagesz bucket := by
  have h8 : 2 ^ 3 ≤ 2 ^ (bucket + 3) := Nat.pow_le_pow_right (by decide) (by omega)
  unfold blockSize sizeofOverhead
  split <;> omega

/-- A request fits the blocks of its bucket. -/
theorem bucketOf_spec {h : KHeap} (hpagesz : h.pagesz = 2 ^ c.pageBits)
    (hbucket : h.pagebucket = c.pageBits - 3) (hb : h.bucketOf nbytes = some (some b)) :
    sizeofOverhead + nbytes ≤ blockSize h.pagesz b ∧ b + 3 < 64 := by
  have h₁ := c.three_le
  have h₂ := c.lt_int
  have hpage : sizeofOverhead ≤ 2 ^ c.pageBits :=
    show 2 ^ 3 ≤ 2 ^ c.pageBits from Nat.pow_le_pow_right (by decide) h₁
  have hword : 2 ^ c.pageBits < 2 ^ 64 := Nat.pow_lt_pow_right (by decide) (by omega)
  dsimp only [KHeap.bucketOf] at hb
  rw [hpagesz, hbucket, wordSub_of_le hpage hword] at hb
  rw [hpagesz]
  split at hb
  · obtain ⟨j, rfl, hj, hle⟩ := bucketFrom_spec (k := 3) (by decide) hb
    have h8 : 2 ^ 3 ≤ 2 ^ (3 + j) := Nat.pow_le_pow_right (by decide) (by omega)
    have hlt : 2 ^ (3 + j) < 2 ^ 64 := Nat.pow_lt_pow_right (by decide) hj
    have hsub : wordAdd (2 ^ (3 + j)) (wordSub 0 sizeofOverhead) = 2 ^ (3 + j) - 8 := by
      unfold wordAdd wordSub sizeofOverhead
      omega
    rw [hsub] at hle
    unfold blockSize sizeofOverhead
    rw [Nat.zero_add, Nat.add_comm j 3]
    split <;> omega
  · obtain ⟨j, rfl, hj, hle⟩ := bucketFrom_spec (by omega) hb
    have hbits : c.pageBits - 3 + j + 3 = c.pageBits + j := by omega
    have hmono : 2 ^ c.pageBits ≤ 2 ^ (c.pageBits + j) :=
      Nat.pow_le_pow_right (by decide) (by omega)
    have hmod : wordAdd (2 ^ (c.pageBits + j)) (2 ^ c.pageBits - sizeofOverhead) ≤
      2 ^ (c.pageBits + j) + (2 ^ c.pageBits - sizeofOverhead) := Nat.mod_le ..
    unfold blockSize
    rw [hbits, if_neg (by omega)]
    omega

/-- The bucket of a request is found. -/
theorem bucketOf_total {h : KHeap} (hpagesz : h.pagesz = 2 ^ c.pageBits) :
    h.bucketOf nbytes ≠ none := by
  have h₁ := c.three_le
  have h₂ := c.lt_int
  dsimp only [KHeap.bucketOf]
  split
  · exact bucketFrom_total (k := 3) (by decide) (by decide)
  · rw [hpagesz]
    exact bucketFrom_total (by omega) (by omega)

end Sizes

/-! ### More memory -/

section Carve
variable {h h' : KHeap} {sz op n a : ℕ}

/-- Wherever the blocks are, the loop of `morecore` writes nothing but links, and one into the
first block. -/
theorem KHeap.carve_links (h : KHeap) (sz op n : ℕ) :
    ∃ mem, h.carve sz op n = { h with mem := mem } ∧
      (∀ a, mem a = h.mem a ∨ ∃ p, mem a = .next p) ∧ ∃ p, mem op = .next p := by
  have hwrite : ∀ (h : KHeap) (op p a : ℕ), (h.write op (.next p)).mem a = h.mem a ∨
      ∃ q, (h.write op (.next p)).mem a = .next q := by
    intro h op p a
    by_cases ha : a = op
    · exact Or.inr ⟨p, ha ▸ Function.update_self ..⟩
    · exact Or.inl (Function.update_of_ne ha ..)
  induction n generalizing h op with
  | zero => exact ⟨_, rfl, hwrite h op 0, 0, Function.update_self ..⟩
  | succ n ih =>
    obtain ⟨mem, heq, hmem, -⟩ := ih (h.write op (.next (wordAdd op sz))) (wordAdd op sz)
    refine ⟨mem, heq, fun a => ?_, ?_⟩
    · rcases hmem a with ha | hlink
      · rw [ha]
        exact hwrite ..
      · exact Or.inr hlink
    · rcases hmem op with ha | hlink
      · exact ⟨wordAdd op sz, ha.trans (Function.update_self ..)⟩
      · exact hlink

/-- The loop of `morecore` changes the overhead of its blocks, and makes a list of them. -/
theorem KHeap.carve_spec (hsz : 0 < sz) (hop : 0 < op) (hend : op + sz * n < 2 ^ 64) :
    ∃ mem, h.carve sz op n = { h with mem := mem } ∧
      (∀ a, a ∉ List.range' op (n + 1) sz → mem a = h.mem a) ∧
      (∀ a ∈ List.range' op (n + 1) sz, ∃ p, mem a = .next p) ∧
      IsChain (fun a => (mem a).next?.getD 0) op (List.range' op (n + 1) sz) := by
  induction n generalizing h op with
  | zero =>
    refine ⟨_, rfl, fun a ha => ?_, fun a ha => ?_, ?_⟩
    · exact Function.update_of_ne (by simpa using ha) ..
    · obtain rfl : a = op := by simpa using ha
      exact ⟨0, Function.update_self ..⟩
    · refine ⟨rfl, hop.ne', ?_⟩
      show (Function.update h.mem op (.next 0) op).next?.getD 0 = 0
      rw [Function.update_self]
      rfl
  | succ n ih =>
    have hadd : wordAdd op sz = op + sz := wordAdd_eq (by rw [Nat.mul_succ] at hend; omega)
    obtain ⟨mem, heq, hframe, hfree, hchain⟩ := @ih (h.write op (.next (op + sz))) (op + sz)
      (by omega) (by rw [Nat.mul_succ] at hend; omega)
    have hnot : op ∉ List.range' (op + sz) (n + 1) sz := by
      intro hmem
      obtain ⟨i, -, hi⟩ := List.mem_range'.mp hmem
      omega
    have hself : mem op = .next (op + sz) := by
      rw [hframe op hnot]
      exact Function.update_self ..
    refine ⟨mem, ?_, fun a ha => ?_, fun a ha => ?_, ?_⟩
    · rw [KHeap.carve, hadd, heq]
      rfl
    · rw [List.range'_succ, List.mem_cons, not_or] at ha
      rw [hframe a ha.2]
      exact Function.update_of_ne ha.1 ..
    · rw [List.range'_succ] at ha
      rcases List.mem_cons.mp ha with rfl | ha
      · exact ⟨_, hself⟩
      · exact hfree a ha
    · rw [List.range'_succ]
      refine ⟨rfl, hop.ne', ?_⟩
      show IsChain _ ((mem op).next?.getD 0) _
      rw [hself]
      exact hchain

/-- The amount that `morecore` asks `sbrk` for is filled by the blocks. -/
theorem blocks_fill (p b : ℕ) : ∃ n, 0 < n ∧
    n * blockSize (2 ^ p) b = max (2 ^ p) (blockSize (2 ^ p) b) ∧
    (if 2 ^ (b + 3) < 2 ^ p then max (2 ^ p) (blockSize (2 ^ p) b) / 2 ^ (b + 3) else 1) = n ∧
    (n = 1 ∨ blockSize (2 ^ p) b = 2 ^ (b + 3)) := by
  unfold blockSize
  split
  · rename_i hlt
    have hle : b + 3 ≤ p := ((Nat.pow_lt_pow_iff_right (by decide)).mp hlt).le
    rw [max_eq_left hlt.le]
    exact ⟨_, Nat.div_pos hlt.le (Nat.two_pow_pos _), Nat.div_mul_cancel (Nat.pow_dvd_pow 2 hle),
      rfl, Or.inr rfl⟩
  · rw [max_eq_right (Nat.le_add_left _ _)]
    exact ⟨1, Nat.one_pos, Nat.one_mul _, rfl, Or.inl rfl⟩

/-- What `morecore` asks `sbrk` for, and what it makes of it. -/
theorem morecore_eq {b : ℕ} (hb : b + 3 < 31)
    (hend : h.brk + max h.pagesz (blockSize h.pagesz b) < 2 ^ 64) :
    morecore h b = some (if wordAdd h.base h.size <
        h.brk + max h.pagesz (blockSize h.pagesz b) then h
      else ({ h with brk := h.brk + max h.pagesz (blockSize h.pagesz b) }.setNextf b h.brk).carve
        (2 ^ (b + 3)) h.brk ((if 2 ^ (b + 3) < h.pagesz then
          max h.pagesz (blockSize h.pagesz b) / 2 ^ (b + 3) else 1) - 1)) := by
  have hpos := Nat.two_pow_pos (b + 3)
  have hamt : (if 2 ^ (b + 3) < h.pagesz then h.pagesz else wordAdd (2 ^ (b + 3)) h.pagesz) =
      max h.pagesz (blockSize h.pagesz b) := by
    unfold blockSize at hend ⊢
    split
    · rename_i hlt
      rw [max_eq_left hlt.le]
    · rename_i hge
      rw [if_neg hge, max_eq_right (Nat.le_add_left _ _)] at hend
      rw [max_eq_right (Nat.le_add_left _ _), wordAdd_eq (by omega)]
  rw [morecore, intShift, if_pos hb, Option.map_some, if_neg (by omega)]
  dsimp only
  rw [hamt, KHeap.sbrk, wordAdd_eq hend]
  by_cases hroom : wordAdd h.base h.size < h.brk + max h.pagesz (blockSize h.pagesz b)
  · rw [if_pos hroom, if_pos hroom]
  · rw [if_neg hroom, if_neg hroom]

/-- What `morecore` does: nothing, or it makes the list of a bucket from the end of the heap. -/
theorem morecore_spec {c : HeapConf} {b : ℕ} (hpagesz : h.pagesz = 2 ^ c.pageBits)
    (hbrk : 0 < h.brk) (hb : b + 3 < 31)
    (hend : h.brk + max h.pagesz (blockSize h.pagesz b) < 2 ^ 64)
    (hcore : morecore h b = some h') :
    h' = h ∨ ∃ mem n, h' = { h with
        brk := h.brk + n * blockSize h.pagesz b
        nextf := Function.update h.nextf b h.brk
        mem := mem } ∧ 0 < n ∧ h.brk + n * blockSize h.pagesz b < 2 ^ 64 ∧
      h.brk + n * blockSize h.pagesz b ≤ h.base + h.size ∧
      (∀ a, a ∉ List.range' h.brk n (blockSize h.pagesz b) → mem a = h.mem a) ∧
      (∀ a ∈ List.range' h.brk n (blockSize h.pagesz b), ∃ p, mem a = .next p) ∧
      IsChain (fun a => (mem a).next?.getD 0) h.brk
        (List.range' h.brk n (blockSize h.pagesz b)) := by
  obtain ⟨n, hn, hfill, hblks, hsmall⟩ := blocks_fill c.pageBits b
  rw [← hpagesz] at hfill hblks hsmall
  have hsize : 0 < blockSize h.pagesz b := Nat.lt_of_lt_of_le (by decide) (blockSize_pos ..)
  rw [morecore_eq hb hend, hblks, ← hfill] at hcore
  rw [← hfill] at hend
  by_cases hroom : wordAdd h.base h.size < h.brk + n * blockSize h.pagesz b
  · rw [if_pos hroom] at hcore
    exact Or.inl (Option.some.inj hcore).symm
  rw [if_neg hroom] at hcore
  have hmod : wordAdd h.base h.size ≤ h.base + h.size := Nat.mod_le ..
  obtain ⟨n, rfl⟩ : ∃ k, n = k + 1 := ⟨n - 1, by omega⟩
  -- the step of the loop matters only where there is more than one block
  have hstep : ∀ (x : KHeap) op, x.carve (2 ^ (b + 3)) op n =
      x.carve (blockSize h.pagesz b) op n := by
    intro x op
    rcases hsmall with hone | heq
    · obtain rfl : n = 0 := by omega
      rfl
    · rw [heq]
  obtain ⟨mem, heq, hframe, hfree, hchain⟩ := KHeap.carve_spec
    (h := { h with brk := h.brk + (n + 1) * blockSize h.pagesz b }.setNextf b h.brk) (n := n)
    hsize hbrk (by rw [Nat.add_mul] at hend; rw [Nat.mul_comm]; omega)
  right
  refine ⟨mem, n + 1, ?_, hn, hend, by omega, hframe, hfree, hchain⟩
  rw [← Option.some.inj hcore]
  rw [Nat.add_sub_cancel, hstep, heq]
  rfl

end Carve

/-! ### The blocks -/

namespace KHeapRun

section Blocks
variable {c : HeapConf} {s : KHeapRun} {lists : ℕ → List ℕ} {pagesz b op : ℕ}
  {l l' : List (ℕ × ℕ)}

theorem Apart.symm {x y : ℕ × ℕ} (h : Apart pagesz x y) : Apart pagesz y x := Or.symm h

theorem Apart.ne {x y : ℕ × ℕ} (h : Apart pagesz x y) : x.1 ≠ y.1 := by
  have hx := blockSize_pos pagesz x.2
  have hy := blockSize_pos pagesz y.2
  unfold sizeofOverhead at hx hy
  unfold Apart at h
  omega

/-- One of the lists of free blocks. -/
theorem freeBlocks_focus (lists : ℕ → List ℕ) (hb : b < nBuckets) : (freeBlocks lists).Perm
    (((lists b).map fun op => (op, b)) ++ freeBlocks (Function.update lists b [])) := by
  have hperm := List.perm_cons_erase (List.mem_range.mpr hb)
  have hrest : ∀ i ∈ (List.range nBuckets).erase b,
      Function.update lists b [] i = lists i := by
    intro i hi
    apply Function.update_of_ne
    rintro rfl
    exact (List.nodup_range.mem_erase_iff.mp hi).1 rfl
  refine (hperm.flatMap_right _).trans ?_
  refine List.Perm.trans ?_ (List.Perm.append_left _ (hperm.flatMap_right _).symm)
  rw [List.flatMap_cons, List.flatMap_cons, Function.update_self]
  apply List.Perm.append_left
  rw [List.map_nil, List.nil_append]
  apply List.Perm.of_eq
  apply List.flatMap_congr
  intro i hi
  rw [hrest i hi]

/-- A list of free blocks is replaced. -/
theorem freeBlocks_update (lists : ℕ → List ℕ) (hb : b < nBuckets) (l : List ℕ) :
    (freeBlocks (Function.update lists b l)).Perm
      ((l.map fun op => (op, b)) ++ freeBlocks (Function.update lists b [])) := by
  have h := freeBlocks_focus (Function.update lists b l) hb
  rwa [Function.update_self, Function.update_idem] at h

theorem mem_freeBlocks (hb : b < nBuckets) (hop : op ∈ lists b) : (op, b) ∈ freeBlocks lists :=
  (freeBlocks_focus lists hb).mem_iff.mpr
    (List.mem_append_left _ (List.mem_map_of_mem hop))

/-- The overhead of the blocks in use is what matters of the memory. -/
theorem liveBlocks_congr {h h' : KHeap} {live : List LiveBlock}
    (hmem : ∀ x ∈ live, h'.mem x.op = h.mem x.op) : liveBlocks h' live = liveBlocks h live := by
  apply List.map_congr_left
  intro x hx
  rw [hmem x hx]

/-- The invariant. -/
structure Kept (c : HeapConf) (s : KHeapRun) (lists : ℕ → List ℕ) : Prop extends
    s.SoundBy lists where
  pagesz : s.heap.pagesz = 2 ^ c.pageBits
  pagebucket : s.heap.pagebucket = c.pageBits - 3
  outside : ∀ bucket, nBuckets ≤ bucket → lists bucket = []
  free : ∀ bucket, ∀ op ∈ lists bucket, ∃ p, s.heap.mem op = .next p
  below : ∀ x ∈ s.blocks lists, 0 < x.1 ∧ x.1 + blockSize s.heap.pagesz x.2 ≤ s.heap.brk
  brk : 0 < s.heap.brk ∧ s.heap.base ≤ s.heap.brk ∧ s.heap.brk < 2 ^ 64

theorem Kept.lock (h : s.Kept c lists) (locked : Bool) :
    ({ s with heap := { s.heap with locked := locked } } : KHeapRun).Kept c lists :=
  ⟨⟨h.chains, h.apart, h.inside, h.magic, h.usable, h.carved⟩, h.pagesz, h.pagebucket, h.outside,
    h.free, h.below, h.brk⟩

/-- A free block is not in use. -/
theorem Kept.not_live (h : s.Kept c lists) (hb : b < nBuckets) (hop : op ∈ lists b) :
    ∀ x ∈ s.live, x.op ≠ op := by
  intro x hx
  have hpair := (List.pairwise_append.mp h.apart).2.2 (x.op, _)
    (List.mem_map_of_mem hx) (op, b) (mem_freeBlocks hb hop)
  exact hpair.ne

/-- A free block is on one list. -/
theorem Kept.not_listed (h : s.Kept c lists) (hb : b < nBuckets) (hop : op ∈ lists b) {i : ℕ}
    (hi : i ≠ b) : op ∉ lists i := by
  intro hmem
  have hin : i < nBuckets := by
    by_contra hge
    rw [h.outside i (by omega)] at hmem
    cases hmem
  have hpair := ((freeBlocks_focus lists hb).pairwise_iff Apart.symm).mp
    (List.pairwise_append.mp h.apart).2.1
  have hmem' : (op, i) ∈ freeBlocks (Function.update lists b []) :=
    mem_freeBlocks hin (by rwa [Function.update_of_ne hi])
  exact ((List.pairwise_append.mp hpair).2.2 (op, b) (List.mem_map_of_mem hop) _ hmem').ne rfl

/-- A block changes hands: the blocks are the same. -/
theorem Kept.of_perm (h : s.Kept c lists) {nextf : ℕ → ℕ} {mem : ℕ → Overhead}
    {live : List LiveBlock} {lists' : ℕ → List ℕ}
    (hperm : (liveBlocks { s.heap with nextf := nextf, mem := mem } live ++ freeBlocks lists').Perm
      (s.blocks lists))
    (hchains : ∀ i, IsChain (fun op => (mem op).next?.getD 0) (nextf i) (lists' i))
    (hmagic : ∀ x ∈ live, ∃ i, i < nBuckets ∧ mem x.op = .ovu magic i)
    (husable : ∀ x ∈ live, sizeofOverhead + x.nbytes ≤
      blockSize s.heap.pagesz ((mem x.op).index?.getD 0))
    (houtside : ∀ i, nBuckets ≤ i → lists' i = [])
    (hfree : ∀ i, ∀ op ∈ lists' i, ∃ p, mem op = .next p) :
    Kept c ⟨{ s.heap with nextf := nextf, mem := mem }, live, s.carved⟩ lists' where
  chains := hchains
  apart := (hperm.pairwise_iff Apart.symm).mpr h.apart
  inside := fun x hx => h.inside x (hperm.mem_iff.mp hx)
  magic := hmagic
  usable := husable
  carved := hperm.trans h.carved
  pagesz := h.pagesz
  pagebucket := h.pagebucket
  outside := houtside
  free := hfree
  below := fun x hx => h.below x (hperm.mem_iff.mp hx)
  brk := h.brk

/-- The first free block of a bucket is handed out. -/
theorem Kept.pop (h : s.Kept c lists) {rest : List ℕ} {nbytes next : ℕ} (hb : b < nBuckets)
    (hlist : lists b = op :: rest) (hnext : (s.heap.mem op).next? = some next)
    (hsize : sizeofOverhead + nbytes ≤ blockSize s.heap.pagesz b) :
    Kept c
      { heap := { s.heap with
          nextf := Function.update s.heap.nextf b next
          mem := Function.update s.heap.mem op (.ovu magic b) }
        live := s.live ++ [⟨op, nbytes⟩]
        carved := s.carved } (Function.update lists b rest) := by
  have hop : op ∈ lists b := by
    rw [hlist]
    exact List.mem_cons_self
  have hnodup : (op :: rest).Nodup := hlist ▸ (h.chains b).nodup
  have hself : Function.update s.heap.mem op (.ovu magic b) op = .ovu magic b :=
    Function.update_self ..
  have hother : ∀ {a}, a ≠ op → Function.update s.heap.mem op (.ovu magic b) a = s.heap.mem a :=
    fun ha => Function.update_of_ne ha ..
  apply h.of_perm
  · have hold := List.Perm.append_left (liveBlocks s.heap s.live) (freeBlocks_focus lists hb)
    rw [hlist] at hold
    refine List.Perm.trans ?_ hold.symm
    refine (List.Perm.append_left _ (freeBlocks_update lists hb rest)).trans ?_
    have hsame : ∀ x ∈ s.live, Function.update s.heap.mem op (.ovu magic b) x.op =
        s.heap.mem x.op := fun x hx => hother (h.not_live hb hop x hx)
    rw [liveBlocks, List.map_append, List.map_singleton, List.append_assoc]
    dsimp only
    rw [hself]
    apply List.Perm.of_eq
    congr 1
    exact List.map_congr_left fun x hx => by rw [hsame x hx]
  · intro i
    by_cases hi : i = b
    · subst hi
      rw [Function.update_self, Function.update_self]
      obtain ⟨-, -, hrest⟩ := hlist ▸ h.chains i
      dsimp only at hrest
      rw [hnext] at hrest
      exact hrest.congr fun y hy => by
        rw [hother fun heq => (List.nodup_cons.mp hnodup).1 (heq ▸ hy)]
    · rw [Function.update_of_ne hi, Function.update_of_ne hi]
      exact (h.chains i).congr fun y hy => by
        rw [hother fun heq => h.not_listed hb hop hi (heq ▸ hy)]
  · intro x hx
    rcases List.mem_append.mp hx with hx | hx
    · rw [hother (h.not_live hb hop x hx)]
      exact h.magic x hx
    · obtain rfl := List.mem_singleton.mp hx
      exact ⟨b, hb, hself⟩
  · intro x hx
    rcases List.mem_append.mp hx with hx | hx
    · rw [hother (h.not_live hb hop x hx)]
      exact h.usable x hx
    · obtain rfl := List.mem_singleton.mp hx
      rw [hself]
      exact hsize
  · intro i hi
    rw [Function.update_of_ne (by omega)]
    exact h.outside i hi
  · intro i a ha
    by_cases hi : i = b
    · subst hi
      rw [Function.update_self] at ha
      rw [hother fun heq => (List.nodup_cons.mp hnodup).1 (heq ▸ ha)]
      exact h.free i a (hlist ▸ List.mem_cons_of_mem _ ha)
    · rw [Function.update_of_ne hi] at ha
      rw [hother fun heq => h.not_listed hb hop hi (heq ▸ ha)]
      exact h.free i a ha

/-- A block in use goes back to the list of its bucket. -/
theorem Kept.push (h : s.Kept c lists) {n : ℕ} (hn : n < s.live.length) (hb : b < nBuckets)
    (hmem : s.heap.mem s.live[n].op = .ovu magic b) :
    Kept c
      { heap := { s.heap with
          nextf := Function.update s.heap.nextf b s.live[n].op
          mem := Function.update s.heap.mem s.live[n].op (.next (s.heap.nextf b)) }
        live := s.live.eraseIdx n
        carved := s.carved } (Function.update lists b (s.live[n].op :: lists b)) := by
  have hlive := List.getElem_cons_eraseIdx_perm hn
  have hx := List.getElem_mem hn
  generalize s.live[n] = x at hmem hlive hx ⊢
  have hself : Function.update s.heap.mem x.op (.next (s.heap.nextf b)) x.op =
      .next (s.heap.nextf b) := Function.update_self ..
  have hother : ∀ {a}, a ≠ x.op →
      Function.update s.heap.mem x.op (.next (s.heap.nextf b)) a = s.heap.mem a :=
    fun ha => Function.update_of_ne ha ..
  have hlisted : ∀ i, ∀ a ∈ lists i, a ≠ x.op := by
    intro i a ha heq
    obtain ⟨p, hp⟩ := h.free i a ha
    rw [heq, hmem] at hp
    cases hp
  have hblocks : ((x.op, b) :: liveBlocks s.heap (s.live.eraseIdx n)).Perm
      (liveBlocks s.heap s.live) := by
    have := hlive.map fun x => (x.op, (s.heap.mem x.op).index?.getD 0)
    rwa [List.map_cons, hmem] at this
  have hrest : ∀ y ∈ s.live.eraseIdx n, y.op ≠ x.op := by
    intro y hy
    have hpair := (hblocks.pairwise_iff Apart.symm).mpr (List.pairwise_append.mp h.apart).1
    exact ((List.pairwise_cons.mp hpair).1 _ (List.mem_map_of_mem hy)).symm.ne
  apply h.of_perm
  · refine (List.Perm.append_left _ (freeBlocks_update lists hb _)).trans ?_
    have hold := (hblocks.append_right (freeBlocks lists)).symm
    refine List.Perm.trans ?_ hold.symm
    have hsame : liveBlocks { s.heap with
        nextf := Function.update s.heap.nextf b x.op
        mem := Function.update s.heap.mem x.op (.next (s.heap.nextf b)) } (s.live.eraseIdx n) =
        liveBlocks s.heap (s.live.eraseIdx n) := liveBlocks_congr fun y hy => hother (hrest y hy)
    rw [List.map_cons, List.cons_append]
    refine List.perm_middle.trans (List.Perm.cons _ ?_)
    exact hsame ▸ List.Perm.append_left _ (freeBlocks_focus lists hb).symm
  · intro i
    by_cases hi : i = b
    · subst hi
      rw [Function.update_self, Function.update_self]
      have hpos := (h.below (x.op, _) (List.mem_append_left _ (List.mem_map_of_mem hx))).1
      refine ⟨rfl, hpos.ne', ?_⟩
      dsimp only
      rw [hself]
      exact (h.chains i).congr fun y hy => by rw [hother (hlisted i y hy)]
    · rw [Function.update_of_ne hi, Function.update_of_ne hi]
      exact (h.chains i).congr fun y hy => by rw [hother (hlisted i y hy)]
  · intro y hy
    rw [hother (hrest y hy)]
    exact h.magic y (List.mem_of_mem_eraseIdx hy)
  · intro y hy
    rw [hother (hrest y hy)]
    exact h.usable y (List.mem_of_mem_eraseIdx hy)
  · intro i hi
    rw [Function.update_of_ne (by omega)]
    exact h.outside i hi
  · intro i a ha
    by_cases hi : i = b
    · subst hi
      rw [Function.update_self] at ha
      rcases List.mem_cons.mp ha with rfl | ha
      · exact ⟨_, hself⟩
      · rw [hother (hlisted i a ha)]
        exact h.free i a ha
    · rw [Function.update_of_ne hi] at ha
      rw [hother (hlisted i a ha)]
      exact h.free i a ha

/-- Blocks carved one after the other do not overlap. -/
theorem range'_apart (pagesz b op n : ℕ) :
    ((List.range' op n (blockSize pagesz b)).map fun a => (a, b)).Pairwise (Apart pagesz) := by
  induction n generalizing op with
  | zero => exact List.Pairwise.nil
  | succ n ih =>
    rw [List.range'_succ, List.map_cons, List.pairwise_cons]
    refine ⟨fun y hy => ?_, ih _⟩
    obtain ⟨a, ha, rfl⟩ := List.mem_map.mp hy
    obtain ⟨i, -, rfl⟩ := List.mem_range'.mp ha
    exact Or.inl (Nat.le_add_right _ _)

/-- **A list of free blocks is made from the end of the heap.** -/
theorem Kept.refill (h : s.Kept c lists) {n : ℕ} {mem : ℕ → Overhead} (hb : b < nBuckets)
    (hempty : s.heap.nextf b = 0)
    (hend : s.heap.brk + n * blockSize s.heap.pagesz b < 2 ^ 64)
    (hroom : s.heap.brk + n * blockSize s.heap.pagesz b ≤ s.heap.base + s.heap.size)
    (hframe : ∀ a, a ∉ List.range' s.heap.brk n (blockSize s.heap.pagesz b) →
      mem a = s.heap.mem a)
    (hfree : ∀ a ∈ List.range' s.heap.brk n (blockSize s.heap.pagesz b), ∃ p, mem a = .next p)
    (hchain : IsChain (fun a => (mem a).next?.getD 0) s.heap.brk
      (List.range' s.heap.brk n (blockSize s.heap.pagesz b))) :
    Kept c
      { heap := { s.heap with
          brk := s.heap.brk + n * blockSize s.heap.pagesz b
          nextf := Function.update s.heap.nextf b s.heap.brk
          mem := mem }
        live := s.live
        carved := s.carved ++
          (List.range' s.heap.brk n (blockSize s.heap.pagesz b)).map fun a => (a, b) }
      (Function.update lists b (List.range' s.heap.brk n (blockSize s.heap.pagesz b))) := by
  have hlist : lists b = [] := by
    have hc := h.chains b
    rw [hempty] at hc
    cases hl : lists b with
    | nil => rfl
    | cons y l =>
      rw [hl] at hc
      exact absurd hc.1.symm hc.2.1
  have hnew : ∀ a ∈ List.range' s.heap.brk n (blockSize s.heap.pagesz b), s.heap.brk ≤ a ∧
      a + blockSize s.heap.pagesz b ≤ s.heap.brk + n * blockSize s.heap.pagesz b := by
    intro a ha
    obtain ⟨i, hi, rfl⟩ := List.mem_range'.mp ha
    have hmul := Nat.mul_le_mul_right (blockSize s.heap.pagesz b) (Nat.succ_le_of_lt hi)
    rw [Nat.succ_mul, Nat.mul_comm i] at hmul
    omega
  have hold : ∀ x ∈ s.blocks lists, x.1 ∉ List.range' s.heap.brk n (blockSize s.heap.pagesz b) := by
    intro x hx hmem
    have hbelow := (h.below x hx).2
    have hpos := blockSize_pos s.heap.pagesz x.2
    have hge := (hnew x.1 hmem).1
    unfold sizeofOverhead at hpos
    omega
  have hlive : ∀ x ∈ s.live, mem x.op = s.heap.mem x.op := fun x hx =>
    hframe x.op (hold _ (List.mem_append_left _ (List.mem_map_of_mem hx)))
  have hlisted : ∀ i, ∀ a ∈ lists i, mem a = s.heap.mem a := by
    intro i a ha
    by_cases hi : i < nBuckets
    · exact hframe a (hold (a, i) (List.mem_append_right _ (mem_freeBlocks hi ha)))
    · rw [h.outside i (by omega)] at ha
      cases ha
  generalize hL : List.range' s.heap.brk n (blockSize s.heap.pagesz b) = L at hnew hchain hfree ⊢
  have hperm : (blocks
      { heap := { s.heap with
          brk := s.heap.brk + n * blockSize s.heap.pagesz b
          nextf := Function.update s.heap.nextf b s.heap.brk
          mem := mem }
        live := s.live
        carved := s.carved ++ L.map fun a => (a, b) } (Function.update lists b L)).Perm
      (s.blocks lists ++ L.map fun a => (a, b)) := by
    have hsame : Function.update lists b [] = lists := hlist ▸ Function.update_eq_self b lists
    have hfreeBlocks := freeBlocks_update lists hb L
    rw [hsame] at hfreeBlocks
    refine (List.Perm.append_left _ hfreeBlocks).trans ?_
    rw [liveBlocks_congr (h := s.heap) (by exact hlive), blocks, List.append_assoc]
    exact List.Perm.append_left _ List.perm_append_comm
  have hmem : ∀ {x}, x ∈ s.blocks lists ++ L.map (fun a => (a, b)) →
      x ∈ s.blocks lists ∨ ∃ a ∈ L, x = (a, b) := by
    intro x hx
    rcases List.mem_append.mp hx with hx | hx
    · exact Or.inl hx
    · obtain ⟨a, ha, rfl⟩ := List.mem_map.mp hx
      exact Or.inr ⟨a, ha, rfl⟩
  refine ⟨⟨?chains, ?apart, ?inside, ?magic, ?usable, ?carved⟩, h.pagesz, h.pagebucket, ?outside,
    ?free, ?below, ?brk⟩
  case chains =>
    intro i
    by_cases hi : i = b
    · subst hi
      dsimp only
      rw [Function.update_self, Function.update_self]
      exact hchain
    · dsimp only
      rw [Function.update_of_ne hi, Function.update_of_ne hi]
      exact (h.chains i).congr fun y hy => by rw [hlisted i y hy]
  case apart =>
    refine (hperm.pairwise_iff Apart.symm).mpr (List.pairwise_append.mpr ⟨h.apart, ?_, ?_⟩)
    · exact hL ▸ range'_apart ..
    · intro x hx y hy
      obtain ⟨a, ha, rfl⟩ := List.mem_map.mp hy
      exact Or.inl ((h.below x hx).2.trans (hnew a ha).1)
  case inside =>
    intro x hx
    rcases hmem (hperm.mem_iff.mp hx) with hx | ⟨a, ha, rfl⟩
    · exact h.inside x hx
    · have := hnew a ha
      have := h.brk.2.1
      exact ⟨by dsimp only; omega, by dsimp only; omega⟩
  case magic =>
    intro x hx
    dsimp only
    rw [hlive x hx]
    exact h.magic x hx
  case usable =>
    intro x hx
    dsimp only
    rw [hlive x hx]
    exact h.usable x hx
  case carved => exact hperm.trans (h.carved.append_right _)
  case outside =>
    intro i hi
    rw [Function.update_of_ne (by omega)]
    exact h.outside i hi
  case free =>
    intro i a ha
    by_cases hi : i = b
    · subst hi
      rw [Function.update_self] at ha
      exact hfree a ha
    · rw [Function.update_of_ne hi] at ha
      dsimp only
      rw [hlisted i a ha]
      exact h.free i a ha
  case below =>
    intro x hx
    rcases hmem (hperm.mem_iff.mp hx) with hx | ⟨a, ha, rfl⟩
    · exact ⟨(h.below x hx).1, (h.below x hx).2.trans (Nat.le_add_right _ _)⟩
    · have := hnew a ha
      have := h.brk.1
      exact ⟨by dsimp only; omega, by dsimp only; omega⟩
  case brk =>
    obtain ⟨hpos, hbase, -⟩ := h.brk
    exact ⟨by dsimp only; omega, by dsimp only; omega, hend⟩

end Blocks

/-! ### The calls -/

section Calls
variable {c : HeapConf} {s s' : KHeapRun} {lists : ℕ → List ℕ} {b nbytes ptr : ℕ} {h' : KHeap}

/-- The blocks after the bucket's list was refilled, if it had to be. -/
theorem Kept.more (h : s.Kept c lists) (hb : b < nBuckets)
    (hfits : s.heap.nextf b = 0 → b + 3 < 31 ∧
      s.heap.brk + max s.heap.pagesz (blockSize s.heap.pagesz b) < 2 ^ 64)
    (hmore : (if s.heap.nextf b = 0 then morecore { s.heap with locked := true } b
      else some { s.heap with locked := true }) = some h') :
    ∃ lists', Kept c ⟨h', s.live, s.carved ++ carvedFor s.heap h' b⟩ lists' := by
  have hnone : carvedFor s.heap { s.heap with locked := true } b = [] := by
    unfold carvedFor
    rw [Nat.sub_self, Nat.zero_div]
    rfl
  split at hmore
  · rename_i hempty
    obtain ⟨hsmall, hend⟩ := hfits hempty
    rcases morecore_spec (h := { s.heap with locked := true }) h.pagesz h.brk.1 hsmall hend hmore
      with rfl | ⟨mem, n, rfl, -, hlt, hroom, hframe, hfree, hchain⟩
    · rw [hnone, List.append_nil]
      exact ⟨lists, h.lock true⟩
    · have hcarved : carvedFor s.heap { s.heap with
            locked := true
            brk := s.heap.brk + n * blockSize s.heap.pagesz b
            nextf := Function.update s.heap.nextf b s.heap.brk
            mem := mem } b =
          (List.range' s.heap.brk n (blockSize s.heap.pagesz b)).map fun a => (a, b) := by
        have hpos : 0 < blockSize s.heap.pagesz b :=
          Nat.lt_of_lt_of_le (by decide) (blockSize_pos ..)
        unfold carvedFor
        rw [Nat.add_sub_cancel_left, Nat.mul_div_cancel _ hpos]
      rw [hcarved]
      exact ⟨_, (h.lock true).refill hb hempty hlt hroom hframe hfree hchain⟩
  · obtain rfl := Option.some.inj hmore
    rw [hnone, List.append_nil]
    exact ⟨lists, h.lock true⟩

/-- A request that is served from a bucket. -/
theorem Kept.alloc (h : s.Kept c lists) (hb : b < nBuckets)
    (hsize : sizeofOverhead + nbytes ≤ blockSize s.heap.pagesz b)
    (hfits : s.heap.nextf b = 0 → b + 3 < 31 ∧
      s.heap.brk + max s.heap.pagesz (blockSize s.heap.pagesz b) < 2 ^ 64)
    (halloc : kmallocFrom s.heap b = some (ptr, h')) :
    ∃ lists', Kept c
      { heap := h'
        live := if ptr = 0 then s.live else s.live ++ [⟨wordSub ptr sizeofOverhead, nbytes⟩]
        carved := s.carved ++ carvedFor s.heap h' b } lists' := by
  unfold kmallocFrom at halloc
  split at halloc
  · cases halloc
  obtain ⟨h₁, hmore, halloc⟩ := Option.bind_eq_some_iff.mp halloc
  obtain ⟨lists₁, hkept⟩ := h.more hb hfits hmore
  by_cases hempty : h₁.nextf b = 0
  · rw [if_pos hempty] at halloc
    obtain ⟨rfl, rfl⟩ := Prod.mk.inj (Option.some.inj halloc)
    exact ⟨lists₁, hkept⟩
  rw [if_neg hempty] at halloc
  obtain ⟨next, hnext, heq⟩ := Option.map_eq_some_iff.mp halloc
  obtain ⟨hptr, rfl⟩ := Prod.mk.inj heq
  have hchain := hkept.chains b
  cases hlist : lists₁ b with
  | nil =>
    rw [hlist] at hchain
    exact absurd hchain hempty
  | cons op rest =>
    rw [hlist] at hchain
    have hop : h₁.nextf b = op := hchain.1
    have hblock : (op, b) ∈ blocks ⟨h₁, s.live, s.carved ++ carvedFor s.heap h₁ b⟩ lists₁ :=
      List.mem_append_right _ (mem_freeBlocks hb (hlist ▸ List.mem_cons_self))
    obtain ⟨hpos, hbelow⟩ := hkept.below _ hblock
    have hlt : h₁.brk < 2 ^ 64 := hkept.brk.2.2
    have hmin : sizeofOverhead ≤ blockSize h₁.pagesz b := blockSize_pos ..
    have hadd : wordAdd op sizeofOverhead = op + sizeofOverhead := wordAdd_eq (by
      dsimp only at hbelow
      omega)
    have hsub : wordSub (op + sizeofOverhead) sizeofOverhead = op := by
      rw [wordSub_of_le (Nat.le_add_left _ _) (by dsimp only at hbelow; omega),
        Nat.add_sub_cancel]
    have hpagesz : h₁.pagesz = s.heap.pagesz := hkept.pagesz.trans h.pagesz.symm
    rw [hop] at hptr hnext
    rw [hop, ← hptr, hadd, if_neg (by unfold sizeofOverhead; omega), hsub,
      Nat.mod_eq_of_lt (Nat.lt_trans hb (by decide))]
    exact ⟨_, (hkept.pop hb hlist hnext (by dsimp only; rwa [hpagesz])).lock false⟩

/-- **A step that fits keeps the invariant.** -/
theorem Kept.step (h : s.Kept c lists) {op : KHeapOp} (hfits : s.Fits op)
    (hstep : kheapStep s op = some s') : ∃ lists', s'.Kept c lists' := by
  cases op with
  | alloc nbytes =>
    rw [kheapStep] at hstep
    split at hstep
    on_goal 2 => cases hstep
    obtain ⟨⟨ptr, h'⟩, halloc, rfl⟩ := Option.map_eq_some_iff.mp hstep
    obtain ⟨r, hr, halloc⟩ := Option.bind_eq_some_iff.mp halloc
    cases r with
    | none =>
      obtain ⟨rfl, rfl⟩ := Prod.mk.inj (Option.some.inj halloc)
      dsimp only
      rw [hr, if_pos rfl]
      exact ⟨lists, by simpa using h⟩
    | some b =>
      obtain ⟨hsize, hb⟩ := bucketOf_spec h.pagesz h.pagebucket hr
      have hbuckets : b < nBuckets := Nat.lt_of_lt_of_le (by omega) (show 64 ≤ nBuckets by decide)
      dsimp only
      rw [hr]
      exact h.alloc hbuckets hsize (hfits b hr) halloc
  | free n =>
    obtain ⟨x, hx, hfree⟩ := Option.bind_eq_some_iff.mp hstep
    obtain ⟨h', hkfree, rfl⟩ := Option.map_eq_some_iff.mp hfree
    obtain ⟨hn, rfl⟩ := List.getElem?_eq_some_iff.mp hx
    obtain ⟨b, hb, hmem⟩ := h.magic _ (List.getElem_mem hn)
    have hblock : (s.live[n].op, (s.heap.mem s.live[n].op).index?.getD 0) ∈ s.blocks lists :=
      List.mem_append_left _ (List.mem_map_of_mem (List.getElem_mem hn))
    have hbelow := (h.below _ hblock).2
    have hlt := h.brk.2.2
    have hmin := blockSize_pos s.heap.pagesz ((s.heap.mem s.live[n].op).index?.getD 0)
    have hadd : wordAdd s.live[n].op sizeofOverhead = s.live[n].op + sizeofOverhead :=
      wordAdd_eq (by dsimp only at hbelow; omega)
    have hsub : wordSub (s.live[n].op + sizeofOverhead) sizeofOverhead = s.live[n].op := by
      rw [wordSub_of_le (Nat.le_add_left _ _) (by dsimp only at hbelow; omega),
        Nat.add_sub_cancel]
    dsimp only [kfree] at hkfree
    rw [hadd, hsub, hmem] at hkfree
    obtain ⟨i, hi, hkfree⟩ := Option.bind_eq_some_iff.mp hkfree
    obtain rfl := Option.some.inj hi
    split at hkfree
    · cases hkfree
    · obtain rfl := Option.some.inj hkfree
      exact ⟨_, h.push hn hb hmem⟩

/-- A new heap has no blocks. -/
theorem kept_new {base size : ℕ} {mem : ℕ → Overhead}
    (hbase : base + c.sizeofHeap + 2 ^ c.pageBits ≤ 2 ^ 64) :
    (kheapStart (heapNew c base size mem)).Kept c fun _ => [] := by
  have h₁ := c.three_le
  have h₂ := c.lt_int
  have h₃ := c.sizeofHeap_pos
  have hpage := Nat.two_pow_pos c.pageBits
  have hadd : wordAdd base c.sizeofHeap = base + c.sizeofHeap := wordAdd_eq (by omega)
  obtain ⟨hle, hlt⟩ := pageRoundUp_spec hpage hbase
  have hblocks : (kheapStart (heapNew c base size mem)).blocks (fun _ => []) = [] := by
    simp [blocks, liveBlocks, freeBlocks, kheapStart]
  refine ⟨⟨fun _ => rfl, ?_, ?_, ?_, ?_, ?_⟩, rfl, ?_, fun _ _ => rfl, ?_, ?_, ?_⟩
  · rw [hblocks]
    exact List.Pairwise.nil
  · simp [hblocks]
  · simp [kheapStart]
  · simp [kheapStart]
  · rw [hblocks]
    exact List.Perm.refl _
  · show pageBucketFrom (2 ^ c.pageBits) 64 (2 ^ 3) 0 = c.pageBits - 3
    rw [pageBucketFrom_eq h₁ (by omega) (by omega), Nat.zero_add]
  · simp
  · simp [hblocks]
  · show 0 < pageRoundUp _ (wordAdd base c.sizeofHeap) ∧
      base ≤ pageRoundUp _ (wordAdd base c.sizeofHeap) ∧
      pageRoundUp _ (wordAdd base c.sizeofHeap) < 2 ^ 64
    rw [hadd]
    omega

end Calls

end KHeapRun

/-- **The heap is sound as long as no block of 2³¹ bytes is asked for**: blocks do not overlap and
lie in the heap, a block in use has the bytes that were asked for, and every block is on the list,
or has the index, of the bucket it was carved for. -/
theorem heap_sound (c : HeapConf) (base size : ℕ) (mem : ℕ → Overhead) (ops : List KHeapOp)
    (s : KHeapRun) (hbase : base + c.sizeofHeap + 2 ^ c.pageBits ≤ 2 ^ 64)
    (hfits : Along kheapStep KHeapRun.Fits (kheapStart (heapNew c base size mem)) ops)
    (hrun : run kheapStep (kheapStart (heapNew c base size mem)) ops = some s) : s.Sound := by
  obtain ⟨lists, h⟩ := run_invariant_along (I := fun s => ∃ lists, s.Kept c lists)
    (fun _ _ _ ⟨_, h⟩ hfits hstep => h.step hfits hstep) ops _ s
    ⟨_, KHeapRun.kept_new hbase⟩ hfits hrun
  exact ⟨lists, h.toSoundBy⟩

instance (s : KHeapRun) : DecidablePred s.Fits := fun op =>
  match op with
  | .alloc nbytes => decidable_of_iff (∀ bucket ∈ (s.heap.bucketOf nbytes).join,
      s.heap.nextf bucket = 0 → bucket + 3 < 31 ∧
        s.heap.brk + max s.heap.pagesz (blockSize s.heap.pagesz bucket) < 2 ^ 64) (by
      simp [KHeapRun.Fits, Option.join_eq_some_iff])
  | .free _ => isTrue trivial

/-- Pages of 4096 bytes. -/
def smallHeap : HeapConf := ⟨12, by decide, by decide, 680, by decide⟩

/-- A new heap at 2³². -/
def someHeap (size : ℕ) : KHeapRun := kheapStart (heapNew smallHeap (2 ^ 32) size fun _ => .next 0)

/-- A block that is freed and used again. -/
theorem heap_sound_again : ∃ s : KHeapRun,
    run kheapStep (someHeap (2 ^ 16)) [.alloc 5, .alloc 2000, .free 0, .alloc 1] = some s ∧
      s.live = [⟨2 ^ 32 + 8192, 2000⟩, ⟨2 ^ 32 + 4096, 1⟩] ∧ s.Sound := by
  have hrun : (run kheapStep (someHeap (2 ^ 16)) [.alloc 5, .alloc 2000, .free 0, .alloc 1]).map
      (fun s => s.live) = some [⟨2 ^ 32 + 8192, 2000⟩, ⟨2 ^ 32 + 4096, 1⟩] := by decide +kernel
  obtain ⟨s, hs, hlive⟩ := Option.map_eq_some_iff.mp hrun
  exact ⟨s, hs, hlive, heap_sound smallHeap _ _ _ _ s (by decide) (by decide +kernel) hs⟩

/-- A request of more than 2³⁰ bytes moves the end of the heap backwards, and the next block lies
below the heap. -/
theorem heap_not_sound : ¬ ∀ (c : HeapConf) (base size : ℕ) (mem : ℕ → Overhead)
    (ops : List KHeapOp) (s : KHeapRun), base + c.sizeofHeap + 2 ^ c.pageBits ≤ 2 ^ 64 →
    run kheapStep (kheapStart (heapNew c base size mem)) ops = some s → s.Sound := by
  intro h
  have hrun : (run kheapStep (someHeap (2 ^ 31)) [.alloc (2 ^ 30 + 4089), .alloc 0]).map
      (fun s => (s.live, s.heap.base)) =
        some ([⟨2 ^ 32 + 4096, 2 ^ 30 + 4089⟩, ⟨2 ^ 31 + 8192, 0⟩], 2 ^ 32) := by decide +kernel
  obtain ⟨s, hs, hfacts⟩ := Option.map_eq_some_iff.mp hrun
  obtain ⟨hlive, hbase⟩ := Prod.mk.inj hfacts
  obtain ⟨lists, hsound⟩ := h _ _ _ _ _ s (by decide) hs
  have hmem : (⟨2 ^ 31 + 8192, 0⟩ : LiveBlock) ∈ s.live := by
    rw [hlive]
    decide
  have hinside := (hsound.inside _ (List.mem_append_left _ (List.mem_map_of_mem hmem))).1
  rw [hbase] at hinside
  exact absurd (show 2 ^ 32 ≤ 2 ^ 31 + 8192 from hinside) (by decide)

end Mungi
