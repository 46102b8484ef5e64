import Mungi.FreeList
import Mungi.KernelHeap

/-!
# The free list in memory

The chunks of the free list are records of the kernel heap that are linked to each other, and a
lock is held while they are (`mm.c`).  Here are the functions as they go through the records;
`FreeList` has what becomes of the chunks.

A lock that is taken already, a null pointer that is followed and a panic give no result.

## Main definitions

* `Mm` — the variables of `mm.c`.
* `Mm.kfreeObj`, `Mm.kmallocObj`, `Mm.kmallocObjAddr` — the functions.
* `Mm.Lists` — the records of the free list, and the heap they are in.

## Main results

* `Mm.newNode_spec`, `Mm.kfreeNode_spec` — what the heap does for the free list.
-/

namespace Mungi

open Chain

/-- `PAGESIZE` -/
def HeapConf.pageSize (c : HeapConf) : ℕ := 2 ^ c.pageBits

theorem HeapConf.pageSize_pos (c : HeapConf) : 0 < c.pageSize := Nat.two_pow_pos _

theorem HeapConf.pageSize_dvd (c : HeapConf) : c.pageSize ∣ 2 ^ 64 :=
  Nat.pow_dvd_pow 2 (Nat.le_of_lt (Nat.lt_trans c.lt_int (by decide)))

/-- `freelist_t` in memory. -/
structure FreeNode where
  chunk : FreeChunk
  next : ℕ
  deriving DecidableEq

/-- `sizeof(freelist_t)` -/
def sizeofFreelist : ℕ := 24

/-- The variables of `mm.c`. -/
structure Mm where
  /-- `THE_HEAP` -/
  heap : KHeap
  /-- The memory, where it is a `freelist_t`. -/
  node : ℕ → FreeNode
  /-- `_FREELIST` -/
  freelist : ℕ
  /-- `freelist_lock` -/
  locked : Bool

namespace Mm

/-! ### The code -/

/-- `_lock_lock(&freelist_lock)`; it does not return when the lock is taken. -/
def lock (s : Mm) : Option Mm := if s.locked then none else some { s with locked := true }

/-- `_lock_unlock(&freelist_lock)` -/
def unlock (s : Mm) : Mm := { s with locked := false }

/-- `*p = n` -/
def put (s : Mm) (p : ℕ) (n : FreeNode) : Mm := { s with node := Function.update s.node p n }

/-- The address and the size of `*p` change. -/
def setChunk (s : Mm) (p : ℕ) (chunk : FreeChunk) : Mm := s.put p { s.node p with chunk }

/-- `p->next = next` -/
def setNext (s : Mm) (p next : ℕ) : Mm := s.put p { s.node p with next }

/-- `_kmalloc(THE_HEAP, sizeof(freelist_t))` -/
def newNode (s : Mm) : Option (ℕ × Mm) :=
  (kmalloc s.heap sizeofFreelist).map fun r => (r.1, { s with heap := r.2 })

/-- `kfree(p)` -/
def kfreeNode (s : Mm) (p : ℕ) : Option Mm := (kfree s.heap p).map fun heap => { s with heap }

/-- `FreeInit`; without memory it panics. -/
def freeInit (s : Mm) (address size : ℕ) : Option Mm :=
  s.newNode.bind fun (p, s) =>
    if p = 0 then none else some { s.put p ⟨⟨address, size⟩, 0⟩ with freelist := p }

/-- `kfree_obj` once the place of the chunk is found, behind `ptr2` and before `ptr`. -/
def kfreeBetween (s : Mm) (ptr2 ptr address size : ℕ) : Option (Bool × Mm) :=
  let coalesced : Bool := (s.node ptr2).chunk.stop = address
  let s := if coalesced then
      s.setChunk ptr2 { (s.node ptr2).chunk with size := wordAdd (s.node ptr2).chunk.size size }
    else s
  if ptr ≠ 0 ∧ (s.node ptr).chunk.address = wordAdd address size then
    if coalesced then
      ((s.setChunk ptr2 { (s.node ptr2).chunk with
          size := wordAdd (s.node ptr2).chunk.size (s.node ptr).chunk.size }).kfreeNode ptr).map
        fun s => (true, s.unlock)
    else some (true, (s.setChunk ptr ⟨address, wordAdd (s.node ptr).chunk.size size⟩).unlock)
  else if coalesced then some (true, s.unlock)
  else
    s.newNode.map fun (entry, s) =>
      -- no memory: the lock stays taken
      if entry = 0 then (false, s)
      else
        let s' := s.put entry ⟨⟨address, size⟩, ptr⟩
        if ptr = s.freelist then (true, { s' with freelist := entry }.unlock)
        else (true, (s'.setNext ptr2 entry).unlock)

/-- `kfree_obj` -/
def kfreeObj (c : HeapConf) (fuel : ℕ) (s : Mm) (address size : ℕ) : Option (Bool × Mm) :=
  s.lock.bind fun s =>
    if s.freelist = 0 then (s.freeInit address size).map fun s => (true, s.unlock)
    else if size = 0 then some (true, s.unlock)
    else
      (chase (fun p => (s.node p).next) (fun p => ¬ (s.node p).chunk.address < address) fuel
        s.freelist s.freelist s.freelist).bind fun (_, ptr2, ptr) =>
          s.kfreeBetween ptr2 ptr address (pageRoundUp c.pageSize size)

/-- `kmalloc_obj_addr` once the chunk is found. -/
def takePages (s : Mm) (prev ptr address size : ℕ) : Option (ℕ × Mm) :=
  let chunk := (s.node ptr).chunk
  if wordAdd address size ≤ chunk.stop then
    let leftover := wordSub chunk.stop (wordAdd address size)
    if chunk.address = address then
      if leftover = 0 then
        (if prev ≠ s.freelist then
          if prev = 0 then none else some (s.setNext prev (s.node ptr).next)
        else some { s with freelist := 0 }).bind fun s =>
          (s.kfreeNode ptr).map fun s => (address, s.unlock)
      else
        some (address, (s.setChunk ptr ⟨wordAdd address size, wordSub chunk.size size⟩).unlock)
    else
      let s := s.setChunk ptr ⟨chunk.address, wordSub address chunk.address⟩
      if leftover ≠ 0 then
        s.newNode.bind fun (tmp, s) =>
          if tmp = 0 then none
          else
            some (address, ((s.put tmp ⟨⟨wordAdd address size, leftover⟩,
              (s.node ptr).next⟩).setNext ptr tmp).unlock)
      else some (address, s.unlock)
  else some (address, s.unlock)

/-- `kmalloc_obj_addr` -/
def kmallocObjAddr (c : HeapConf) (fuel : ℕ) (s : Mm) (address size : ℕ) : Option (ℕ × Mm) :=
  s.lock.bind fun s =>
    let address := pageRoundDown c.pageSize address
    (chase (fun p => (s.node p).next) (fun p => ¬ (s.node p).chunk.address < address) fuel
      0 0 s.freelist).bind fun (prev, ptr, tmp) =>
        if tmp ≠ 0 ∧ (s.node tmp).chunk.address = address then
          s.takePages prev tmp address (pageRoundUp c.pageSize size)
        else if ptr = 0 ∨ address < (s.node ptr).chunk.address then some (0, s.unlock)
        else s.takePages prev ptr address (pageRoundUp c.pageSize size)

/-- `kmalloc_obj` -/
def kmallocObj (c : HeapConf) (fuel : ℕ) (s : Mm) (size : ℕ) : Option (ℕ × Mm) :=
  s.lock.bind fun s =>
    if s.freelist = 0 then some (0, s.unlock)
    else if size = 0 then some (0, s.unlock)
    else
      let size := pageRoundUp c.pageSize size
      (chase (fun p => (s.node p).next) (fun p => size ≤ (s.node p).chunk.size) fuel
        s.freelist s.freelist s.freelist).bind fun (_, ptr2, fit) =>
          if fit = 0 then some (0, s.unlock)
          else
            let chunk := (s.node fit).chunk
            if chunk.size ≠ size then
              some (chunk.address,
                (s.setChunk fit ⟨wordAdd chunk.address size, wordSub chunk.size size⟩).unlock)
            else
              ((if fit = s.freelist then { s with freelist := (s.node fit).next }
                else s.setNext ptr2 (s.node fit).next).kfreeNode fit).map
                  fun s => (chunk.address, s.unlock)

/-! ### Records in the heap -/

/-- The records `l` are blocks of the heap in use. -/
def NodesIn (c : HeapConf) (h : KHeap) (l : List ℕ) : Prop :=
  ∃ live carved lists, KHeapRun.Kept c ⟨h, live, carved⟩ lists ∧
    ∀ p ∈ l, ∃ x ∈ live, p = x.op + sizeofOverhead

/-- The block at `p` is in use: what is in front of it was not made a link by `kfree`. -/
def InUse (h : KHeap) (p : ℕ) : Prop := ∃ bucket, h.mem (p - sizeofOverhead) = .ovu magic bucket

/-- There is memory for a record: a free block of its bucket, or room for more of them. -/
def HasNode (h : KHeap) : Prop :=
  ∀ bucket, h.bucketOf sizeofFreelist = some (some bucket) → h.nextf bucket ≠ 0 ∨
    h.brk + max h.pagesz (blockSize h.pagesz bucket) ≤ wordAdd h.base h.size

theorem NodesIn.inUse {c : HeapConf} {h : KHeap} {l : List ℕ} (hl : NodesIn c h l) {p : ℕ}
    (hp : p ∈ l) : InUse h p := by
  obtain ⟨live, carved, lists, hkept, hlive⟩ := hl
  obtain ⟨x, hx, rfl⟩ := hlive p hp
  obtain ⟨bucket, -, hmem⟩ := hkept.magic x hx
  exact ⟨bucket, by rwa [Nat.add_sub_cancel]⟩

theorem NodesIn.mono {c : HeapConf} {h : KHeap} {l l' : List ℕ} (hl : NodesIn c h l)
    (hsub : ∀ p ∈ l', p ∈ l) : NodesIn c h l' := by
  obtain ⟨live, carved, lists, hkept, hlive⟩ := hl
  exact ⟨live, carved, lists, hkept, fun p hp => hlive p (hsub p hp)⟩

theorem NodesIn.insert {c : HeapConf} {h : KHeap} {f l : List ℕ} {p q : ℕ}
    (hl : NodesIn c h (q :: (f ++ p :: l))) : NodesIn c h (f ++ p :: q :: l) := by
  have hperm : (f ++ p :: q :: l).Perm (q :: (f ++ p :: l)) := by
    rw [← List.singleton_append, ← List.append_assoc, List.append_cons f p l]
    exact List.perm_middle
  exact hl.mono fun _ hx => hperm.mem_iff.mp hx

/-- A record is served from a bucket of small blocks. -/
theorem bucketOf_node {c : HeapConf} {h : KHeap} (hpagesz : h.pagesz = 2 ^ c.pageBits)
    (hbucket : h.pagebucket = c.pageBits - 3) :
    ∃ b, h.bucketOf sizeofFreelist = some (some b) ∧ b ≤ 2 ∧
      max h.pagesz (blockSize h.pagesz b) ≤ h.pagesz + 32 := by
  have h₁ := c.three_le
  have h₂ := c.lt_int
  have hsmall : ∀ b ≤ 2, max h.pagesz (blockSize h.pagesz b) ≤ h.pagesz + 32 := by
    intro b hb
    have hpow : 2 ^ (b + 3) ≤ 2 ^ 5 := Nat.pow_le_pow_right (by decide) (by omega)
    unfold blockSize
    split <;> omega
  suffices hex : ∃ b, h.bucketOf sizeofFreelist = some (some b) ∧ b ≤ 2 by
    obtain ⟨b, hb, hle⟩ := hex
    exact ⟨b, hb, hle, hsmall b hle⟩
  unfold KHeap.bucketOf
  rw [hpagesz, hbucket]
  generalize c.pageBits = k at h₁ h₂
  rcases (show k = 3 ∨ k = 4 ∨ 5 ≤ k by omega) with rfl | rfl | hk
  · exact ⟨2, by decide, le_rfl⟩
  · exact ⟨1, by decide, by decide⟩
  · have hpow : 2 ^ 5 ≤ 2 ^ k := Nat.pow_le_pow_right (by decide) hk
    have hlt : 2 ^ k < 2 ^ 64 := Nat.pow_lt_pow_right (by decide) (by omega)
    have hle : sizeofFreelist ≤ wordSub (2 ^ k) sizeofOverhead := by
      rw [wordSub_of_le (by unfold sizeofOverhead; omega) hlt]
      unfold sizeofFreelist sizeofOverhead
      omega
    dsimp only
    rw [if_pos hle]
    exact ⟨2, by decide, le_rfl⟩

section Node
variable {c : HeapConf} {h h' : KHeap} {l : List ℕ}

/-- What is left of the heap above its end, for one more record. -/
def Room (h : KHeap) : Prop := h.brk + h.pagesz + 32 < 2 ^ 64

/-- Without room for more, `morecore` does nothing; otherwise the bucket gets a block. -/
theorem morecore_nextf {b : ℕ} (hb : b + 3 < 31) (hbrk : 0 < h.brk)
    (hend : h.brk + max h.pagesz (blockSize h.pagesz b) < 2 ^ 64)
    (hcore : morecore h b = some h') :
    (wordAdd h.base h.size < h.brk + max h.pagesz (blockSize h.pagesz b) → h' = h) ∧
    (h.brk + max h.pagesz (blockSize h.pagesz b) ≤ wordAdd h.base h.size →
      h'.nextf b ≠ 0) := by
  obtain rfl := Option.some.inj ((morecore_eq hb hend).symm.trans hcore)
  constructor
  · intro hroom
    rw [if_pos hroom]
  · intro hroom
    rw [if_neg (Nat.not_lt.mpr hroom)]
    obtain ⟨mem, heq, -⟩ := KHeap.carve_links
      ({ h with brk := h.brk + max h.pagesz (blockSize h.pagesz b) }.setNextf b h.brk)
      (2 ^ (b + 3)) h.brk _
    rw [heq]
    show Function.update h.nextf b h.brk b ≠ 0
    rw [Function.update_self]
    exact hbrk.ne'

/-- `_kmalloc` for a record: without memory it keeps the lock, otherwise the block is a new
one. -/
theorem kmallocNode_spec (hl : NodesIn c h l) (hroom : Room h) (hlock : h.locked = false) :
    ∃ p h', kmalloc h sizeofFreelist = some (p, h') ∧ (p ≠ 0 ↔ HasNode h) ∧
      (p = 0 → h' = { h with locked := true }) ∧
      (p ≠ 0 → p ∉ l ∧ h'.locked = false ∧ NodesIn c h' (p :: l)) := by
  obtain ⟨live, carved, lists, hkept, hlive⟩ := hl
  have hpagesz : h.pagesz = 2 ^ c.pageBits := hkept.pagesz
  have hpagebucket : h.pagebucket = c.pageBits - 3 := hkept.pagebucket
  obtain ⟨b, hbucket, hb, hmax⟩ := bucketOf_node hpagesz hpagebucket
  have hbuckets : b < nBuckets := by unfold nBuckets; omega
  have hend : h.brk + max h.pagesz (blockSize h.pagesz b) < 2 ^ 64 := by
    unfold Room at hroom
    omega
  have hfits : h.nextf b = 0 → b + 3 < 31 ∧
      h.brk + max h.pagesz (blockSize h.pagesz b) < 2 ^ 64 := fun _ => ⟨by omega, hend⟩
  have hhas : HasNode h ↔ h.nextf b ≠ 0 ∨
      h.brk + max h.pagesz (blockSize h.pagesz b) ≤ wordAdd h.base h.size := by
    refine ⟨fun hn => hn b hbucket, fun hn b' hb' => ?_⟩
    obtain rfl := Option.some.inj (Option.some.inj (hbucket.symm.trans hb'))
    exact hn
  have hsize := (bucketOf_spec hpagesz hpagebucket hbucket).1
  have hcall : kmalloc h sizeofFreelist = kmallocFrom h b := by
    unfold kmalloc
    rw [hbucket]
    rfl
  obtain ⟨h₁, hmore⟩ : ∃ h₁, (if h.nextf b = 0 then morecore { h with locked := true } b
      else some { h with locked := true }) = some h₁ := by
    split
    · exact ⟨_, morecore_eq (by omega) hend⟩
    · exact ⟨_, rfl⟩
  obtain ⟨lists₁, hkept₁⟩ := hkept.more hbuckets hfits hmore
  have hfrom : kmallocFrom h b = if h₁.nextf b = 0 then some (0, h₁)
      else (h₁.mem (h₁.nextf b)).next?.map fun next =>
        (wordAdd (h₁.nextf b) sizeofOverhead,
          { (h₁.setNextf b next).write (h₁.nextf b) (.ovu magic (b % 2 ^ 8)) with
            locked := false }) := by
    rw [kmallocFrom, hlock, if_neg Bool.false_ne_true]
    dsimp only
    rw [hmore, Option.bind_some]
  rw [hcall]
  by_cases hempty : h₁.nextf b = 0
  · rw [if_pos hempty] at hfrom
    have hnone : h₁ = { h with locked := true } ∧ ¬ HasNode h := by
      rw [hhas]
      by_cases hnext : h.nextf b = 0
      · rw [if_pos hnext] at hmore
        obtain ⟨hno, hyes⟩ := morecore_nextf (h := { h with locked := true }) (by omega)
          hkept.brk.1 hend hmore
        refine ⟨hno (Nat.lt_of_not_le fun hle => hyes hle hempty), ?_⟩
        rintro (hne | hle)
        · exact hne hnext
        · exact hyes hle hempty
      · rw [if_neg hnext] at hmore
        obtain rfl := Option.some.inj hmore
        exact absurd hempty hnext
    exact ⟨0, h₁, hfrom, iff_of_false (fun hn => hn rfl) hnone.2, fun _ => hnone.1,
      fun hn => absurd rfl hn⟩
  · rw [if_neg hempty] at hfrom
    have hchain := hkept₁.chains b
    cases hlist : lists₁ b with
    | nil =>
      rw [hlist] at hchain
      exact absurd hchain hempty
    | cons op rest =>
      rw [hlist] at hchain
      have hop : h₁.nextf b = op := hchain.1
      have hin : op ∈ lists₁ b := hlist ▸ List.mem_cons_self
      obtain ⟨next, hnext⟩ := hkept₁.free b op hin
      have hbelow := (hkept₁.below _ (List.mem_append_right _
        (KHeapRun.mem_freeBlocks hbuckets hin))).2
      have hmin := blockSize_pos h₁.pagesz b
      have hbrk : h₁.brk < 2 ^ 64 := hkept₁.brk.2.2
      dsimp only at hbelow hnext
      have hadd : wordAdd op sizeofOverhead = op + sizeofOverhead := wordAdd_eq (by omega)
      rw [hop, hnext, hadd] at hfrom
      refine ⟨op + sizeofOverhead, _, hfrom, iff_of_true (by unfold sizeofOverhead; omega) ?_,
        fun h0 => absurd h0 (by unfold sizeofOverhead; omega), fun hne => ⟨?_, rfl, ?_⟩⟩
      · rw [hhas]
        by_contra hno
        rw [not_or, not_not, Nat.not_le] at hno
        rw [if_pos hno.1] at hmore
        rw [(morecore_nextf (h := { h with locked := true }) (by omega) hkept.brk.1 hend
          hmore).1 hno.2] at hempty
        exact hempty hno.1
      · intro hp
        obtain ⟨x, hx, heq⟩ := hlive _ hp
        exact hkept₁.not_live hbuckets hin x hx (Nat.add_right_cancel heq).symm
      · obtain ⟨lists₂, hkept₂⟩ := hkept.alloc hbuckets hsize hfits hfrom
        rw [if_neg hne, wordSub_of_le (Nat.le_add_left _ _) (by omega),
          Nat.add_sub_cancel] at hkept₂
        refine ⟨_, _, lists₂, hkept₂, List.forall_mem_cons.mpr ⟨?_, fun p hp => ?_⟩⟩
        · exact ⟨⟨op, sizeofFreelist⟩, by simp, rfl⟩
        · obtain ⟨x, hx, heq⟩ := hlive p hp
          exact ⟨x, List.mem_append_left _ hx, heq⟩

/-- `kfree` of a record. -/
theorem kfreeNode_spec (hl : NodesIn c h l) (hlock : h.locked = false) {p : ℕ} (hp : p ∈ l) :
    ∃ h', kfree h p = some h' ∧ h'.locked = false ∧
      ∀ l', (∀ q ∈ l', q ∈ l ∧ q ≠ p) → NodesIn c h' l' := by
  obtain ⟨live, carved, lists, hkept, hlive⟩ := hl
  obtain ⟨x, hx, rfl⟩ := hlive p hp
  obtain ⟨n, hn, rfl⟩ := List.getElem_of_mem hx
  obtain ⟨b, hb, hmem⟩ := hkept.magic _ hx
  have hbelow := (hkept.below _ (List.mem_append_left _ (List.mem_map_of_mem hx))).2
  have hmin := blockSize_pos h.pagesz ((h.mem live[n].op).index?.getD 0)
  have hbrk : h.brk < 2 ^ 64 := hkept.brk.2.2
  dsimp only at hbelow hmem
  have hadd : wordAdd live[n].op sizeofOverhead = live[n].op + sizeofOverhead :=
    wordAdd_eq (by omega)
  have hkfree : kfree h (live[n].op + sizeofOverhead) =
      some ((h.write live[n].op (.next (h.nextf b))).setNextf b live[n].op) := by
    unfold kfree
    dsimp only
    rw [wordSub_of_le (Nat.le_add_left _ _) (by omega), Nat.add_sub_cancel, hmem]
    dsimp only [Overhead.index?]
    rw [Option.bind_some, hlock, if_neg Bool.false_ne_true]
  have hstep : kheapStep ⟨h, live, carved⟩ (.free n) =
      some ⟨(h.write live[n].op (.next (h.nextf b))).setNextf b live[n].op, live.eraseIdx n,
        carved⟩ := by
    rw [kheapStep, List.getElem?_eq_getElem hn, Option.bind_some, hadd, hkfree]
    rfl
  have hfits : KHeapRun.Fits ⟨h, live, carved⟩ (.free n) := trivial
  obtain ⟨lists', hkept'⟩ := hkept.step hfits hstep
  refine ⟨_, hkfree, hlock, fun l' hl' => ⟨_, _, lists', hkept', fun q hq => ?_⟩⟩
  obtain ⟨hql, hne⟩ := hl' q hq
  obtain ⟨y, hy, rfl⟩ := hlive q hql
  refine ⟨y, ?_, rfl⟩
  rcases List.mem_cons.mp ((List.getElem_cons_eraseIdx_perm hn).mem_iff.mpr hy) with rfl | hy
  · exact absurd rfl hne
  · exact hy

end Node

end Mm

end Mungi
