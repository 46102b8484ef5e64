import Mungi.KernelHeap

/-!
# How the kernel heap grows

`_kmalloc` serves a request from the free blocks of its bucket, or `morecore` gets more memory
from `sbrk`.  Its amount comes from a shift of an `int`, and both sums in `sbrk` may wrap around.

## Main definitions

* `KHeap.growth` — what `morecore` asks for.
* `KmallocOutcome` — the ways a request may go.
* `KHeapRun.Serves`, `KHeapRun.Grows` — what is to hold of a request, and when it does.

## Main results

* `kmalloc_outcome` — **every request goes one of these ways.**
* `kmalloc_serves_iff` — **a request is served right just when `Grows` says so.**
-/

namespace Mungi

open Chain Runs

namespace KHeap

/-- What `morecore` asks `sbrk` for.  None where the shift is by more than the width. -/
def growth (h : KHeap) (bucket : ℕ) : Option ℕ :=
  (intShift (bucket + 3)).map fun sz => if sz < h.pagesz then h.pagesz else wordAdd sz h.pagesz

end KHeap

/-! ### The ways of a request -/

section Ways
variable {h : KHeap} {b nbytes : ℕ}

/-- A shift by less than the width is not 0. -/
theorem intShift_pos {k sz : ℕ} (hsz : intShift k = some sz) : 0 < sz := by
  unfold intShift at hsz
  split_ifs at hsz
  · exact Option.some.inj hsz ▸ Nat.two_pow_pos k
  · exact Option.some.inj hsz ▸ by decide

/-- The power of two is right below `1 << 31`. -/
theorem intShift_eq_iff {k : ℕ} : intShift k = some (2 ^ k) ↔ k < 31 := by
  unfold intShift
  by_cases hk : k < 31
  · rw [if_pos hk]
    exact iff_of_true rfl hk
  · rw [if_neg hk]
    refine iff_of_false (fun heq => ?_) hk
    obtain ⟨rfl, hpow⟩ := Option.ite_none_right_eq_some.mp heq
    exact absurd (Option.some.inj hpow) (by decide)

/-- `morecore` without memory, and with some. -/
theorem morecore_cases (h : KHeap) {amt : ℕ} (hamt : h.growth b = some amt) :
    (wordAdd h.base h.size < wordAdd h.brk amt ∧ morecore h b = some h) ∨
    wordAdd h.brk amt ≤ wordAdd h.base h.size ∧ ∃ mem,
      morecore h b = some { h with
        brk := wordAdd h.brk amt
        nextf := Function.update h.nextf b h.brk
        mem := mem } ∧ ∃ p, mem h.brk = .next p := by
  obtain ⟨sz, hsz, rfl⟩ := Option.map_eq_some_iff.mp hamt
  have hpos := intShift_pos hsz
  unfold morecore KHeap.sbrk
  rw [hsz, Option.map_some, if_neg hpos.ne']
  dsimp only
  by_cases hroom : wordAdd h.base h.size <
      wordAdd h.brk (if sz < h.pagesz then h.pagesz else wordAdd sz h.pagesz)
  · rw [if_pos hroom]
    exact Or.inl ⟨hroom, rfl⟩
  · rw [if_neg hroom]
    generalize (if sz < h.pagesz then h.pagesz else wordAdd sz h.pagesz) = amt at *
    obtain ⟨mem, heq, -, hlink⟩ := KHeap.carve_links
      ({ h with brk := wordAdd h.brk amt }.setNextf b h.brk) sz h.brk
      ((if sz < h.pagesz then amt / 2 ^ (b + 3) else 1) - 1)
    exact Or.inr ⟨Nat.not_lt.mp hroom, mem, congrArg some heq, hlink⟩

/-- The ways a request may go. -/
inductive KmallocOutcome (h : KHeap) (nbytes : ℕ) : Option (ℕ × KHeap) → Prop where
  /-- No block is that large. -/
  | huge (bucketOf : h.bucketOf nbytes = some none) : KmallocOutcome h nbytes (some (0, h))
  /-- The bucket has a free block. -/
  | listed (b : ℕ) (bucketOf : h.bucketOf nbytes = some (some b)) (ne : h.nextf b ≠ 0) (h' : KHeap)
      (unlocked : h'.locked = false) (brk : h'.brk = h.brk) :
      KmallocOutcome h nbytes (some (wordAdd (h.nextf b) sizeofOverhead, h'))
  /-- The size of the block is not defined. -/
  | shift (b : ℕ) (bucketOf : h.bucketOf nbytes = some (some b)) (empty : h.nextf b = 0)
      (wide : h.growth b = none) : KmallocOutcome h nbytes none
  /-- There is no memory, and the lock is not given back. -/
  | full (b amt : ℕ) (bucketOf : h.bucketOf nbytes = some (some b)) (empty : h.nextf b = 0)
      (growth : h.growth b = some amt) (lt : wordAdd h.base h.size < wordAdd h.brk amt) :
      KmallocOutcome h nbytes (some (0, { h with locked := true }))
  /-- The end of the heap moves. -/
  | grown (b amt : ℕ) (bucketOf : h.bucketOf nbytes = some (some b)) (empty : h.nextf b = 0)
      (growth : h.growth b = some amt) (le : wordAdd h.brk amt ≤ wordAdd h.base h.size) (h' : KHeap)
      (unlocked : h'.locked = false) (brk : h'.brk = wordAdd h.brk amt) :
      KmallocOutcome h nbytes (some (wordAdd h.brk sizeofOverhead, h'))

/-- **Every request goes one of these ways.** -/
theorem kmalloc_outcome {c : HeapConf} (hpagesz : h.pagesz = 2 ^ c.pageBits) (hbrk : h.brk ≠ 0)
    (hlinks : ∀ b, h.nextf b ≠ 0 → ∃ p, h.mem (h.nextf b) = .next p) (hlock : h.locked = false)
    (nbytes : ℕ) : KmallocOutcome h nbytes (kmalloc h nbytes) := by
  have hfound : h.bucketOf nbytes ≠ none := bucketOf_total hpagesz
  obtain ⟨r, hr⟩ := Option.ne_none_iff_exists'.mp hfound
  unfold kmalloc
  rw [hr, Option.bind_some]
  cases r with
  | none => exact .huge hr
  | some b =>
    dsimp only
    unfold kmallocFrom
    rw [hlock, if_neg Bool.false_ne_true]
    dsimp only
    by_cases hempty : h.nextf b = 0
    · rw [if_pos hempty]
      cases hamt : h.growth b with
      | none =>
        have hnone : morecore { h with locked := true } b = none := by
          unfold morecore
          rw [Option.map_eq_none_iff.mp hamt, Option.map_none]
        rw [hnone, Option.bind_none]
        exact .shift b hr hempty hamt
      | some amt =>
        rcases morecore_cases (h := { h with locked := true }) hamt with
          ⟨hroom, hmore⟩ | ⟨hroom, mem, hmore, p, hlink⟩
        · rw [hmore, Option.bind_some, if_pos hempty]
          exact .full b amt hr hempty hamt hroom
        · rw [hmore, Option.bind_some]
          dsimp only at hlink
          simp only [Function.update_self, if_neg hbrk, hlink, Overhead.next?, Option.map_some]
          exact .grown b amt hr hempty hamt hroom _ rfl rfl
    · obtain ⟨p, hp⟩ := hlinks b hempty
      rw [if_neg hempty, Option.bind_some, if_neg hempty]
      dsimp only
      rw [hp, Overhead.next?, Option.map_some]
      exact .listed b hr hempty _ rfl rfl

end Ways

/-! ### What a request gets -/

namespace KHeapRun

/-- The bytes from `lo` to `hi` were obtained from `sbrk`: they lie in a block that was carved
before, or in what the heap has grown by. -/
def Obtained (s : KHeapRun) (h' : KHeap) (lo hi : ℕ) : Prop :=
  (∃ x ∈ s.carved, x.1 ≤ lo ∧ hi ≤ x.1 + blockSize s.heap.pagesz x.2) ∨
    s.heap.brk ≤ lo ∧ hi ≤ h'.brk

/-- The request returns `NULL` with the end of the heap where it was, or a block with the bytes
that were asked for.  The end of the heap does not move backwards, or out of the heap, and a new
block has the size of its bucket. -/
def Serves (s : KHeapRun) (nbytes : ℕ) : Prop :=
  ∃ p h', kmalloc s.heap nbytes = some (p, h') ∧ (p = 0 → h'.brk = s.heap.brk) ∧
    (p ≠ 0 → s.Obtained h' p (p + nbytes)) ∧ s.heap.brk ≤ h'.brk ∧
    (h'.brk = s.heap.brk ∨ h'.brk ≤ s.heap.base + s.heap.size) ∧
    ∀ b, s.heap.bucketOf nbytes = some (some b) → b < nBuckets ∧
      (s.heap.nextf b = 0 → intShift (b + 3) = some (2 ^ (b + 3)))

/-- The request finds a free block, or the block is smaller than `2 ^ 31` bytes and the end of the
heap does not wrap around to an address in the heap. -/
def Grows (s : KHeapRun) (nbytes : ℕ) : Prop :=
  ∀ b, s.heap.bucketOf nbytes = some (some b) → s.heap.nextf b = 0 → b + 3 < 31 ∧
    (s.heap.brk + max s.heap.pagesz (blockSize s.heap.pagesz b) < 2 ^ 64 ∨
      wordAdd s.heap.base s.heap.size <
        wordAdd s.heap.brk (max s.heap.pagesz (blockSize s.heap.pagesz b)))

section Requests
variable {c : HeapConf} {s : KHeapRun} {lists : ℕ → List ℕ}

/-- The free blocks hold links. -/
theorem Kept.links (h : s.Kept c lists) (b : ℕ) (hne : s.heap.nextf b ≠ 0) :
    ∃ p, s.heap.mem (s.heap.nextf b) = .next p := by
  have hchain := h.chains b
  cases hlist : lists b with
  | nil =>
    rw [hlist] at hchain
    exact absurd hchain hne
  | cons op rest =>
    rw [hlist] at hchain
    obtain ⟨p, hp⟩ := h.free b op (hlist ▸ List.mem_cons_self)
    exact ⟨p, hchain.1 ▸ hp⟩

/-- The first free block of a bucket was carved for it. -/
theorem Kept.head_carved (h : s.Kept c lists) {b : ℕ} (hb : b < nBuckets)
    (hne : s.heap.nextf b ≠ 0) : (s.heap.nextf b, b) ∈ s.carved ∧
      s.heap.nextf b + blockSize s.heap.pagesz b ≤ s.heap.brk := by
  have hchain := h.chains b
  cases hlist : lists b with
  | nil =>
    rw [hlist] at hchain
    exact absurd hchain hne
  | cons op rest =>
    rw [hlist] at hchain
    have hmem : (s.heap.nextf b, b) ∈ s.blocks lists := by
      rw [hchain.1]
      exact List.mem_append_right _ (mem_freeBlocks hb (hlist ▸ List.mem_cons_self))
    exact ⟨h.carved.mem_iff.mp hmem, (h.below _ hmem).2⟩

/-- A block of less than `2 ^ 31` bytes. -/
theorem Kept.growth_eq (h : s.Kept c lists) {b : ℕ} (hb : b + 3 < 31) :
    s.heap.growth b = some (max s.heap.pagesz (blockSize s.heap.pagesz b)) ∧
      max s.heap.pagesz (blockSize s.heap.pagesz b) < 2 ^ 64 := by
  have hpage : s.heap.pagesz < 2 ^ 31 := by
    rw [h.pagesz]
    exact Nat.pow_lt_pow_right (by decide) c.lt_int
  have hsize : 2 ^ (b + 3) < 2 ^ 31 := Nat.pow_lt_pow_right (by decide) hb
  unfold KHeap.growth blockSize
  rw [intShift_eq_iff.mpr hb, Option.map_some]
  split
  · rename_i hlt
    rw [max_eq_left hlt.le]
    exact ⟨rfl, by omega⟩
  · rw [max_eq_right (Nat.le_add_left _ _), wordAdd_eq (by omega)]
    exact ⟨rfl, by omega⟩

end Requests

end KHeapRun

/-- **A request is served right just when it finds a free block, or `int` and word arithmetic is
enough for the new one.**  The heap may be any that is sound, and the request any size. -/
theorem kmalloc_serves_iff (c : HeapConf) {s : KHeapRun} {lists : ℕ → List ℕ}
    (h : s.Kept c lists) (hlock : s.heap.locked = false) (nbytes : ℕ) :
    s.Serves nbytes ↔ s.Grows nbytes := by
  obtain ⟨hbrk, -, hword⟩ := h.brk
  have hout := kmalloc_outcome h.pagesz hbrk.ne' h.links hlock nbytes
  have hbuckets : ∀ b, s.heap.bucketOf nbytes = some (some b) → b < nBuckets := fun b hb =>
    (Nat.lt_of_add_right_lt (bucketOf_spec h.pagesz h.pagebucket hb).2).trans (by decide)
  unfold KHeapRun.Serves
  constructor
  · rintro ⟨p, h', hcall, -, -, hback, -, hsize⟩ b hb hempty
    have hsmall := intShift_eq_iff.mp ((hsize b hb).2 hempty)
    obtain ⟨hgrowth, hlt⟩ := h.growth_eq hsmall
    refine ⟨hsmall, ?_⟩
    by_contra hno
    rw [not_or, Nat.not_lt, Nat.not_lt] at hno
    -- the end of the heap has wrapped around
    rw [hcall] at hout
    cases hout with
    | huge hnone =>
      rw [hnone] at hb
      cases hb
    | listed b' hb' hne =>
      obtain rfl := Option.some.inj (Option.some.inj (hb.symm.trans hb'))
      exact hne hempty
    | full b' amt hb' _ hamt hfull =>
      obtain rfl := Option.some.inj (Option.some.inj (hb.symm.trans hb'))
      obtain rfl := Option.some.inj (hgrowth.symm.trans hamt)
      exact Nat.not_lt.mpr hno.2 hfull
    | grown b' amt hb' _ hamt _ _ _ hmoved =>
      obtain rfl := Option.some.inj (Option.some.inj (hb.symm.trans hb'))
      obtain rfl := Option.some.inj (hgrowth.symm.trans hamt)
      rw [hmoved, wordAdd] at hback
      omega
  · intro hgrows
    have hsize : ∀ b, s.heap.bucketOf nbytes = some (some b) → b < nBuckets ∧
        (s.heap.nextf b = 0 → intShift (b + 3) = some (2 ^ (b + 3))) := fun b hb =>
      ⟨hbuckets b hb, fun hempty => intShift_eq_iff.mpr (hgrows b hb hempty).1⟩
    generalize kmalloc s.heap nbytes = r at hout ⊢
    cases hout with
    | huge => exact ⟨0, _, rfl, fun _ => rfl, fun hne => absurd rfl hne, le_rfl, Or.inl rfl, hsize⟩
    | listed b hb hne h' _ hsame =>
      obtain ⟨hcarved, hbelow⟩ := h.head_carved (hbuckets b hb) hne
      obtain ⟨hfit, -⟩ := bucketOf_spec h.pagesz h.pagebucket hb
      have hmin := blockSize_pos s.heap.pagesz b
      have hadd : wordAdd (s.heap.nextf b) sizeofOverhead = s.heap.nextf b + sizeofOverhead :=
        wordAdd_eq (by omega)
      refine ⟨_, h', rfl, fun _ => hsame, fun _ => Or.inl ⟨_, hcarved, ?_⟩, hsame.ge, Or.inl hsame,
        hsize⟩
      rw [hadd]
      dsimp only
      omega
    | shift b hb hempty hwide =>
      rw [(h.growth_eq (hgrows b hb hempty).1).1] at hwide
      cases hwide
    | full b amt hb hempty hamt =>
      exact ⟨0, _, rfl, fun _ => rfl, fun hne => absurd rfl hne, le_rfl, Or.inl rfl, hsize⟩
    | grown b amt hb hempty hamt hroom h' _ hmoved =>
      obtain ⟨hsmall, hends⟩ := hgrows b hb hempty
      obtain rfl := Option.some.inj ((h.growth_eq hsmall).1.symm.trans hamt)
      have hend := hends.resolve_right (Nat.not_lt.mpr hroom)
      obtain ⟨hfit, -⟩ := bucketOf_spec h.pagesz h.pagebucket hb
      have hmax := le_max_right s.heap.pagesz (blockSize s.heap.pagesz b)
      have hmin := blockSize_pos s.heap.pagesz b
      have hadd : wordAdd s.heap.brk sizeofOverhead = s.heap.brk + sizeofOverhead :=
        wordAdd_eq (by omega)
      have hmod : wordAdd s.heap.base s.heap.size ≤ s.heap.base + s.heap.size := Nat.mod_le ..
      rw [wordAdd_eq hend] at hmoved hroom
      rw [hadd]
      refine ⟨_, h', rfl, fun hzero => ?_, fun _ => Or.inr ⟨?_, ?_⟩, ?_, Or.inr ?_, hsize⟩ <;> omega

/-- A new heap of 2¹⁶ bytes. -/
theorem kmalloc_serves_small : (someHeap (2 ^ 16)).Serves 24 := by
  refine (kmalloc_serves_iff smallHeap (KHeapRun.kept_new (by decide)) rfl 24).mpr ?_
  intro b hb _
  have hbucket : (someHeap (2 ^ 16)).heap.bucketOf 24 = some (some 2) := by decide +kernel
  obtain rfl := Option.some.inj (Option.some.inj (hbucket.symm.trans hb))
  exact ⟨by decide, Or.inl (by decide +kernel)⟩

/-- A request of more than 2³⁰ bytes moves the end of the heap backwards. -/
theorem kmalloc_backwards : ¬ ∀ (c : HeapConf) (s : KHeapRun) (lists : ℕ → List ℕ) (nbytes : ℕ),
    s.Kept c lists → s.heap.locked = false → s.Serves nbytes := by
  intro h
  obtain ⟨p, h', hcall, -, -, hback, -⟩ := h smallHeap (someHeap (2 ^ 31)) _ (2 ^ 30 + 4089)
    (KHeapRun.kept_new (by decide)) rfl
  have hmoved : (kmalloc (someHeap (2 ^ 31)).heap (2 ^ 30 + 4089)).map (fun r => r.2.brk) =
      some (2 ^ 31 + 8192) := by decide +kernel
  rw [hcall] at hmoved
  have hbrk : h'.brk = 2 ^ 31 + 8192 := Option.some.inj hmoved
  rw [hbrk] at hback
  exact absurd hback (by decide +kernel)

end Mungi
