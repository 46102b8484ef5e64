import Mungi.Mm.Freeing
import Mungi.Mm.Growth

/-!
# The locks of the allocators

The heap and the free list each have a lock, which a call takes and gives back before it returns.
Where the heap has no memory for a block, `_kmalloc` leaves its lock taken, and `kfree_obj` and
`kmalloc_obj_addr`, which need a block for a record, do not get through.

## Main definitions

* `Mm.Returns` — a call returns with both locks free.
* `NeedsChunk`, `Mm.Splits`, `TakesPrev` — when a call needs a record, or follows a null pointer.

## Main results

* `allocator_locks_iff` — **when the calls return with both locks free.**
-/

namespace Mungi

open Chain

/-! ### Which calls need a record -/

/-- `kfree_obj` needs a record: the list is empty, or the chunk joins neither the last one in front
of it, or the first of the list, nor the one behind it. -/
def NeedsChunk (pageSize : ℕ) (l : List FreeChunk) (address size : ℕ) : Prop :=
  l = [] ∨ size ≠ 0 ∧
    (∀ c ∈ (l.takeWhile fun c => c.address < address).getLast?.or l.head?, c.stop ≠ address) ∧
    ∀ c ∈ (l.dropWhile fun c => c.address < address).head?,
      c.address ≠ wordAdd address (pageRoundUp pageSize size)

/-- `kmalloc_obj_addr` is asked for all of the first or the second chunk.  There is no chunk before
the one in front, where it looks for one. -/
def TakesPrev (pageSize : ℕ) (l : List FreeChunk) (address size : ℕ) : Prop :=
  let address := pageRoundDown pageSize address
  let size := pageRoundUp pageSize size
  (l.takeWhile fun c => c.address < address).length < 2 ∧
    ∃ c ∈ (l.dropWhile fun c => c.address < address).head?, c.address = address ∧
      wordAdd address size ≤ c.stop ∧ wordSub c.stop (wordAdd address size) = 0

section Lists
variable {pageSize address size : ℕ} {l : List FreeChunk}

theorem length_linkChunk : (linkChunk address size l).length ≠ l.length ↔
    ∀ c ∈ l.head?, c.address ≠ wordAdd address size := by
  cases l with
  | nil => exact iff_of_true Nat.one_ne_zero nofun
  | cons ptr rest =>
    have hhead : (∀ c ∈ (ptr :: rest).head?, c.address ≠ wordAdd address size) ↔
        ptr.address ≠ wordAdd address size :=
      ⟨fun h => h ptr rfl, fun h c hc => Option.some.inj hc ▸ h⟩
    rw [hhead, linkChunk]
    by_cases hjoin : ptr.address = wordAdd address size
    · rw [if_pos hjoin]
      exact iff_of_false (fun hne => hne rfl) fun hne => hne hjoin
    · rw [if_neg hjoin]
      exact iff_of_true (Nat.succ_ne_self _) hjoin

/-- **The list has one chunk more just when `kfree_obj` needs a record.** -/
theorem length_kfreeObj :
    (kfreeObj pageSize l address size).length ≠ l.length ↔ NeedsChunk pageSize l address size := by
  unfold NeedsChunk
  by_cases hnil : l = []
  · subst hnil
    exact iff_of_true Nat.one_ne_zero (Or.inl rfl)
  rw [or_iff_right hnil]
  by_cases h0 : size = 0
  · obtain ⟨first, rest, rfl⟩ := List.exists_cons_of_ne_nil hnil
    rw [kfreeObj, if_pos h0]
    exact iff_of_false (fun hne => hne rfl) fun h => h.1 h0
  rw [and_iff_right h0]
  obtain ⟨front, back, rfl, hfront, hback⟩ := exists_place l address
  rw [takeWhile_front hfront hback, dropWhile_front hfront hback]
  -- `ptr2`, and what becomes of the list from there on
  obtain ⟨ptr2, hlast, hlist⟩ : ∃ ptr2, front.getLast?.or (front ++ back).head? = some ptr2 ∧
      (if ptr2.stop = address then
        (kfreeObj pageSize (front ++ back) address size).length = (front ++ back).length
      else kfreeObj pageSize (front ++ back) address size =
        front ++ linkChunk address (pageRoundUp pageSize size) back) := by
    rcases List.eq_nil_or_concat' front with rfl | ⟨f, ptr2, rfl⟩
    · obtain ⟨first, rest, rfl⟩ := List.exists_cons_of_ne_nil hnil
      refine ⟨first, rfl, ?_⟩
      rw [List.nil_append, kfreeObj, if_neg h0]
      dsimp only
      rw [if_neg (hback first rfl)]
      by_cases hstop : first.stop = address
      · rw [if_pos hstop, if_pos hstop]
        split_ifs <;> rfl
      · rw [if_neg hstop, if_neg hstop]
        rfl
    · have happ : f ++ [ptr2] ++ back = f ++ ptr2 :: back := by simp
      refine ⟨ptr2, by simp, ?_⟩
      rw [happ, kfreeObj_behind h0 (fun c hc => hfront c (List.mem_append_left _ hc))
        (hfront ptr2 (by simp)) hback, kfreeBehind]
      by_cases hstop : ptr2.stop = address
      · rw [if_pos hstop, if_pos hstop, List.length_append, length_joinChunk]
        simp
      · rw [if_neg hstop, if_neg hstop]
        simp
  have hall : (∀ c ∈ front.getLast?.or (front ++ back).head?, c.stop ≠ address) ↔
      ptr2.stop ≠ address := by
    rw [hlast]
    exact ⟨fun h => h ptr2 rfl, fun h c hc => Option.some.inj hc ▸ h⟩
  rw [hall]
  by_cases hstop : ptr2.stop = address
  · rw [if_pos hstop] at hlist
    exact iff_of_false (fun hne => hne hlist) fun h => h.1 hstop
  · rw [if_neg hstop] at hlist
    rw [hlist, and_iff_right hstop, ← length_linkChunk, List.length_append, List.length_append,
      Ne, Nat.add_left_cancel_iff]

/-- `kmalloc_obj_addr` does not return just where it looks for the chunk before the one in
front. -/
theorem kmallocObjAddr_eq_none :
    kmallocObjAddr pageSize l address size = none ↔ TakesPrev pageSize l address size := by
  unfold kmallocObjAddr TakesPrev
  dsimp only
  obtain ⟨front, back, rfl, hfront, hback⟩ := exists_place l (pageRoundDown pageSize address)
  rw [takeWhile_front hfront hback, dropWhile_front hfront hback]
  cases back with
  | nil =>
    refine iff_of_false ?_ nofun
    cases front.getLast? <;> exact Option.some_ne_none _
  | cons tmp rest =>
    have hhead : ∀ {P : FreeChunk → Prop}, (∃ c ∈ (tmp :: rest).head?, P c) ↔ P tmp := fun {P} =>
      ⟨fun ⟨c, hc, hP⟩ => Option.some.inj hc ▸ hP, fun hP => ⟨tmp, rfl, hP⟩⟩
    rw [hhead, List.head?_cons, List.tail_cons]
    dsimp only
    by_cases hat : tmp.address = pageRoundDown pageSize address
    · rw [if_pos hat, and_iff_right hat, Option.map_eq_none_iff]
      unfold takeStart
      by_cases hfit :
          wordAdd (pageRoundDown pageSize address) (pageRoundUp pageSize size) ≤ tmp.stop
      · rw [if_pos hfit, and_iff_right hfit]
        split_ifs with hall hshort htwo
        · exact iff_of_true rfl ⟨hshort, hall⟩
        · exact iff_of_false nofun fun h => hshort h.1
        · exact iff_of_false nofun fun h => hshort h.1
        · exact iff_of_false nofun fun h => hall h.2
      · rw [if_neg hfit]
        exact iff_of_false nofun fun h => hfit h.2.1
    · rw [if_neg hat]
      refine iff_of_false ?_ fun h => hat h.2.1
      cases front.getLast? <;> exact Option.some_ne_none _

end Lists

/-! ### The locks -/

/-- The request is too large for any block, its bucket has a free block, or `morecore` gets
memory. -/
def KHeap.HasBlock (h : KHeap) (nbytes : ℕ) : Prop :=
  ∀ b, h.bucketOf nbytes = some (some b) → h.nextf b = 0 →
    ∃ amt, h.growth b = some amt ∧ wordAdd h.brk amt ≤ wordAdd h.base h.size

namespace Mm

/-- Both locks are free. -/
def Unlocked (s : Mm) : Prop := s.locked = false ∧ s.heap.locked = false

/-- A call returns with both locks free. -/
def Returns {A : Type} (r : Option (A × Mm)) : Prop := ∃ a s', r = some (a, s') ∧ s'.Unlocked

section Calls
variable {c : HeapConf} {s : Mm} {l : List ℕ} (h : s.Lists c l) (hul : s.Unlocked)
include h hul

theorem kmalloc_unlocked_iff (nbytes : ℕ) :
    (∃ p heap, kmalloc s.heap nbytes = some (p, heap) ∧ heap.locked = false) ↔
      s.heap.HasBlock nbytes := by
  obtain ⟨live, carved, lists, hkept, -⟩ := h.nodes
  have hout := kmalloc_outcome hkept.pagesz hkept.brk.1.ne' hkept.links hul.2 nbytes
  dsimp only at hout
  generalize kmalloc s.heap nbytes = r at hout
  cases hout with
  | huge hb =>
    refine iff_of_true ⟨0, _, rfl, hul.2⟩ fun b hb' _ => ?_
    rw [hb] at hb'
    cases hb'
  | listed b hb hne h' hunlocked =>
    refine iff_of_true ⟨_, h', rfl, hunlocked⟩ fun b' hb' hempty => ?_
    obtain rfl := Option.some.inj (Option.some.inj (hb.symm.trans hb'))
    exact absurd hempty hne
  | shift b hb hempty hwide =>
    refine iff_of_false nofun fun hhas => ?_
    obtain ⟨amt, hamt, -⟩ := hhas b hb hempty
    rw [hwide] at hamt
    cases hamt
  | full b amt hb hempty hamt hlt =>
    refine iff_of_false ?_ fun hhas => ?_
    · rintro ⟨_, _, ⟨⟩, hunlocked⟩
      cases hunlocked
    · obtain ⟨amt', hamt', hle⟩ := hhas b hb hempty
      obtain rfl := Option.some.inj (hamt.symm.trans hamt')
      exact Nat.not_lt.mpr hle hlt
  | grown b amt hb hempty hamt hle h' hunlocked =>
    refine iff_of_true ⟨_, h', rfl, hunlocked⟩ fun b' hb' _ => ?_
    obtain rfl := Option.some.inj (Option.some.inj (hb.symm.trans hb'))
    exact ⟨amt, hamt, hle⟩

variable {fuel : ℕ} (hfuel : l.length < fuel)
include hfuel

theorem kfreeObj_returns_iff (address size : ℕ) : Returns (s.kfreeObj c fuel address size) ↔
    (NeedsChunk c.pageSize (s.chunks l) address size → HasNode s.heap) := by
  have hspec := kfreeObj_spec h hul.1 hul.2 hfuel address size
  have hlen : (s.chunks l).length = l.length := List.length_map _
  rw [← length_kfreeObj, hlen]
  generalize s.kfreeObj c fuel address size = r at hspec
  cases hspec with
  | panic hempty hfull =>
    refine iff_of_false nofun fun hneeds => hfull (hneeds ?_)
    subst hempty
    exact Nat.one_ne_zero
  | noNode hne hfull hgrows =>
    refine iff_of_false ?_ fun hneeds => hfull (hneeds ?_)
    · rintro ⟨_, _, ⟨⟩, hlocked, -⟩
      cases hlocked
    · rw [hgrows]
      exact Nat.succ_ne_self _
  | done s' l' hunlocked hheap hchain hchunks hnodes hnode =>
    refine iff_of_true ⟨true, s', rfl, hunlocked, hheap⟩ fun hneeds => hnode.resolve_right ?_
    rw [← hchunks, chunks, List.length_map] at hneeds
    exact hneeds

theorem kmallocObj_returns (size : ℕ) : Returns (s.kmallocObj c fuel size) := by
  obtain ⟨a, s', l', hcall, hunlocked, hheap, -⟩ := kmallocObj_spec h hul.1 hul.2 hfuel size
  exact ⟨a, s', hcall, hunlocked, hheap⟩

theorem kmallocObjAddr_returns_iff (address size : ℕ) :
    Returns (s.kmallocObjAddr c fuel address size) ↔
      (Splits c.pageSize (s.chunks l) address size → HasNode s.heap) ∧
        ¬ TakesPrev c.pageSize (s.chunks l) address size := by
  rw [← kmallocObjAddr_eq_none]
  rcases kmallocObjAddr_spec h hul.1 hul.2 hfuel address size with
    ⟨hnone, hwhy⟩ | ⟨hnode, a, s', l', hcall, hunlocked, hheap, -, -, hchunks⟩
  · rw [hnone]
    refine iff_of_false nofun fun ⟨hnode, hno⟩ => ?_
    rcases hwhy with hlost | ⟨hsplits, hfull⟩
    · exact hno hlost
    · exact hfull (hnode hsplits)
  · rw [hcall, hchunks]
    exact iff_of_true ⟨a, s', rfl, hunlocked, hheap⟩ ⟨hnode, nofun⟩

end Calls

end Mm

/-- **The locks of the allocators.**  From any state with both locks free: `_kmalloc` returns with
them free just when there is a block, `_kfree` of a block in use and `kmalloc_obj` always,
`kfree_obj` just when there is memory for the record that it needs, if it needs one, and so
`kmalloc_obj_addr`, unless it is asked for all of the first or the second chunk. -/
theorem allocator_locks_iff (c : HeapConf) {s : Mm} {l : List ℕ} (h : s.Lists c l)
    (hul : s.Unlocked) {fuel : ℕ} (hfuel : l.length < fuel) :
    (∀ nbytes, (∃ p heap, kmalloc s.heap nbytes = some (p, heap) ∧ heap.locked = false) ↔
      s.heap.HasBlock nbytes) ∧
    (∀ ptr index, s.heap.mem (wordSub ptr sizeofOverhead) = .ovu magic index →
      ∃ heap, kfree s.heap ptr = some heap ∧ heap.locked = false) ∧
    (∀ address size, Mm.Returns (s.kfreeObj c fuel address size) ↔
      (NeedsChunk c.pageSize (s.chunks l) address size → Mm.HasNode s.heap)) ∧
    (∀ size, Mm.Returns (s.kmallocObj c fuel size)) ∧
    ∀ address size, Mm.Returns (s.kmallocObjAddr c fuel address size) ↔
      (Mm.Splits c.pageSize (s.chunks l) address size → Mm.HasNode s.heap) ∧
        ¬ TakesPrev c.pageSize (s.chunks l) address size := by
  refine ⟨Mm.kmalloc_unlocked_iff h hul, fun ptr index hmem => ?_,
    Mm.kfreeObj_returns_iff h hul hfuel, Mm.kmallocObj_returns h hul hfuel,
    Mm.kmallocObjAddr_returns_iff h hul hfuel⟩
  unfold kfree
  dsimp only
  rw [hmem, Overhead.index?, Option.bind_some, hul.2, if_neg Bool.false_ne_true]
  exact ⟨_, rfl, hul.2⟩

/-- A page above the two chunks, with memory for its record. -/
theorem allocator_locks_above : Mm.Returns (twoChunks.kfreeObj smallHeap 3 0x5000 0x1000) := by
  have hheap : twoChunks.heap.locked = false := by decide +kernel
  refine ((allocator_locks_iff smallHeap twoChunks_lists ⟨rfl, hheap⟩ (by decide : _ < 3)).2.2.1
    0x5000 0x1000).mpr fun _ b hb => Or.inl ?_
  have hbucket : twoChunks.heap.bucketOf sizeofFreelist = some (some 2) := by decide +kernel
  obtain rfl := Option.some.inj (Option.some.inj (hbucket.symm.trans hb))
  decide +kernel

/-- A request that the heap has no memory for: the lock of the heap stays taken. -/
theorem allocator_locks_full : ¬ ∀ (c : HeapConf) (s : Mm) (l : List ℕ) (nbytes p : ℕ)
    (heap : KHeap), s.Lists c l → s.Unlocked → kmalloc s.heap nbytes = some (p, heap) →
    heap.locked = false := by
  intro h
  have hlocked : (kmalloc twoChunks.heap (2 ^ 17)).map (fun r => r.2.locked) = some true := by
    decide +kernel
  obtain ⟨⟨p, heap⟩, hcall, htrue⟩ := Option.map_eq_some_iff.mp hlocked
  have hheap : twoChunks.heap.locked = false := by decide +kernel
  have hfalse := h smallHeap twoChunks _ _ p heap twoChunks_lists ⟨rfl, hheap⟩ hcall
  exact absurd (htrue.symm.trans hfalse) (by decide)

end Mungi
