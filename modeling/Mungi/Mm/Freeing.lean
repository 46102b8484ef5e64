import Mungi.Mm.Linking

/-!
# Freeing object memory

When `kfree_obj` returns true the free list has the pages of the chunk and is in order again, with
records that are still in use; otherwise it is as it was.  So it is unless the chunk is one that
`FreesRight` leaves out.

## Main definitions

* `Mm.FreedOrKept` — what is to hold when `kfree_obj` returns.

## Main results

* `kfree_obj_iff` — **it holds just for the chunks of `FreesRight`.**
-/

namespace Mungi

open Chain Runs

namespace Mm

/-- What is to hold when `kfree_obj` has returned `r`, of the free list with the records `l`. -/
def FreedOrKept (pageSize : ℕ) (s : Mm) (l : List ℕ) (address size : ℕ) (r : Bool × Mm) : Prop :=
  if r.1 then
    ∃ l', IsChain r.2.next r.2.freelist l' ∧
      Frees pageSize address size (s.chunks l) (r.2.chunks l') ∧ ∀ p ∈ l', InUse r.2.heap p
  else IsChain r.2.next r.2.freelist l ∧ r.2.chunks l = s.chunks l

end Mm

/-- **Freeing object memory.**  The free list may be any in order, and the chunk any that has no
page in common with it.  `kfree_obj` returns, unless it panics for want of memory, and what it
returns is right just for the chunks of `FreesRight`. -/
theorem kfree_obj_iff (c : HeapConf) {s : Mm} {l : List ℕ} (h : s.Lists c l)
    (hlock : s.locked = false) (hheap : s.heap.locked = false) {fuel : ℕ} (hfuel : l.length < fuel)
    (hsorted : SortedChunks c.pageSize (s.chunks l)) (hc : Coalesced (s.chunks l))
    {address size : ℕ} (haddr : c.pageSize ∣ address) (hlt : address < 2 ^ 64)
    (hsize : size < 2 ^ 64) (hend : address + pageCeil c.pageSize size ≤ 2 ^ 64)
    (hdis : ∀ x, address ≤ x → x < address + pageCeil c.pageSize size → ¬ Free (s.chunks l) x) :
    (s.kfreeObj c fuel address size = none → l = [] ∧ ¬ Mm.HasNode s.heap) ∧
      ∀ r, s.kfreeObj c fuel address size = some r →
        (s.FreedOrKept c.pageSize l address size r ↔
          FreesRight c.pageSize (s.chunks l) address size) := by
  obtain ⟨hright, hshort⟩ := kfreeObj_frees_iff c.pageSize_pos c.pageSize_dvd hsorted hc haddr hlt
    hend hdis hsize
  have hspec := Mm.kfreeObj_spec h hlock hheap hfuel address size
  generalize s.kfreeObj c fuel address size = r at hspec
  cases hspec with
  | panic hempty hfull => exact ⟨fun _ => ⟨hempty, hfull⟩, nofun⟩
  | noNode hne hfull hgrows =>
    refine ⟨nofun, ?_⟩
    rintro _ ⟨⟩
    refine iff_of_true ⟨h.chain, rfl⟩ ?_
    by_contra hno
    have hlen : (s.chunks l).length = l.length := List.length_map _
    have hsame := hshort (fun hnil => hne (List.map_eq_nil_iff.mp hnil)) hno
    omega
  | done s' l' hul hh hchain hchunks hnodes =>
    refine ⟨nofun, ?_⟩
    rintro _ ⟨⟩
    rw [← hright]
    constructor
    · rintro ⟨l'', hchain'', hfrees, -⟩
      obtain rfl := hchain.unique hchain''
      rwa [← hchunks]
    · intro hfrees
      rw [← hchunks] at hfrees
      refine ⟨l', hchain, hfrees, fun p hp => ?_⟩
      rcases hnodes with hnodes | hno
      · exact hnodes.inUse hp
      · exact absurd hfrees.sorted hno

/-- The records of a heap in use. -/
theorem Mm.nodesIn_of_run {c : HeapConf} {base size : ℕ} {mem : ℕ → Overhead} {ops : List KHeapOp}
    {r : KHeapRun} (hbase : base + c.sizeofHeap + 2 ^ c.pageBits ≤ 2 ^ 64)
    (hfits : Along kheapStep KHeapRun.Fits (kheapStart (heapNew c base size mem)) ops)
    (hrun : run kheapStep (kheapStart (heapNew c base size mem)) ops = some r) :
    Mm.NodesIn c r.heap (r.live.map fun x => x.op + sizeofOverhead) := by
  obtain ⟨lists, h⟩ := run_invariant_along (I := fun s => ∃ lists, s.Kept c lists)
    (fun _ _ _ ⟨_, h⟩ hfits hstep => h.step hfits hstep) ops _ r
    ⟨_, KHeapRun.kept_new hbase⟩ hfits hrun
  refine ⟨r.live, r.carved, lists, h, fun p hp => ?_⟩
  obtain ⟨x, hx, rfl⟩ := List.mem_map.mp hp
  exact ⟨x, hx, rfl⟩

/-- A heap with two records in it. -/
def twoRecords : KHeapRun :=
  (run kheapStep (someHeap (2 ^ 16)) [.alloc sizeofFreelist, .alloc sizeofFreelist]).getD
    (someHeap (2 ^ 16))

/-- A free list with a page between its two chunks. -/
def twoChunks : Mm where
  heap := twoRecords.heap
  node p := if p = 2 ^ 32 + 4104 then ⟨⟨0x1000, 0x1000⟩, 2 ^ 32 + 4136⟩ else ⟨⟨0x3000, 0x1000⟩, 0⟩
  freelist := 2 ^ 32 + 4104
  locked := false

theorem twoChunks_lists : twoChunks.Lists smallHeap [2 ^ 32 + 4104, 2 ^ 32 + 4136] := by
  have hsome : (run kheapStep (someHeap (2 ^ 16))
      [.alloc sizeofFreelist, .alloc sizeofFreelist]).map
        (fun r => r.live.map fun x => x.op + sizeofOverhead) =
          some [2 ^ 32 + 4104, 2 ^ 32 + 4136] := by
    decide +kernel
  obtain ⟨r, hrun, hlive⟩ := Option.map_eq_some_iff.mp hsome
  have hrecords : twoRecords = r := by
    unfold twoRecords
    rw [hrun, Option.getD_some]
  have hheap : twoChunks.heap = r.heap := by
    dsimp only [twoChunks]
    rw [hrecords]
  have hend : twoChunks.next (2 ^ 32 + 4136) = 0 := by decide +kernel
  refine ⟨⟨rfl, by decide, ⟨by decide +kernel, by decide, hend⟩⟩, ?_, ?_⟩
  · rw [hheap, ← hlive]
    exact Mm.nodesIn_of_run (by decide) (by decide +kernel) hrun
  · unfold Mm.Room
    decide +kernel

theorem twoChunks_chunks : twoChunks.chunks [2 ^ 32 + 4104, 2 ^ 32 + 4136] =
    [⟨0x1000, 0x1000⟩, ⟨0x3000, 0x1000⟩] := by decide +kernel

theorem twoChunks_sorted : SortedChunks smallHeap.pageSize [⟨0x1000, 0x1000⟩, ⟨0x3000, 0x1000⟩] :=
  ⟨by decide, by decide, by decide, by decide⟩

/-- The addresses behind the two chunks. -/
theorem twoChunks_above {x : ℕ} (hx : 0x4000 ≤ x) :
    ¬ Free [⟨0x1000, 0x1000⟩, ⟨0x3000, 0x1000⟩] x := by
  rintro ⟨c, hc, -, hlt⟩
  rw [span_hi] at hlt
  simp only [List.mem_cons, List.not_mem_nil, or_false] at hc
  rcases hc with rfl | rfl <;> dsimp only at hlt <;> omega

/-- A page above both. -/
theorem kfree_obj_above : ∃ r, twoChunks.kfreeObj smallHeap 3 0x5000 0x800 = some r ∧
    twoChunks.FreedOrKept smallHeap.pageSize [2 ^ 32 + 4104, 2 ^ 32 + 4136] 0x5000 0x800 r := by
  have hsome : (twoChunks.kfreeObj smallHeap 3 0x5000 0x800).isSome = true := by decide +kernel
  obtain ⟨r, hr⟩ := Option.isSome_iff_exists.mp hsome
  have hsorted : SortedChunks smallHeap.pageSize
      (twoChunks.chunks [2 ^ 32 + 4104, 2 ^ 32 + 4136]) := by
    rw [twoChunks_chunks]
    exact twoChunks_sorted
  have hright := (kfree_obj_iff smallHeap twoChunks_lists rfl (by decide +kernel) (by decide)
    hsorted (by rw [twoChunks_chunks]; unfold Coalesced; decide) (by decide) (by decide) (by decide)
    (by decide) (fun x hx _ => by rw [twoChunks_chunks]; exact twoChunks_above (by omega))).2 r hr
  refine ⟨r, hr, hright.mpr ?_⟩
  rw [twoChunks_chunks]
  unfold FreesRight
  rw [if_neg (by decide)]
  exact Or.inr ⟨by decide, fun hzero => absurd hzero.1 (by decide), by decide⟩

/-- The page between the two chunks: the record of the second one is freed and stays in the
list. -/
theorem kfree_obj_between : ¬ ∀ (c : HeapConf) (s : Mm) (l : List ℕ) (fuel address size : ℕ)
    (r : Bool × Mm), s.Lists c l → s.locked = false → s.heap.locked = false → l.length < fuel →
    SortedChunks c.pageSize (s.chunks l) → Coalesced (s.chunks l) → c.pageSize ∣ address →
    address < 2 ^ 64 → size < 2 ^ 64 → address + pageCeil c.pageSize size ≤ 2 ^ 64 →
    (∀ x, address ≤ x → x < address + pageCeil c.pageSize size → ¬ Free (s.chunks l) x) →
    s.kfreeObj c fuel address size = some r → s.FreedOrKept c.pageSize l address size r := by
  intro h
  have htrue : (twoChunks.kfreeObj smallHeap 3 0x2000 0x1000).map Prod.fst = some true := by
    decide +kernel
  obtain ⟨⟨_, s'⟩, hr, rfl⟩ := Option.map_eq_some_iff.mp htrue
  have hsorted : SortedChunks smallHeap.pageSize
      (twoChunks.chunks [2 ^ 32 + 4104, 2 ^ 32 + 4136]) := by
    rw [twoChunks_chunks]
    exact twoChunks_sorted
  have hdis : ∀ x, 0x2000 ≤ x → x < 0x2000 + pageCeil smallHeap.pageSize 0x1000 →
      ¬ Free (twoChunks.chunks [2 ^ 32 + 4104, 2 ^ 32 + 4136]) x := by
    intro x hlo hhi
    rw [twoChunks_chunks]
    rintro ⟨c, hc, hle, hlt⟩
    have hceil : pageCeil smallHeap.pageSize 0x1000 = 0x1000 := by decide
    rw [span_lo] at hle
    rw [span_hi] at hlt
    simp only [List.mem_cons, List.not_mem_nil, or_false] at hc
    rcases hc with rfl | rfl <;> dsimp only at hle hlt <;> omega
  obtain ⟨l'', hchain'', hfrees, -⟩ := h smallHeap twoChunks _ 3 0x2000 0x1000 _ twoChunks_lists rfl
    (by decide +kernel) (by decide) hsorted (by rw [twoChunks_chunks]; unfold Coalesced; decide)
    (by decide) (by decide) (by decide) (by decide) hdis hr
  have hspec : Mm.KfreeOutcome smallHeap twoChunks _ 0x2000 0x1000
      (twoChunks.kfreeObj smallHeap 3 0x2000 0x1000) :=
    Mm.kfreeObj_spec twoChunks_lists rfl (by decide +kernel) (by decide) 0x2000 0x1000
  rw [hr] at hspec
  cases hspec with
  | done _ l' _ _ hchain hchunks =>
    obtain rfl := hchain.unique hchain''
    rw [twoChunks_chunks] at hchunks
    have hboth : s'.chunks l' = [⟨0x1000, 0x3000⟩, ⟨0x3000, 0x1000⟩] :=
      hchunks.trans (by decide)
    have horder := hfrees.sorted.order
    rw [hboth] at horder
    exact absurd horder (by decide)

end Mungi
