import Mungi.Lib.Buckets
import Mungi.Threads.Seating

/-!
# The table of threads

The threads in use are in a hash table, each under its thread id.  Reaping takes a thread out of
the table.  The functions on APDs leave the table alone, and so do those on queues and states.

## Main definitions

* `Mem.Aside` — what the functions on APDs leave alone.
* `Mem.buckets`, `Mem.Tabled` — the table, and that it has the threads in use.
* `Mem.SameKin` — the memories agree on all that the table and the ancestor test read.
* `Mem.Idle`, `Mem.Reaped` — what a call that creates no thread does.

## Main results

* `Mem.buckets_threadHashInsert`, `Mem.buckets_threadHashRemove` — **the code works as the
  operations of hash tables.**
* `Mem.threadDelete_table`, `Mem.threadWait_table`, `Mem.threadDie_table`,
  `Mem.sysThreadReturn_table` — **the calls that end threads.**
-/

namespace Mungi

open Chain Runs Mem

variable {O : Type} {c : ThreadConf} {k k' k'' : Mem} {fuel a m p t : ℕ}

/-! ### What APDs have nothing to do with -/

/-- The memories agree on threads and their queues. -/
structure Mem.Aside (k k' : Mem) : Prop where
  thread : k'.mthread.cell = k.mthread.cell
  mungiThreads : k'.mungiThreads = k.mungiThreads
  waitq : k'.waitq = k.waitq
  nextTid : k'.nextTid = k.nextTid
  handedOut : handedOut k'.log = handedOut k.log

namespace Mem

theorem Aside.refl (k : Mem) : Aside k k := ⟨rfl, rfl, rfl, rfl, rfl⟩

theorem Aside.trans (h : Aside k k') (h' : Aside k' k'') : Aside k k'' where
  thread := h'.thread.trans h.thread
  mungiThreads := h'.mungiThreads.trans h.mungiThreads
  waitq := h'.waitq.trans h.waitq
  nextTid := h'.nextTid.trans h.nextTid
  handedOut := h'.handedOut.trans h.handedOut

theorem apdFree_aside (h : k.apdFree c fuel a = some k') : Aside k k' := by
  obtain ⟨pool, -, h⟩ := Option.bind_eq_some_iff.mp h
  obtain ⟨tasks, -, rfl⟩ := Option.map_eq_some_iff.mp h
  obtain ⟨thread, entry, heq, -⟩ := foldl_freePooled pool k
  obtain ⟨live, l4Tasks, heq', -⟩ := foldl_taskRelease (c := c) tasks (pool.foldl freePooled k)
  have hfold : Aside k (tasks.foldl (taskRelease c) (pool.foldl freePooled k)) := by
    rw [heq', heq]
    exact ⟨rfl, rfl, rfl, rfl, rfl⟩
  dsimp only
  generalize tasks.foldl (taskRelease c) (pool.foldl freePooled k) = k₁ at hfold ⊢
  cases (k.apd.cell a).pprev with
  | none => exact hfold.trans ⟨rfl, rfl, rfl, rfl, rfl⟩
  | some link =>
    obtain ⟨apd, apdTable, hlink, -⟩ := writeApdLink_spec k₁ link (k.apd.cell a).next
    dsimp only
    rw [hlink]
    exact hfold.trans ⟨rfl, rfl, rfl, rfl, rfl⟩

theorem apdClose_aside {freed : Bool} (h : k.apdClose c fuel a = some (freed, k')) :
    Aside k k' := by
  unfold apdClose at h
  dsimp only at h
  have hremove : Aside k (if (k.apd.cell a).closing then k else k.apdPdxCacheRemove a) := by
    split_ifs
    · exact .refl k
    · exact ⟨rfl, rfl, rfl, rfl, rfl⟩
  generalize (if (k.apd.cell a).closing then k else k.apdPdxCacheRemove a) = k₀ at h hremove
  split_ifs at h
  · obtain ⟨-, rfl⟩ := Prod.mk.inj (Option.some.inj h)
    exact hremove.trans ⟨rfl, rfl, rfl, rfl, rfl⟩
  · obtain ⟨k₁, hfree, heq⟩ := Option.map_eq_some_iff.mp h
    obtain ⟨-, rfl⟩ := Prod.mk.inj heq
    exact hremove.trans (apdFree_aside hfree)

theorem apdFill_aside (k : Mem) (a : ℕ) (sup : ApdSupply) : Aside k (k.apdFill a sup).2 := by
  obtain ⟨x, hx, -⟩ := apdFill_filled k a sup
  rw [hx]
  exact ⟨rfl, rfl, rfl, rfl, rfl⟩

theorem apdFromTemplate_aside {os : Kernel O} {pd : ApdDesc} {sup : ApdSupply}
    (h : k.apdFromTemplate os pd sup = some (a, k')) : Aside k k' := by
  unfold apdFromTemplate at h
  by_cases hsup : sup.apd = 0
  · rw [if_pos hsup] at h
    rw [← (Prod.mk.inj (Option.some.inj h)).2]
    exact .refl k
  · rw [if_neg hsup] at h
    obtain ⟨apd, -, h⟩ := Option.bind_eq_some_iff.mp h
    have hout : ∀ k₁ : Mem, Aside k k₁ →
        some (0, { k₁ with apd := k₁.apd.free sup.apd }) = some (a, k') → Aside k k' := by
      intro k₁ h₁ heq
      rw [← (Prod.mk.inj (Option.some.inj heq)).2]
      exact h₁.trans ⟨rfl, rfl, rfl, rfl, rfl⟩
    have halloc : Aside k { k with apd } := ⟨rfl, rfl, rfl, rfl, rfl⟩
    have hfill := halloc.trans (apdFill_aside { k with apd } sup.apd sup)
    dsimp only at h
    split_ifs at h
    · exact hout _ halloc h
    · split at h
      · exact hout _ halloc h
      · split at h
        · next heq =>
          rw [heq] at hfill
          exact hout _ hfill h
        · next heq =>
          rw [heq] at hfill
          rw [← (Prod.mk.inj (Option.some.inj h)).2]
          exact hfill

theorem apdFindOrCreate_aside {os : Kernel O} {addr : ℕ} {pd : ApdDesc} {sup : ApdSupply}
    (h : k.apdFindOrCreate c os fuel addr pd sup = some (a, k')) : Aside k k' := by
  obtain ⟨found, -, h⟩ := Option.bind_eq_some_iff.mp h
  split_ifs at h
  · rw [← (Prod.mk.inj (Option.some.inj h)).2]
    exact .refl k
  · obtain ⟨⟨a', k₁⟩, hmade, h⟩ := Option.map_eq_some_iff.mp h
    have hmade := apdFromTemplate_aside hmade
    dsimp only at h
    split_ifs at h
    · rw [← (Prod.mk.inj h).2]
      exact hmade
    all_goals
      rw [← (Prod.mk.inj h).2]
      exact hmade.trans ⟨rfl, rfl, rfl, rfl, rfl⟩

theorem apdPdxCacheLookup_aside {now orig : ℕ} {clist : Cap} {r : Option (ℕ × ApdCacheId)}
    (h : k.apdPdxCacheLookup c fuel now orig clist = some (r, k')) : Aside k k' := by
  unfold apdPdxCacheLookup at h
  split at h
  · obtain ⟨-, rfl⟩ := Prod.mk.inj (Option.some.inj h)
    exact .refl _
  · dsimp only at h
    split_ifs at h
    · obtain ⟨⟨freed, k₁⟩, hclose, heq⟩ := Option.map_eq_some_iff.mp h
      obtain ⟨-, rfl⟩ := Prod.mk.inj heq
      exact apdClose_aside hclose
    · obtain ⟨-, rfl⟩ := Prod.mk.inj (Option.some.inj h)
      exact .refl _

theorem apdPdxCacheInsert_aside {now orig : ℕ} {clist : Cap} {id : ApdCacheId}
    (h : k.apdPdxCacheInsert c fuel now orig clist a = some (id, k')) : Aside k k' := by
  unfold apdPdxCacheInsert at h
  split at h
  · obtain ⟨-, rfl⟩ := Prod.mk.inj (Option.some.inj h)
    exact ⟨rfl, rfl, rfl, rfl, rfl⟩
  · obtain ⟨⟨freed, k₁⟩, hclose, heq⟩ := Option.map_eq_some_iff.mp h
    obtain ⟨-, rfl⟩ := Prod.mk.inj heq
    exact (apdClose_aside hclose).trans ⟨rfl, rfl, rfl, rfl, rfl⟩

theorem apdPdxBuild_aside {now orig : ℕ} {clist : Cap} {sup : ApdSupply}
    {r : Option (ℕ × ApdCacheId)} (h : k.apdPdxBuild c fuel now orig clist sup = some (r, k')) :
    Aside k k' := by
  unfold apdPdxBuild at h
  by_cases hsup : sup.apd = 0
  · rw [if_pos hsup] at h
    rw [← (Prod.mk.inj (Option.some.inj h)).2]
    exact .refl k
  · rw [if_neg hsup] at h
    obtain ⟨apd, -, h⟩ := Option.bind_eq_some_iff.mp h
    dsimp only at h
    have hclone : Aside k (if orig = 0 then ({ k with apd } : Mem)
        else ({ k with apd } : Mem).apdClone sup.apd orig) := by
      split_ifs
      all_goals exact ⟨rfl, rfl, rfl, rfl, rfl⟩
    generalize (if orig = 0 then ({ k with apd } : Mem)
      else ({ k with apd } : Mem).apdClone sup.apd orig) = k₀ at h hclone
    have hfill := hclone.trans (apdFill_aside k₀ sup.apd sup)
    have hout : ∀ k₁ : Mem, Aside k k₁ →
        some (none, { k₁ with apd := k₁.apd.free sup.apd }) = some (r, k') → Aside k k' := by
      intro k₁ h₁ heq
      rw [← (Prod.mk.inj (Option.some.inj heq)).2]
      exact h₁.trans ⟨rfl, rfl, rfl, rfl, rfl⟩
    split at h
    · next heq =>
      rw [heq] at hfill
      exact hout _ hfill h
    · next heq =>
      rw [heq] at hfill
      split at h
      · exact hout _ hfill h
      · cases h
      · obtain ⟨data, -, h⟩ := Option.bind_eq_some_iff.mp h
        obtain ⟨⟨id, k₂⟩, hinsert, h⟩ := Option.map_eq_some_iff.mp h
        rw [← (Prod.mk.inj h).2]
        refine hfill.trans (Aside.trans ?_ (apdPdxCacheInsert_aside hinsert))
        exact ⟨rfl, rfl, rfl, rfl, rfl⟩

/-- **A PDX merge has nothing to do with threads.** -/
theorem apdPdxMerge_aside {now now' orig : ℕ} {clist : Cap} {sup : ApdSupply}
    {r : Option (ℕ × ApdCacheId)}
    (h : k.apdPdxMerge c fuel now now' orig clist sup = some (r, k')) : Aside k k' := by
  obtain ⟨⟨found, k₁⟩, hlook, h⟩ := Option.bind_eq_some_iff.mp h
  have hlooked := apdPdxCacheLookup_aside hlook
  cases found with
  | some found =>
    rw [← (Prod.mk.inj (Option.some.inj h)).2]
    exact hlooked
  | none => exact hlooked.trans (apdPdxBuild_aside h)

end Mem

/-! ### The table -/

/-- The place in the table that a link is. -/
def Link.place : Link → Place ℕ
  | .bucket i => .head i
  | .next p => .next p

namespace Mem

/-- The table of threads, as a hash table. -/
def buckets (k : Mem) : Buckets ℕ where
  head := k.mungiThreads
  next := fun p => (k.mthread.cell p).next
  pprev := fun p => (k.mthread.cell p).pprev.place

/-- The bucket of a thread. -/
def bucketOf (k : Mem) (m : ℕ) : ℕ := (k.mthread.cell m).tid % threadHashsize

/-- The table has the threads in use. -/
def Tabled (k : Mem) : Prop := k.buckets.Holds (InUse k.log) k.bucketOf

/-- The ancestor test goes from a thread to its parent. -/
def parentOf (k : Mem) (m : ℕ) : ℕ := (k.mthread.cell m).parent

theorem Booted.tabled (h : k.Booted) (htable : ∀ i, k.mungiThreads i = 0) : k.Tabled := by
  have hempty : k.buckets.Holds (fun _ => False) k.bucketOf := Buckets.Holds.empty htable
  refine hempty.congr (fun x => ?_) rfl nofun
  unfold InUse
  rw [h.log]
  exact iff_of_false nofun id

/-- What a change of a thread does to the table. -/
theorem buckets_modThread (k : Mem) (p : ℕ) (f : Mthread → Mthread) :
    (k.modThread p f).buckets =
      { head := k.mungiThreads
        next := Function.update k.buckets.next p (f (k.mthread.cell p)).next
        pprev := Function.update k.buckets.pprev p (f (k.mthread.cell p)).pprev.place } := by
  refine Buckets.ext rfl ?_ ?_
  · exact Heap.map_modify Mthread.next k.mthread p f
  · exact Heap.map_modify (fun t => t.pprev.place) k.mthread p f

/-- The memories agree on ids and parents. -/
structure SameNames (k k' : Mem) : Prop where
  tid : ∀ q, (k'.mthread.cell q).tid = (k.mthread.cell q).tid
  parent : ∀ q, (k'.mthread.cell q).parent = (k.mthread.cell q).parent

theorem SameNames.refl (k : Mem) : SameNames k k := ⟨fun _ => rfl, fun _ => rfl⟩

theorem SameNames.trans (h : SameNames k k') (h' : SameNames k' k'') : SameNames k k'' :=
  ⟨fun q => (h'.tid q).trans (h.tid q), fun q => (h'.parent q).trans (h.parent q)⟩

theorem SameNames.modThread (h : SameNames k k') (p : ℕ) {f : Mthread → Mthread}
    (hf : ∀ t, (f t).tid = t.tid ∧ (f t).parent = t.parent) : SameNames k (k'.modThread p f) :=
  h.trans ⟨fun q => Heap.modify_field (g := Mthread.tid) (fun t => (hf t).1) q,
    fun q => Heap.modify_field (g := Mthread.parent) (fun t => (hf t).2) q⟩

theorem sameNames_writeTidLink (k : Mem) (link : Link) (x : ℕ) :
    SameNames k (k.writeTidLink link x) := by
  cases link with
  | bucket i => exact ⟨fun _ => rfl, fun _ => rfl⟩
  | next p => exact (SameNames.refl k).modThread p fun _ => ⟨rfl, rfl⟩

theorem buckets_writeTidLink (k : Mem) (link : Link) (x : ℕ) :
    (k.writeTidLink link x).buckets = k.buckets.write link.place x := by
  cases link with
  | bucket i => rfl
  | next p =>
    refine (k.buckets_modThread p fun t => { t with next := x }).trans (Buckets.ext rfl rfl ?_)
    exact Function.update_eq_self p k.buckets.pprev

/-- **`thread_hash_remove` takes the thread out of the table.** -/
theorem buckets_threadHashRemove (k : Mem) (m : ℕ) :
    (k.threadHashRemove m).buckets = k.buckets.remove m := by
  have hbuckets := k.buckets_writeTidLink (k.mthread.cell m).pprev (k.mthread.cell m).next
  unfold threadHashRemove Buckets.remove
  dsimp only
  generalize k.writeTidLink (k.mthread.cell m).pprev (k.mthread.cell m).next = k₁ at hbuckets ⊢
  rw [show k.buckets.pprev m = (k.mthread.cell m).pprev.place from rfl,
    show k.buckets.next m = (k.mthread.cell m).next from rfl, ← hbuckets,
    show k₁.buckets.next m = (k₁.mthread.cell m).next from rfl]
  split_ifs with hzero
  · rfl
  · refine (k₁.buckets_modThread _ fun t => { t with pprev := (k₁.mthread.cell m).pprev }).trans ?_
    refine Buckets.ext rfl ?_ rfl
    exact Function.update_eq_self _ k₁.buckets.next

theorem sameNames_threadHashRemove (k : Mem) (m : ℕ) : SameNames k (k.threadHashRemove m) := by
  unfold threadHashRemove
  dsimp only
  split_ifs
  · exact k.sameNames_writeTidLink _ _
  · exact (k.sameNames_writeTidLink _ _).modThread _ fun _ => ⟨rfl, rfl⟩

/-- **`l4task_thread_add` puts the thread into the table.** -/
theorem buckets_threadHashInsert (k : Mem) (m : ℕ) :
    (k.threadHashInsert m).buckets = k.buckets.insert (k.bucketOf m) m := by
  unfold threadHashInsert
  dsimp only
  rw [show (k.mthread.cell m).tid % threadHashsize = k.bucketOf m from rfl]
  generalize hb : k.bucketOf m = b
  -- the links first, then the place in the old first thread, the bucket, and the new place
  have h₁ : (k.modThread m fun t => { t with next := k.mungiThreads b }).buckets
      = { k.buckets with next := Function.update k.buckets.next m (k.mungiThreads b) } := by
    refine (k.buckets_modThread m _).trans (Buckets.ext rfl rfl ?_)
    exact Function.update_eq_self m k.buckets.pprev
  generalize (k.modThread m fun t => { t with next := k.mungiThreads b }) = k₁ at h₁ ⊢
  have h₂ : (if k.mungiThreads b = 0 then k₁
      else k₁.modThread (k.mungiThreads b) fun t => { t with pprev := .next m }).buckets
      = { k₁.buckets with pprev := if k.mungiThreads b = 0 then k₁.buckets.pprev
            else Function.update k₁.buckets.pprev (k.mungiThreads b) (.next m) } := by
    split_ifs
    · rfl
    · refine (k₁.buckets_modThread _ _).trans (Buckets.ext rfl ?_ rfl)
      exact Function.update_eq_self _ k₁.buckets.next
  generalize (if k.mungiThreads b = 0 then k₁
    else k₁.modThread (k.mungiThreads b) fun t => { t with pprev := .next m }) = k₂ at h₂ ⊢
  refine (buckets_modThread _ m _).trans ?_
  rw [h₁] at h₂
  have hhead : k₂.mungiThreads = k.mungiThreads := congrArg Buckets.head h₂
  have hnext : k₂.buckets.next = Function.update k.buckets.next m (k.mungiThreads b) :=
    congrArg Buckets.next h₂
  have hpprev : k₂.buckets.pprev = if k.mungiThreads b = 0 then k.buckets.pprev
      else Function.update k.buckets.pprev (k.mungiThreads b) (.next m) :=
    congrArg Buckets.pprev h₂
  refine Buckets.ext ?_ ?_ ?_
  · exact congrArg (fun head => Function.update head b m) hhead
  · exact (Function.update_eq_self m k₂.buckets.next).trans hnext
  · exact congrArg (fun pprev => Function.update pprev m (Place.head b)) hpprev

theorem SameNames.table (h : SameNames k k') (mungiThreads : ℕ → ℕ) :
    SameNames k { k' with mungiThreads } := ⟨h.tid, h.parent⟩

theorem sameNames_threadHashInsert (k : Mem) (m : ℕ) : SameNames k (k.threadHashInsert m) := by
  unfold threadHashInsert
  dsimp only
  have hset := (SameNames.refl k).modThread m (f := fun t =>
    { t with next := k.mungiThreads ((k.mthread.cell m).tid % threadHashsize) })
    fun _ => ⟨rfl, rfl⟩
  refine SameNames.modThread (SameNames.table ?_ _) m fun _ => ⟨rfl, rfl⟩
  split_ifs
  · exact hset
  · exact hset.modThread _ fun _ => ⟨rfl, rfl⟩

/-! ### Queues and states -/

/-- The memories agree on the table, on ids and on parents. -/
structure SameKin (k k' : Mem) : Prop extends SameNames k k' where
  buckets : k'.buckets = k.buckets

theorem SameKin.refl (k : Mem) : SameKin k k := ⟨.refl k, rfl⟩

theorem SameKin.trans (h : SameKin k k') (h' : SameKin k' k'') : SameKin k k'' :=
  ⟨h.toSameNames.trans h'.toSameNames, h'.buckets.trans h.buckets⟩

/-- Other parts of the memory. -/
theorem SameKin.of_eq (hthread : k'.mthread.cell = k.mthread.cell)
    (htable : k'.mungiThreads = k.mungiThreads) : SameKin k k' := by
  refine ⟨⟨fun q => ?_, fun q => ?_⟩, Buckets.ext htable ?_ ?_⟩
  · rw [hthread]
  · rw [hthread]
  · exact congrArg (fun cell q => (cell q : Mthread).next) hthread
  · exact congrArg (fun cell q => (cell q : Mthread).pprev.place) hthread

theorem Aside.sameKin (h : Aside k k') : SameKin k k' := .of_eq h.thread h.mungiThreads

/-- Other fields of a thread. -/
theorem SameKin.modThread (h : SameKin k k') (p : ℕ) {f : Mthread → Mthread}
    (hf : ∀ t, (f t).tid = t.tid ∧ (f t).parent = t.parent ∧ (f t).next = t.next ∧
      (f t).pprev = t.pprev) : SameKin k (k'.modThread p f) := by
  refine ⟨h.toSameNames.modThread p fun t => ⟨(hf t).1, (hf t).2.1⟩, ?_⟩
  rw [buckets_modThread, (hf _).2.2.1, (hf _).2.2.2, ← h.buckets]
  exact Buckets.ext rfl (Function.update_eq_self p _) (Function.update_eq_self p _)

theorem SameKin.waitq (h : SameKin k k') (waitq : Waitqs ThreadQueue) :
    SameKin k { k' with waitq } := h.trans (.of_eq rfl rfl)

theorem sameKin_wakeWaiters {thread n : ℕ} {skip : Bool}
    (h : wakeWaiters thread n k = some (skip, k')) : SameKin k k' := by
  induction n generalizing k skip with
  | zero => cases h
  | succ n ih =>
    rw [wakeWaiters] at h
    split_ifs at h
    · obtain ⟨-, rfl⟩ := Prod.mk.inj (Option.some.inj h)
      exact (SameKin.refl k).waitq _
    · obtain ⟨⟨skip', k₁⟩, h₁, heq⟩ := Option.map_eq_some_iff.mp h
      obtain ⟨-, rfl⟩ := Prod.mk.inj heq
      refine SameKin.trans ?_ (ih h₁)
      exact ((SameKin.refl k).waitq _).modThread _ fun _ => ⟨rfl, rfl, rfl, rfl⟩

theorem sameKin_stopWaiting (h : k.stopWaiting fuel m = some k') : SameKin k k' := by
  have hwoken : SameKin k (k.modThread m fun t => { t with state := .ok }) :=
    (SameKin.refl k).modThread m fun _ => ⟨rfl, rfl, rfl, rfl⟩
  unfold stopWaiting at h
  dsimp only at h
  split at h
  · exact Option.some.inj h ▸ hwoken
  · split_ifs at h
    · exact Option.some.inj h ▸ hwoken
    · obtain ⟨w, -, rfl⟩ := Option.map_eq_some_iff.mp h
      exact (hwoken.waitq w).modThread m fun _ => ⟨rfl, rfl, rfl, rfl⟩
  · exact Option.some.inj h ▸ SameKin.refl k

/-! ### The end of a thread -/

/-- The table stays as it is, and so do the threads in use. -/
structure Idle (k k' : Mem) : Prop extends SameKin k k' where
  inUse : ∀ q, InUse k'.log q ↔ InUse k.log q

/-- The thread `m` is taken out of the table, and it is not in use any more. -/
structure Reaped (m : ℕ) (k k' : Mem) : Prop extends SameNames k k' where
  was : InUse k.log m
  buckets : k'.buckets = k.buckets.remove m
  inUse : ∀ q, InUse k'.log q ↔ InUse k.log q ∧ q ≠ m

theorem Idle.refl (k : Mem) : Idle k k := ⟨.refl k, fun _ => Iff.rfl⟩

theorem Idle.trans (h : Idle k k') (h' : Idle k' k'') : Idle k k'' :=
  ⟨h.toSameKin.trans h'.toSameKin, fun q => (h'.inUse q).trans (h.inUse q)⟩

theorem SameKin.idle (h : SameKin k k') (hout : handedOut k'.log = handedOut k.log) :
    Idle k k' := by
  refine ⟨h, fun q => ?_⟩
  unfold InUse
  rw [hout]

theorem Aside.idle (h : Aside k k') : Idle k k' := h.sameKin.idle h.handedOut

theorem Idle.reaped (h : Idle k k') (hr : Reaped m k' k'') : Reaped m k k'' where
  toSameNames := h.toSameNames.trans hr.toSameNames
  was := (h.inUse m).mp hr.was
  buckets := by rw [hr.buckets, h.buckets]
  inUse := fun q => by rw [hr.inUse, h.inUse]

theorem Reaped.idle (hr : Reaped m k k') (h : Idle k' k'') : Reaped m k k'' where
  toSameNames := hr.toSameNames.trans h.toSameNames
  was := hr.was
  buckets := by rw [h.buckets, hr.buckets]
  inUse := fun q => by rw [h.inUse, hr.inUse]

theorem pushed_reaped (hnodup : ((handedOut k.log).map Prod.fst).Nodup) (hm : InUse k.log m) :
    Reaped m k (k.pushed m) := by
  have hlog := k.pushed_pushed m |>.log
  have hkin : SameKin (k.threadHashRemove m) (k.pushed m) := .of_eq rfl rfl
  refine ⟨(k.sameNames_threadHashRemove m).trans hkin.toSameNames, hm, ?_, fun q => ?_⟩
  · rw [hkin.buckets, buckets_threadHashRemove]
  · obtain ⟨a, hma⟩ := hm.home
    have hperm := (handedOut_released hma hnodup).map Prod.fst
    have hcons := hperm.nodup_iff.mp hnodup
    unfold InUse
    rw [hlog, hperm.mem_iff, List.map_cons, List.mem_cons]
    constructor
    · intro hq
      refine ⟨Or.inr hq, ?_⟩
      rintro rfl
      exact (List.nodup_cons.mp hcons).1 hq
    · rintro ⟨hq, hne⟩
      exact hq.resolve_left hne

/-- **Reaping takes a thread out of the table.** -/
theorem threadRelease_reaped (h : k.threadRelease c fuel m = some k')
    (hnodup : ((handedOut k.log).map Prod.fst).Nodup) (hm : InUse k.log m) : Reaped m k k' := by
  have hr := pushed_reaped hnodup hm
  rw [threadRelease_eq] at h
  split_ifs at h
  · obtain ⟨⟨freed, k₁⟩, hclose, rfl⟩ := Option.map_eq_some_iff.mp h
    exact hr.idle (apdClose_aside hclose).idle
  · rwa [← Option.some.inj h]

theorem notifyWaiters_table {item : ℕ} (h : k.notifyWaiters c fuel item m = some k')
    (hnodup : ((handedOut k.log).map Prod.fst).Nodup) (hm : InUse k.log m) :
    Idle k k' ∨ Reaped m k k' := by
  obtain ⟨⟨skip, k₁⟩, h₁, h₂⟩ := Option.bind_eq_some_iff.mp h
  have hkin := sameKin_wakeWaiters h₁
  have hlog := (frame_wakeWaiters h₁).log
  dsimp only at h₂
  split_ifs at h₂
  · have hidle : Idle k (k₁.modThread m fun t => { t with state := .dead }) := by
      refine SameKin.idle (hkin.modThread m ?_) (by rw [hlog])
      exact fun _ => ⟨rfl, rfl, rfl, rfl⟩
    refine Or.inr (hidle.reaped (threadRelease_reaped h₂ ?_ ?_))
    · rwa [hlog]
    · rwa [hlog]
  · obtain ⟨w, -, rfl⟩ := Option.map_eq_some_iff.mp h₂
    exact Or.inl ((hkin.waitq _).idle (by rw [hlog]))
  · rw [← Option.some.inj h₂]
    exact Or.inl (hkin.idle (by rw [hlog]))

theorem doThreadsDelete_table {item : ℕ} {status : ℤ}
    (hnodup : ((handedOut k.log).map Prod.fst).Nodup) (hm : InUse k.log m)
    (h : k.doThreadsDelete c fuel item m status = some k') : Idle k k' ∨ Reaped m k k' := by
  obtain ⟨k₁, h₁, h₂⟩ := Option.bind_eq_some_iff.mp h
  have hkin := sameKin_stopWaiting h₁
  have hout : handedOut k₁.log = handedOut k.log := by rw [(frame_stopWaiting h₁).log]
  split_ifs at h₂
  · rw [← Option.some.inj h₂]
    refine Or.inl (SameKin.idle (hkin.trans ?_) hout)
    exact .of_eq rfl rfl
  · have hidle : Idle k (((k₁.emit (.deleted m)).l4taskThreadRemove m).modThread m fun t =>
        { t with lasterror := status, state := .zombie }) := by
      refine SameKin.idle (SameKin.modThread (hkin.trans ?_) m ?_) hout
      · exact .of_eq rfl rfl
      · exact fun _ => ⟨rfl, rfl, rfl, rfl⟩
    rw [← hout] at hnodup
    rcases notifyWaiters_table h₂ hnodup ((hidle.inUse m).mpr hm) with h | h
    · exact Or.inl (hidle.trans h)
    · exact Or.inr (hidle.reaped h)

theorem threadDie_table {item : ℕ} (hnodup : ((handedOut k.log).map Prod.fst).Nodup)
    (hm : InUse k.log m) (h : k.threadDie c fuel item m = some k') : Idle k k' ∨ Reaped m k k' := by
  have hidle : Idle k ((k.emit (.deleted m)).modThread m fun t =>
      { t with lasterror := 0, state := .zombie }) := by
    have hemit : SameKin k (k.emit (.deleted m)) := .of_eq rfl rfl
    refine SameKin.idle (hemit.modThread m ?_) rfl
    exact fun _ => ⟨rfl, rfl, rfl, rfl⟩
  unfold threadDie at h
  rcases notifyWaiters_table h hnodup ((hidle.inUse m).mpr hm) with h | h
  · exact Or.inl (hidle.trans h)
  · exact Or.inr (hidle.reaped h)

/-! ### The calls that end threads -/

theorem threadDelete_table {item tid caller : ℕ} {status : ℤ} {goes : Bool}
    (hnodup : ((handedOut k.log).map Prod.fst).Nodup)
    (hm : ∀ m, k.deleteTarget fuel tid caller = some m → InUse k.log m)
    (h : k.threadDelete c fuel item tid status caller = some (goes, k')) :
    Idle k k' ∨ ∃ m, Reaped m k k' := by
  obtain ⟨child, hchild, h₁⟩ := Option.bind_eq_some_iff.mp h
  unfold deleteTarget at hm
  rw [hchild, Option.bind_some] at hm
  dsimp only at h₁ hm
  split_ifs at h₁ hm with hno
  · rw [← (Prod.mk.inj (Option.some.inj h₁)).2]
    exact Or.inl (.refl k)
  · obtain ⟨k₁, hk₁, heq⟩ := Option.map_eq_some_iff.mp h₁
    obtain ⟨-, rfl⟩ := Prod.mk.inj heq
    exact (doThreadsDelete_table hnodup (hm child rfl) hk₁).imp_right fun h => ⟨child, h⟩

theorem threadWait_table {item tid caller : ℕ} {ret : WaitReturn}
    (hnodup : ((handedOut k.log).map Prod.fst).Nodup)
    (hm : ∀ m, k.waitTarget fuel tid caller = some m → InUse k.log m)
    (h : k.threadWait c fuel item tid caller = some (ret, k')) :
    Idle k k' ∨ ∃ m, Reaped m k k' := by
  have hqueue : ∀ w, Idle k { k with waitq := w } := fun w => ((SameKin.refl k).waitq w).idle rfl
  unfold threadWait at h
  unfold waitTarget at hm
  dsimp only at h hm
  by_cases htid : tid = 0
  · rw [if_pos htid] at h hm
    split_ifs at h with hchild
    · obtain ⟨k₁, hk₁, heq⟩ := Option.map_eq_some_iff.mp h
      obtain ⟨-, rfl⟩ := Prod.mk.inj heq
      have hreaped := threadRelease_reaped hk₁ hnodup (hm _ (if_neg hchild))
      exact Or.inr ⟨_, (hqueue _).reaped hreaped⟩
    · obtain ⟨-, rfl⟩ := Prod.mk.inj (Option.some.inj h)
      refine Or.inl (SameKin.idle ((hqueue _).toSameKin.modThread caller ?_) rfl)
      exact fun _ => ⟨rfl, rfl, rfl, rfl⟩
    · obtain ⟨-, rfl⟩ := Prod.mk.inj (Option.some.inj h)
      exact Or.inl (hqueue _)
  · rw [if_neg htid] at h hm
    obtain ⟨child, hchild, h₁⟩ := Option.bind_eq_some_iff.mp h
    rw [hchild, Option.bind_some] at hm
    split_ifs at h₁ with hno hzombie
    · obtain ⟨-, rfl⟩ := Prod.mk.inj (Option.some.inj h₁)
      exact Or.inl (.refl k)
    · obtain ⟨w, -, h₂⟩ := Option.bind_eq_some_iff.mp h₁
      obtain ⟨k₁, hk₁, heq⟩ := Option.map_eq_some_iff.mp h₂
      obtain ⟨-, rfl⟩ := Prod.mk.inj heq
      have hin := hm child (if_pos ⟨fun h0 => hno (Or.inl h0), hzombie⟩)
      have hreaped := threadRelease_reaped hk₁ hnodup hin
      exact Or.inr ⟨_, (hqueue w).reaped hreaped⟩
    · obtain ⟨w, -, heq⟩ := Option.map_eq_some_iff.mp h₁
      split_ifs at heq
      · obtain ⟨-, rfl⟩ := Prod.mk.inj heq
        refine Or.inl (SameKin.idle ((hqueue w.2).toSameKin.modThread caller ?_) rfl)
        exact fun _ => ⟨rfl, rfl, rfl, rfl⟩
      · obtain ⟨-, rfl⟩ := Prod.mk.inj heq
        exact Or.inl (hqueue w.2)

theorem sysThreadReturn_table {item : ℕ} {status : ℤ}
    (hnodup : ((handedOut k.log).map Prod.fst).Nodup) (hm : InUse k.log m)
    (h : k.sysThreadReturn c fuel item status m = some k') : Idle k k' ∨ ∃ m, Reaped m k k' := by
  by_cases hpdx : (k.mthread.cell m).PDX = 0
  · obtain ⟨goes, hd⟩ := sysThreadReturn_other hpdx h
    refine threadDelete_table hnodup (fun m' hm' => ?_) hd
    rwa [deleteTarget_self hm']
  · obtain ⟨k₁, hrelease, rfl⟩ := sysThreadReturn_pdx hpdx h
    have hidle : Idle k (k.l4taskThreadRemove m) := SameKin.idle (.of_eq rfl rfl) rfl
    have hreaped := threadRelease_reaped hrelease hnodup hm
    refine Or.inr ⟨m, (hidle.reaped hreaped).idle ?_⟩
    exact SameKin.idle (.of_eq rfl rfl) rfl

end Mem

end Mungi
