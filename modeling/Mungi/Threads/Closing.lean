import Mungi.Threads.Creation

/-!
# Closing APDs and releasing threads

An APD without users is freed with its pool and its tasks; one with users is marked, and freed
when its last thread is released.

## Main definitions

* `Mem.Freed` — what freeing an APD does.

## Main results

* `apdClose_closed` — **what `apd_close` does.**
* `Placed.freed` — the threads of other APDs stay where they are.
* `threadRelease_released` — **what `thread_release` does.**
-/

namespace Mungi

open Chain

variable {c : ThreadConf} {k k' : Mem} {fuel a b m : ℕ} {busy : List (ℕ × ℕ)}

namespace Mem

/-! ### Freeing -/

/-- What `apd_close` does with an APD that has no users: the blocks of the pool and the
tasks are freed, with the APD itself. -/
structure Freed (k : Mem) (a : ℕ) (pool tasks : List ℕ) (k' : Mem) : Prop where
  poolChain : IsChain k.poolNext (k.apd.cell a).threads pool
  tasksChain : IsChain k.taskNext (k.apd.cell a).tasks tasks
  apdLive : ∀ b, k'.apd.live b = if b = a then false else k.apd.live b
  apdCell : ∀ b, k'.apd.cell b = { k.apd.cell b with next := (k'.apd.cell b).next }
  threadCell : k'.mthread.cell = k.mthread.cell
  threadLive : ∀ m, m ∉ pool.map (fun e => (k.apdThread.cell e).mthread) →
    k'.mthread.live m = k.mthread.live m
  entryCell : k'.apdThread.cell = k.apdThread.cell
  entryLive : ∀ e, e ∉ pool → k'.apdThread.live e = k.apdThread.live e
  taskCell : k'.task.cell = k.task.cell
  taskLive : ∀ t, t ∉ tasks → k'.task.live t = k.task.live t
  apdPdxCache : k'.apdPdxCache = k.apdPdxCache
  pdxCache : k'.pdxCache = k.pdxCache
  apdSerial : k'.apdSerial = k.apdSerial
  log : k'.log = .closed a (k.apd.cell a).closing :: k.log

/-- The loop of `apd_close` over the pool. -/
theorem foldl_freePooled (pool : List ℕ) (k : Mem) :
    ∃ thread entry : ℕ → Bool, pool.foldl freePooled k =
      { k with
        mthread := { k.mthread with live := thread }
        apdThread := { k.apdThread with live := entry } } ∧
      (∀ m, m ∉ pool.map (fun e => (k.apdThread.cell e).mthread) → thread m = k.mthread.live m) ∧
      ∀ e, e ∉ pool → entry e = k.apdThread.live e := by
  induction pool generalizing k with
  | nil => exact ⟨_, _, rfl, fun _ _ => rfl, fun _ _ => rfl⟩
  | cons e pool ih =>
    obtain ⟨thread, entry, heq, hthread, hentry⟩ := ih (k.freePooled e)
    refine ⟨thread, entry, heq, fun m hm => ?_, fun e' he' => ?_⟩
    · obtain ⟨hne, hm⟩ := List.ne_and_not_mem_of_not_mem_cons hm
      exact (hthread m hm).trans (Heap.live_free_of_ne hne)
    · obtain ⟨hne, he'⟩ := List.ne_and_not_mem_of_not_mem_cons he'
      exact (hentry e' he').trans (Heap.live_free_of_ne hne)

/-- The loop of `apd_close` over the tasks. -/
theorem foldl_taskRelease (tasks : List ℕ) (k : Mem) :
    ∃ (live : ℕ → Bool) (l4Tasks : ℕ → ℕ), tasks.foldl (taskRelease c) k =
      { k with l4Tasks, task := { k.task with live } } ∧
      ∀ t, t ∉ tasks → live t = k.task.live t := by
  induction tasks generalizing k with
  | nil => exact ⟨_, _, rfl, fun _ _ => rfl⟩
  | cons t tasks ih =>
    obtain ⟨live, l4Tasks, heq, hlive⟩ := ih (k.taskRelease c t)
    refine ⟨live, l4Tasks, heq, fun t' ht' => ?_⟩
    obtain ⟨hne, ht'⟩ := List.ne_and_not_mem_of_not_mem_cons ht'
    exact (hlive t' ht').trans (Heap.live_free_of_ne hne)

/-- Unlinking an APD changes the `next` field of another one at most. -/
theorem writeApdLink_spec (k : Mem) (link : Link) (p : ℕ) :
    ∃ (apd : ℕ → Apd) (apdTable : ℕ → ℕ), k.writeApdLink link p =
      { k with apdTable, apd := { k.apd with cell := apd } } ∧
      ∀ b, apd b = { k.apd.cell b with next := (apd b).next } := by
  cases link with
  | bucket i => exact ⟨_, _, rfl, fun _ => rfl⟩
  | next q =>
    refine ⟨_, _, rfl, fun b => ?_⟩
    dsimp only
    rw [Function.update_apply]
    split_ifs with hb
    · rw [hb]
    · rfl

theorem apdFree_freed (h : k.apdFree c fuel a = some k') :
    ∃ pool tasks, Freed k a pool tasks k' := by
  obtain ⟨pool, hpool, h⟩ := Option.bind_eq_some_iff.mp h
  obtain ⟨tasks, htasks, hk'⟩ := Option.map_eq_some_iff.mp h
  obtain ⟨thread, entry, heq₁, hthread, hentry⟩ := foldl_freePooled pool k
  obtain ⟨live, l4Tasks, heq₂, hlive⟩ := foldl_taskRelease (c := c) tasks (pool.foldl freePooled k)
  have hunlink : ∃ k₁ : Mem, (∃ (apd : ℕ → Apd) (apdTable : ℕ → ℕ),
      k₁ = { tasks.foldl (taskRelease c) (pool.foldl freePooled k) with
        apdTable, apd := { (tasks.foldl (taskRelease c) (pool.foldl freePooled k)).apd with
          cell := apd } } ∧
      ∀ b, apd b = { (tasks.foldl (taskRelease c) (pool.foldl freePooled k)).apd.cell b with
        next := (apd b).next }) ∧
      { k₁ with apd := k₁.apd.free a, log := .closed a (k.apd.cell a).closing :: k₁.log } = k' := by
    dsimp only at hk'
    cases hp : (k.apd.cell a).pprev with
    | none =>
      rw [hp] at hk'
      exact ⟨_, ⟨_, _, rfl, fun _ => rfl⟩, hk'⟩
    | some link =>
      rw [hp] at hk'
      exact ⟨_, writeApdLink_spec _ link _, hk'⟩
  obtain ⟨k₁, ⟨apd, apdTable, heq₃, hapd⟩, hk₁⟩ := hunlink
  rw [heq₂, heq₁] at heq₃ hapd
  rw [heq₁] at hlive
  subst heq₃
  subst hk₁
  exact ⟨pool, tasks, walk_isChain hpool, walk_isChain htasks, fun b => Heap.live_free _ _ _, hapd,
    rfl, hthread, rfl, hentry, rfl, hlive, rfl, rfl, rfl, rfl⟩

/-- **What `apd_close` does**: with users, the APD is marked; without, it is freed.  The
first time it also leaves the cache. -/
theorem apdClose_closed {freed : Bool} (h : k.apdClose c fuel a = some (freed, k')) :
    let k₀ := if (k.apd.cell a).closing then k else k.apdPdxCacheRemove a
    ((k.apd.cell a).users ≠ 0 ∧ k' = k₀.modApd a fun x => { x with closing := true }) ∨
      (k.apd.cell a).users = 0 ∧ ∃ pool tasks, Freed k₀ a pool tasks k' := by
  unfold apdClose at h
  dsimp only at h ⊢
  generalize hk₀ : (if (k.apd.cell a).closing then k else k.apdPdxCacheRemove a) = k₀ at h ⊢
  have hapd : k₀.apd = k.apd := by
    rw [← hk₀]
    split_ifs <;> rfl
  rw [hapd] at h
  split_ifs at h with husers
  · exact Or.inl ⟨husers, (Prod.mk.inj (Option.some.inj h)).2.symm⟩
  · obtain ⟨k₁, hfree, heq⟩ := Option.map_eq_some_iff.mp h
    obtain ⟨-, rfl⟩ := Prod.mk.inj heq
    exact Or.inr ⟨not_not.mp husers, apdFree_freed hfree⟩

/-- What `apd_close` leaves alone: all other APDs, and the threads in use. -/
theorem apdClose_other {freed : Bool} (h : k.apdClose c fuel a = some (freed, k')) :
    (∀ b, b ≠ a → k'.apd.live b = k.apd.live b ∧
      (k'.apd.cell b).users = (k.apd.cell b).users ∧
      (k'.apd.cell b).closing = (k.apd.cell b).closing) ∧
    handedOut k'.log = handedOut k.log := by
  have hclosed := apdClose_closed h
  dsimp only at hclosed
  generalize hk₀ : (if (k.apd.cell a).closing then k else k.apdPdxCacheRemove a) = k₀ at hclosed
  have h₀ : k₀.apd = k.apd ∧ k₀.log = k.log := by
    rw [← hk₀]
    split_ifs <;> exact ⟨rfl, rfl⟩
  rw [← h₀.1, ← h₀.2]
  rcases hclosed with ⟨-, rfl⟩ | ⟨-, pool, tasks, hfreed⟩
  · refine ⟨fun b hb => ?_, rfl⟩
    dsimp only
    rw [Heap.cell_modify_of_ne hb]
    exact ⟨rfl, rfl, rfl⟩
  · refine ⟨fun b hb => ?_, ?_⟩
    · rw [hfreed.apdLive, if_neg hb, hfreed.apdCell]
      exact ⟨rfl, rfl, rfl⟩
    · rw [hfreed.log]
      rfl

end Mem

open Mem

/-- **The threads of other APDs stay where they are** when an APD without threads in use is
freed. -/
theorem Placed.freed {pool tasks : List ℕ} (h : Placed busy k) (ha : k.apd.live a = true)
    (hbusy : ∀ m, (m, a) ∉ busy) (hf : Freed k a pool tasks k') : Placed busy k' := by
  obtain ⟨pool', hpool', hlinked⟩ := h.pool a ha
  obtain ⟨tasks', htasks', htask⟩ := h.tasks a ha
  obtain rfl := hf.poolChain.unique hpool'
  obtain rfl := hf.tasksChain.unique htasks'
  -- nothing of another APD is freed
  have hkeep : ∀ m e b, k.Linked m e b → b ≠ a → k'.Linked m e b := by
    intro m e b hl hba
    have hnot : ∀ e' ∈ pool, (k.apdThread.cell e').mthread ≠ m := by
      rintro e' he' rfl
      exact hba (hl.unique (hlinked e' he').1).2
    refine ⟨hl.ne, hl.entryNe, ?_, by rw [hf.threadCell, hl.info], ?_, by rw [hf.entryCell, hl.mthread],
      by rw [hf.entryCell, hf.threadCell, hl.task], ?_, ?_⟩
    · rw [hf.threadLive m, hl.thread]
      intro hmem
      obtain ⟨e', he', heq⟩ := List.mem_map.mp hmem
      exact hnot e' he' heq
    · rw [hf.entryLive e, hl.entry]
      intro hmem
      exact hnot e hmem hl.mthread
    · rw [hf.threadCell, hf.taskLive _, hl.taskLive]
      intro hmem
      exact hba (hl.apd.symm.trans (htask _ hmem).2)
    · unfold apdOf
      rw [hf.threadCell, hf.taskCell]
      exact hl.apd
  have hlive : ∀ b, k'.apd.live b = true → b ≠ a ∧ k.apd.live b = true := by
    intro b hb
    rw [hf.apdLive] at hb
    split_ifs at hb with hba
    exact ⟨hba, hb⟩
  have hthreads : ∀ b, (k'.apd.cell b).threads = (k.apd.cell b).threads := fun b => by rw [hf.apdCell]
  have htasks : ∀ b, (k'.apd.cell b).tasks = (k.apd.cell b).tasks := fun b => by rw [hf.apdCell]
  refine ⟨h.nodup, fun m b hm => ?_, fun b hb => ?_, fun b hb => ?_⟩
  · obtain ⟨hb, e, he⟩ := h.home m b hm
    have hba : b ≠ a := by
      rintro rfl
      exact hbusy m hm
    rw [hf.apdLive, if_neg hba]
    exact ⟨hb, e, hkeep m e b he hba⟩
  · obtain ⟨hba, hb⟩ := hlive b hb
    obtain ⟨l, hl, hb'⟩ := h.pool b hb
    refine ⟨l, ?_, fun e he => ?_⟩
    · rw [hthreads]
      exact hl.congr fun e _ => by unfold poolNext; rw [hf.entryCell]
    · rw [hf.entryCell]
      exact ⟨hkeep _ e b (hb' e he).1 hba, (hb' e he).2⟩
  · obtain ⟨hba, hb⟩ := hlive b hb
    obtain ⟨l, hl, ht⟩ := h.tasks b hb
    refine ⟨l, ?_, fun t htl => ?_⟩
    · rw [htasks]
      exact hl.congr fun t _ => by unfold taskNext; rw [hf.taskCell]
    · obtain ⟨htlive, htapd⟩ := ht t htl
      rw [hf.taskCell, hf.taskLive t, htlive]
      · exact ⟨rfl, htapd⟩
      · intro hmem
        exact hba (htapd.symm.trans (htask t hmem).2)

/-- What `thread_release` does, up to the closing of the APD. -/
structure Mem.Pushed (k : Mem) (m : ℕ) (k' : Mem) : Prop where
  live : k'.apd.live = k.apd.live
  users : ∀ b, (k'.apd.cell b).users
    = if b = k.apdOf m then (k.apd.cell b).users - 1 else (k.apd.cell b).users
  closing : ∀ b, (k'.apd.cell b).closing = (k.apd.cell b).closing
  serial : ∀ b, (k'.apd.cell b).serial = (k.apd.cell b).serial
  apdPdxCache : k'.apdPdxCache = k.apdPdxCache
  pdxCache : k'.pdxCache = k.pdxCache
  apdSerial : k'.apdSerial = k.apdSerial
  log : k'.log = .released m :: k.log
  threadPDX : ∀ q, (k'.mthread.cell q).PDX = (k.mthread.cell q).PDX
  threadL4id : ∀ q, (k'.mthread.cell q).l4id = (k.mthread.cell q).l4id
  placed : ∀ busy, Placed ((m, k.apdOf m) :: busy) k → Placed busy k'

/-- `thread_release`, up to the closing of the APD. -/
def Mem.pushed (k : Mem) (m : ℕ) : Mem :=
  let a := k.apdOf m
  let k := k.threadHashRemove m
  let entry := (k.mthread.cell m).apdThreadinfo
  let head := (k.apd.cell a).threads
  let k := k.modApd a fun x => { x with threads := entry, users := x.users - 1 }
  (k.modApdThread entry fun e => { e with next := head }).emit (.released m)

theorem Mem.threadRelease_eq (k : Mem) (m : ℕ) : k.threadRelease c fuel m =
    if ((k.pushed m).apd.cell (k.apdOf m)).closing then
      ((k.pushed m).apdClose c fuel (k.apdOf m)).map Prod.snd
    else some (k.pushed m) := rfl

theorem Mem.pushed_pushed (k : Mem) (m : ℕ) : Mem.Pushed k m (k.pushed m) := by
  unfold Mem.pushed
  have hf := (Frame.refl k).threadHashRemove m
  generalize k.threadHashRemove m = k₀ at hf
  generalize ha : k.apdOf m = a
  have hcell : ∀ b, (k₀.apd.modify a fun x => { x with
      threads := (k₀.mthread.cell m).apdThreadinfo, users := x.users - 1 }).cell b
      = if b = a then { k.apd.cell a with
        threads := (k₀.mthread.cell m).apdThreadinfo, users := (k.apd.cell a).users - 1 }
        else k.apd.cell b := by
    intro b
    rw [Heap.cell_modify, hf.apd]
  refine ⟨?_, fun b => ?_, fun b => ?_, fun b => ?_, hf.apdPdxCache, hf.pdxCache, hf.apdSerial, ?_,
    hf.threadPDX, hf.threadL4id, fun busy hp => ?_⟩
  · rw [← hf.apd]
    rfl
  · dsimp only [emit, modApdThread, modApd]
    rw [hcell, ha]
    split_ifs with hb
    · rw [hb]
    · rfl
  · dsimp only [emit, modApdThread, modApd]
    rw [hcell]
    split_ifs with hb
    · rw [hb]
    · rfl
  · dsimp only [emit, modApdThread, modApd]
    rw [hcell]
    split_ifs with hb
    · rw [hb]
    · rfl
  · dsimp only [emit, modApdThread, modApd]
    rw [hf.log]
  · rw [ha] at hp
    refine ((hp.frame hf).release ?_).withLog _
    exact fun _ => ⟨rfl, rfl⟩

/-- **What `thread_release` does**: the thread goes to the pool, and an APD that is closing
may be closed now. -/
theorem threadRelease_released (h : k.threadRelease c fuel m = some k') :
    ∃ k₁, Mem.Pushed k m k₁ ∧
      ((k.apd.cell (k.apdOf m)).closing = false ∧ k' = k₁ ∨
        (k.apd.cell (k.apdOf m)).closing = true ∧
          ∃ freed, k₁.apdClose c fuel (k.apdOf m) = some (freed, k')) := by
  have hpushed := k.pushed_pushed m
  refine ⟨_, hpushed, ?_⟩
  rw [threadRelease_eq] at h
  rw [← hpushed.closing]
  split_ifs at h with hcl
  · obtain ⟨⟨freed, k₁⟩, hclose, rfl⟩ := Option.map_eq_some_iff.mp h
    exact Or.inr ⟨hcl, freed, hclose⟩
  · exact Or.inl ⟨by simpa using hcl, (Option.some.inj h).symm⟩

end Mungi
