import Mungi.Threads.Replies

/-!
# The seats of threads

A thread runs as a numbered thread of its L4 task.  The task has a table of these threads, counts
the numbers that are left, and has a number of its own, its place in the table of tasks.  The
number of a thread is kept in its pool entry.

## Main definitions

* `Mem.lthreadOf`, `Mem.Belongs` — the number of a thread, and the threads that have one.
* `Mem.slot`, `Mem.free` — the seats of a task, and how many are left; a task that is not in
  memory has all of them.
* `Mem.Calm` — what a call does to seats when nobody takes one or leaves one.
* `Mem.Left` — a thread leaves its seat.

## Main results

* `Owned.apdClose_calm`, `Owned.threadRelease_calm` — closing an APD, and reaping a thread.
* `threadDelete_seats`, `threadWait_calm`, `sysThreadReturn_seats`, `apdPdxMerge_calm` — **the
  calls that create no threads.**
-/

namespace Mungi

open Chain Runs Mem

variable {O : Type} {c : ThreadConf} {k k' k'' : Mem} {fuel a m t : ℕ} {l : List Event}

/-! ### Seats -/

/-- `apd_threadinfo->lthread` of the thread. -/
def Mem.lthreadOf (k : Mem) (m : ℕ) : ℕ :=
  (k.apdThread.cell (k.mthread.cell m).apdThreadinfo).lthread

/-- The thread is in use, or in the pool of an APD. -/
def Mem.Belongs (k : Mem) (m : ℕ) : Prop :=
  InUse k.log m ∨ ∃ a e, k.apd.live a = true ∧ Reaches k.poolNext (k.apd.cell a).threads e ∧
    (k.apdThread.cell e).mthread = m

/-- The thread with the number `j` of a task, 0 for none. -/
def Mem.slot (k : Mem) (t j : ℕ) : ℕ := if k.task.live t then (k.task.cell t).l4Threads j else 0

/-- How many numbers are left in a task. -/
def Mem.free (c : ThreadConf) (k : Mem) (t : ℕ) : ℤ :=
  if k.task.live t then (k.task.cell t).threadFree else c.l4ThreadsPerTask - 1

/-- The tasks are in the table of tasks. -/
def Mem.Listed (c : ThreadConf) (k : Mem) : Prop :=
  ∀ t, k.task.live t = true → t ≠ 0 ∧ c.l4TaskStart ≤ (k.task.cell t).task.task ∧
    (k.task.cell t).task.task < c.l4TaskStart + c.taskCount ∧
    k.l4Tasks ((k.task.cell t).task.task - c.l4TaskStart) = t

/-- What runs is in use. -/
theorem running_inUse (h : m ∈ running l) : InUse l m := by
  unfold InUse
  induction l with
  | nil => exact absurd h nofun
  | cons e l ih =>
    cases e with
    | created q a =>
      rcases List.mem_cons.mp h with rfl | h
      · exact List.mem_cons_self
      · exact List.mem_cons_of_mem _ (ih h)
    | released q =>
      obtain ⟨hm, hq⟩ := List.mem_filter.mp h
      obtain ⟨⟨m', b⟩, hmb, rfl⟩ := List.mem_map.mp (ih hm)
      refine List.mem_map.mpr ⟨(m', b), ?_, rfl⟩
      exact (List.mem_eraseP_of_neg (by simpa using hq)).mpr hmb
    | deleted q => exact ih (List.mem_filter.mp h).1
    | called | interrupted | replied | closed | merged | bound => exact ih h

theorem not_reaches_zero {next : ℕ → ℕ} {y : ℕ} : ¬ Reaches next 0 y := by
  intro h
  cases h with
  | here hx => exact hx rfl
  | next hx _ => exact hx rfl

/-- A thread that belongs to an APD has its links. -/
theorem Placed.linked {busy : List (ℕ × ℕ)} (h : Placed busy k) (hbusy : handedOut k.log ⊆ busy)
    (hm : k.Belongs m) : ∃ e a, k.Linked m e a := by
  rcases hm with hm | ⟨a, e, ha, hreach, rfl⟩
  · obtain ⟨a, hma⟩ := hm.home
    obtain ⟨-, e, he⟩ := h.home m a (hbusy hma)
    exact ⟨e, a, he⟩
  · obtain ⟨l, hl, hpool⟩ := h.pool a ha
    exact ⟨e, a, (hpool e (hl.mem_of_reaches hreach)).1⟩

/-- Where the pools are the same or smaller, no thread is added. -/
theorem Mem.Belongs.of_pools (hm : k'.Belongs m) (hout : ∀ q, InUse k'.log q → InUse k.log q)
    (hapd : ∀ a, k'.apd.live a = true → k.apd.live a = true ∧
      (k'.apd.cell a).threads = (k.apd.cell a).threads ∨ (k'.apd.cell a).threads = 0)
    (hnext : k'.poolNext = k.poolNext)
    (hthread : ∀ e, (k'.apdThread.cell e).mthread = (k.apdThread.cell e).mthread) :
    k.Belongs m := by
  rcases hm with hm | ⟨a, e, ha, hreach, rfl⟩
  · exact Or.inl (hout m hm)
  · rcases hapd a ha with ⟨hlive, hsame⟩ | hzero
    · rw [hsame, hnext] at hreach
      exact Or.inr ⟨a, e, hlive, hreach, (hthread e).symm⟩
    · rw [hzero] at hreach
      exact absurd hreach not_reaches_zero

/-- Where the pools are as they were, but for the first entry of one, no thread is added. -/
theorem Placed.belongs {busy : List (ℕ × ℕ)} (h : Placed busy k) (hk : Kept k k')
    (hm : k'.Belongs m) (hout : k'.log = k.log)
    (hapd : ∀ a, k'.apd.live a = true → k.apd.live a = true ∧
      ((k'.apd.cell a).threads = (k.apd.cell a).threads ∨
        (k.apd.cell a).threads ≠ 0 ∧ (k'.apd.cell a).threads = k.poolNext (k.apd.cell a).threads)) :
    k.Belongs m := by
  rcases hm with hm | ⟨a, e, ha, hreach, rfl⟩
  · exact Or.inl (by rwa [hout] at hm)
  · obtain ⟨hlive, hthreads⟩ := hapd a ha
    obtain ⟨l, hl, hpool⟩ := h.pool a hlive
    have hsame : ∀ p ∈ l, k'.poolNext p = k.poolNext p ∧
        (k'.apdThread.cell p).mthread = (k.apdThread.cell p).mthread := fun p hp =>
      ⟨(hk.entry p (hpool p hp).1.entry).2.2.2, (hk.entry p (hpool p hp).1.entry).2.2.1⟩
    have hmem : e ∈ l := by
      rcases hthreads with hthreads | ⟨hne, hthreads⟩
      · rw [hthreads] at hreach
        exact (hl.congr fun p hp => (hsame p hp).1).mem_of_reaches hreach
      · cases l with
        | nil => exact absurd hl hne
        | cons p l =>
          obtain ⟨rfl, -, hl⟩ := hl
          rw [hthreads] at hreach
          refine List.mem_cons_of_mem _ (IsChain.mem_of_reaches (hl.congr fun q hq => ?_) hreach)
          exact (hsame q (List.mem_cons_of_mem _ hq)).1
    rw [(hsame e hmem).2]
    exact Or.inr ⟨a, e, hlive, hl.reaches hmem, rfl⟩

/-! ### Nobody moves -/

/-- No thread takes or leaves a seat, and the tasks that are freed are empty. -/
structure Mem.Calm (c : ThreadConf) (k k' : Mem) : Prop where
  running : running k'.log = running k.log
  belongs : ∀ q, k'.Belongs q → k.Belongs q
  threadTask : ∀ q, (k'.mthread.cell q).task = (k.mthread.cell q).task
  threadL4id : ∀ q, (k'.mthread.cell q).l4id = (k.mthread.cell q).l4id
  lthreadOf : ∀ q, k'.lthreadOf q = k.lthreadOf q
  task : k'.task.cell = k.task.cell
  live : ∀ t, k'.task.live t = true → k.task.live t = true
  emptied : ∀ t, k.task.live t = true → k'.task.live t = false →
    ∀ q ∈ Mungi.running k.log, (k.mthread.cell q).task ≠ t
  listed : k.Listed c → k'.Listed c

namespace Mem

theorem Calm.refl (k : Mem) : Calm c k k where
  running := rfl
  belongs := fun _ h => h
  threadTask := fun _ => rfl
  threadL4id := fun _ => rfl
  lthreadOf := fun _ => rfl
  task := rfl
  live := fun _ h => h
  emptied := fun _ h h' => absurd (h.symm.trans h') nofun
  listed := id

theorem Calm.trans (h : Calm c k k') (h' : Calm c k' k'') : Calm c k k'' where
  running := h'.running.trans h.running
  belongs := fun q hq => h.belongs q (h'.belongs q hq)
  threadTask := fun q => (h'.threadTask q).trans (h.threadTask q)
  threadL4id := fun q => (h'.threadL4id q).trans (h.threadL4id q)
  lthreadOf := fun q => (h'.lthreadOf q).trans (h.lthreadOf q)
  task := h'.task.trans h.task
  live := fun t ht => h.live t (h'.live t ht)
  emptied := fun t ht ht' q hq => by
    cases hmid : k'.task.live t with
    | true =>
      rw [← h.threadTask]
      exact h'.emptied t hmid ht' q (h.running ▸ hq)
    | false => exact h.emptied t ht hmid q hq
  listed := fun hl => h'.listed (h.listed hl)

/-- Nothing happens to tasks. -/
theorem Calm.of_tasks (hrunning : Mungi.running k'.log = Mungi.running k.log)
    (hbelongs : ∀ q, k'.Belongs q → k.Belongs q)
    (hthread : ∀ q, (k'.mthread.cell q).task = (k.mthread.cell q).task ∧
      (k'.mthread.cell q).l4id = (k.mthread.cell q).l4id ∧ k'.lthreadOf q = k.lthreadOf q)
    (htask : k'.task = k.task) (hl4Tasks : k'.l4Tasks = k.l4Tasks) : Calm c k k' where
  running := hrunning
  belongs := hbelongs
  threadTask := fun q => (hthread q).1
  threadL4id := fun q => (hthread q).2.1
  lthreadOf := fun q => (hthread q).2.2
  task := by rw [htask]
  live := fun t ht => by rwa [htask] at ht
  emptied := fun t ht ht' => by
    rw [htask, ht] at ht'
    cases ht'
  listed := fun h t ht => by
    rw [htask] at ht ⊢
    rw [hl4Tasks]
    exact h t ht

/-- Events that no thread is in. -/
theorem calm_emit (k : Mem) (e : Event) (hrunning : ∀ l, Mungi.running (e :: l) = Mungi.running l)
    (hout : ∀ l, handedOut (e :: l) = handedOut l) : Calm c k (k.emit e) := by
  refine .of_tasks (hrunning _) (fun q hq => ?_) (fun q => ⟨rfl, rfl, rfl⟩) rfl rfl
  refine Belongs.of_pools hq (fun q hq => ?_) (fun a ha => Or.inl ⟨ha, rfl⟩) rfl fun _ => rfl
  unfold InUse at hq ⊢
  rwa [hout] at hq

/-! ### Queues, hash chains and states -/

/-- The memories agree on who owns what, and on the seats. -/
structure Still (k k' : Mem) : Prop extends Frame k k' where
  task : k'.task = k.task
  l4Tasks : k'.l4Tasks = k.l4Tasks
  lthread : ∀ e, (k'.apdThread.cell e).lthread = (k.apdThread.cell e).lthread

theorem Still.refl (k : Mem) : Still k k := ⟨.refl k, rfl, rfl, fun _ => rfl⟩

theorem Still.trans (h : Still k k') (h' : Still k' k'') : Still k k'' where
  toFrame := h.toFrame.trans h'.toFrame
  task := h'.task.trans h.task
  l4Tasks := h'.l4Tasks.trans h.l4Tasks
  lthread := fun e => (h'.lthread e).trans (h.lthread e)

/-- Other parts of the memory. -/
theorem Still.other (h : Still k k') (waitq : Waitqs ThreadQueue) (mungiThreads : ℕ → ℕ) :
    Still k { k' with waitq, mungiThreads } :=
  ⟨h.toFrame.other waitq mungiThreads k'.l4Tasks k'.nextTid, h.task, h.l4Tasks, h.lthread⟩

theorem Still.waitq (h : Still k k') (waitq : Waitqs ThreadQueue) : Still k { k' with waitq } :=
  h.other waitq k'.mungiThreads

/-- Other fields of a thread. -/
theorem Still.modThread (h : Still k k') (p : ℕ) {f : Mthread → Mthread}
    (hf : ∀ t, (f t).task = t.task ∧ (f t).apdThreadinfo = t.apdThreadinfo ∧
      (f t).PDX = t.PDX ∧ (f t).l4id = t.l4id) : Still k (k'.modThread p f) :=
  ⟨h.toFrame.modThread p hf, h.task, h.l4Tasks, h.lthread⟩

theorem Still.writeTidLink (h : Still k k') (link : Link) (thread : ℕ) :
    Still k (k'.writeTidLink link thread) := by
  cases link with
  | bucket i => exact h.other k'.waitq _
  | next p => exact h.modThread p fun _ => ⟨rfl, rfl, rfl, rfl⟩

theorem Still.threadHashRemove (h : Still k k') (thread : ℕ) :
    Still k (k'.threadHashRemove thread) := by
  unfold Mem.threadHashRemove
  dsimp only
  split_ifs
  · exact h.writeTidLink _ _
  · exact (h.writeTidLink _ _).modThread _ fun _ => ⟨rfl, rfl, rfl, rfl⟩

theorem Still.threadHashInsert (h : Still k k') (thread : ℕ) :
    Still k (k'.threadHashInsert thread) := by
  unfold Mem.threadHashInsert
  dsimp only
  refine Still.modThread (Still.other ?_ _ _) thread fun _ => ⟨rfl, rfl, rfl, rfl⟩
  split_ifs
  · exact h.modThread thread fun _ => ⟨rfl, rfl, rfl, rfl⟩
  · refine Still.modThread ?_ _ fun _ => ⟨rfl, rfl, rfl, rfl⟩
    exact h.modThread thread fun _ => ⟨rfl, rfl, rfl, rfl⟩

theorem still_threadSetupStack (k : Mem) (thread supplied size : ℕ) (newTask : Bool)
    (sup : ThreadSupply) : Still k (k.threadSetupStack thread supplied size newTask sup).2 := by
  have hf := (Frame.refl k).threadSetupStack thread supplied size newTask sup
  have hset : ∀ base e, ((k.setStack thread base size).apdThread.cell e).lthread
      = (k.apdThread.cell e).lthread := by
    intro base e
    dsimp only [setStack]
    refine Heap.modify_field (g := ApdThread.lthread) ?_ e
    exact fun _ => rfl
  unfold Mem.threadSetupStack at hf ⊢
  dsimp only at hf ⊢
  split_ifs at hf ⊢
  all_goals first
    | exact Still.refl k
    | exact ⟨hf, rfl, rfl, hset _⟩

theorem still_wakeWaiters {thread n : ℕ} {skip : Bool}
    (h : wakeWaiters thread n k = some (skip, k')) : Still k k' := by
  induction n generalizing k skip with
  | zero => cases h
  | succ n ih =>
    rw [wakeWaiters] at h
    split_ifs at h
    · obtain ⟨-, rfl⟩ := Prod.mk.inj (Option.some.inj h)
      exact (Still.refl k).waitq _
    · obtain ⟨⟨skip', k₁⟩, h₁, heq⟩ := Option.map_eq_some_iff.mp h
      obtain ⟨-, rfl⟩ := Prod.mk.inj heq
      refine Still.trans ?_ (ih h₁)
      exact ((Still.refl k).waitq _).modThread _ fun _ => ⟨rfl, rfl, rfl, rfl⟩

theorem still_stopWaiting (h : k.stopWaiting fuel m = some k') : Still k k' := by
  have hwoken : Still k (k.modThread m fun t => { t with state := .ok }) :=
    (Still.refl k).modThread m fun _ => ⟨rfl, rfl, rfl, rfl⟩
  unfold stopWaiting at h
  dsimp only at h
  split at h
  · exact Option.some.inj h ▸ hwoken
  · split_ifs at h
    · exact Option.some.inj h ▸ hwoken
    · obtain ⟨w, -, rfl⟩ := Option.map_eq_some_iff.mp h
      exact (hwoken.waitq w).modThread m fun _ => ⟨rfl, rfl, rfl, rfl⟩
  · exact Option.some.inj h ▸ Still.refl k

theorem Still.lthreadOf (h : Still k k') (q : ℕ) : k'.lthreadOf q = k.lthreadOf q := by
  unfold Mem.lthreadOf
  rw [h.threadInfo, h.lthread]

theorem Still.belongs (h : Still k k') {q : ℕ} (hq : k'.Belongs q) : k.Belongs q := by
  refine hq.of_pools (fun q hq => ?_) (fun a ha => ?_) (funext h.entryNext) h.entryThread
  · rwa [h.log] at hq
  · rw [h.apd] at ha ⊢
    exact Or.inl ⟨ha, rfl⟩

theorem Still.calm (h : Still k k') : Calm c k k' :=
  .of_tasks (by rw [h.log]) (fun _ => h.belongs)
    (fun q => ⟨h.threadTask q, h.threadL4id q, h.lthreadOf q⟩) h.task h.l4Tasks

/-! ### Closing -/

/-- The loop of `apd_close` over the tasks frees them, and clears no other places in the table of
tasks than theirs. -/
theorem foldl_taskRelease_listed (tasks : List ℕ) (k : Mem) :
    (∀ t ∈ tasks, (tasks.foldl (taskRelease c) k).task.live t = false) ∧
      ∀ i, (∀ t ∈ tasks, (k.task.cell t).task.task - c.l4TaskStart ≠ i) →
        (tasks.foldl (taskRelease c) k).l4Tasks i = k.l4Tasks i := by
  induction tasks generalizing k with
  | nil => exact ⟨nofun, fun _ _ => rfl⟩
  | cons t tasks ih =>
    obtain ⟨hdead, htable⟩ := ih (k.taskRelease c t)
    refine ⟨fun t' ht' => ?_, fun i hi => ?_⟩
    · by_cases hmem : t' ∈ tasks
      · exact hdead t' hmem
      · obtain rfl := (List.mem_cons.mp ht').resolve_right hmem
        obtain ⟨live, l4Tasks, heq, hlive⟩ := foldl_taskRelease (c := c) tasks (k.taskRelease c t')
        rw [List.foldl_cons, heq]
        exact (hlive t' hmem).trans Heap.live_free_self
    · refine (htable i fun t' ht' => hi t' (List.mem_cons_of_mem _ ht')).trans ?_
      exact Function.update_of_ne (hi t List.mem_cons_self).symm ..

/-- What freeing an APD does to the table of tasks. -/
theorem apdFree_tasks (h : k.apdFree c fuel a = some k') :
    ∃ tasks, IsChain k.taskNext (k.apd.cell a).tasks tasks ∧
      (∀ t ∈ tasks, k'.task.live t = false) ∧
      ∀ i, (∀ t ∈ tasks, (k.task.cell t).task.task - c.l4TaskStart ≠ i) →
        k'.l4Tasks i = k.l4Tasks i := by
  obtain ⟨pool, -, h⟩ := Option.bind_eq_some_iff.mp h
  obtain ⟨tasks, htasks, rfl⟩ := Option.map_eq_some_iff.mp h
  obtain ⟨thread, entry, heq, -⟩ := foldl_freePooled pool k
  have hfold := foldl_taskRelease_listed (c := c) tasks (pool.foldl freePooled k)
  have hfields : (pool.foldl freePooled k).task = k.task ∧
      (pool.foldl freePooled k).l4Tasks = k.l4Tasks := by
    rw [heq]
    exact ⟨rfl, rfl⟩
  generalize pool.foldl freePooled k = k₀ at hfold hfields
  rw [hfields.1, hfields.2] at hfold
  refine ⟨tasks, walk_isChain htasks, ?_⟩
  dsimp only
  generalize tasks.foldl (taskRelease c) k₀ = k₁ at hfold ⊢
  cases (k.apd.cell a).pprev with
  | none => exact hfold
  | some link =>
    obtain ⟨apd, apdTable, hlink, -⟩ := writeApdLink_spec k₁ link (k.apd.cell a).next
    dsimp only
    rw [hlink]
    exact hfold

/-- An APD without threads in use is freed. -/
theorem apdFree_calm (hp : Placed (handedOut k.log) k) (ha : k.apd.live a = true)
    (hidle : ∀ m, (m, a) ∉ handedOut k.log) (h : k.apdFree c fuel a = some k') : Calm c k k' := by
  obtain ⟨tasks, hchain, hdead, htable⟩ := apdFree_tasks h
  obtain ⟨pool, tasks', hf⟩ := apdFree_freed h
  obtain rfl := hchain.unique hf.tasksChain
  obtain ⟨tasks', hchain', hof⟩ := hp.tasks a ha
  obtain rfl := hchain.unique hchain'
  have hlive : ∀ t, k'.task.live t = true → t ∉ tasks ∧ k.task.live t = true := by
    intro t ht
    have hmem : t ∉ tasks := fun hmem => by
      rw [hdead t hmem] at ht
      cases ht
    exact ⟨hmem, by rwa [hf.taskLive t hmem] at ht⟩
  constructor
  · rw [hf.log]
    rfl
  · intro q hq
    refine hq.of_pools (fun q hq => ?_) (fun b hb => ?_) (funext fun e => ?_) fun e => ?_
    · rwa [hf.log] at hq
    · rw [hf.apdLive] at hb
      split_ifs at hb
      rw [hf.apdCell]
      exact Or.inl ⟨hb, rfl⟩
    · unfold poolNext
      rw [hf.entryCell]
    · rw [hf.entryCell]
  · intro q
    rw [hf.threadCell]
  · intro q
    rw [hf.threadCell]
  · intro q
    unfold Mem.lthreadOf
    rw [hf.threadCell, hf.entryCell]
  · exact hf.taskCell
  · exact fun t ht => (hlive t ht).2
  · intro t ht ht' q hq heq
    have hmem : t ∈ tasks := by
      by_contra hmem
      rw [hf.taskLive t hmem, ht] at ht'
      cases ht'
    obtain ⟨b, hqb⟩ := (running_inUse hq).home
    obtain ⟨-, e, he⟩ := hp.home q b hqb
    have hb := he.apd
    unfold apdOf at hb
    rw [heq, (hof t hmem).2] at hb
    exact hidle q (hb ▸ hqb)
  · intro hl t ht
    obtain ⟨hmem, ht⟩ := hlive t ht
    obtain ⟨h₀, h₁, h₂, h₃⟩ := hl t ht
    rw [hf.taskCell]
    refine ⟨h₀, h₁, h₂, ?_⟩
    rw [htable, h₃]
    -- two tasks in the same place would be one
    intro t' ht' heq
    have h₃' := (hl t' (hof t' ht').1).2.2.2
    rw [heq, h₃] at h₃'
    exact hmem (h₃' ▸ ht')

theorem apdClose_calm (hp : Placed (handedOut k.log) k) (ha : k.apd.live a = true)
    (hidle : (k.apd.cell a).users = 0 → ∀ m, (m, a) ∉ handedOut k.log) {freed : Bool}
    (h : k.apdClose c fuel a = some (freed, k')) : Calm c k k' := by
  unfold apdClose at h
  dsimp only at h
  have hremove : Calm c k (if (k.apd.cell a).closing then k else k.apdPdxCacheRemove a) ∧
      Placed (handedOut k.log) (if (k.apd.cell a).closing then k else k.apdPdxCacheRemove a) ∧
      (if (k.apd.cell a).closing then k else k.apdPdxCacheRemove a).apd = k.apd ∧
      (if (k.apd.cell a).closing then k else k.apdPdxCacheRemove a).log = k.log := by
    split_ifs
    · exact ⟨.refl k, hp, rfl, rfl⟩
    · refine ⟨.of_tasks rfl (fun q hq => hq) (fun _ => ⟨rfl, rfl, rfl⟩) rfl rfl, ?_, rfl, rfl⟩
      exact hp.kept rfl (fun _ _ => rfl) (fun _ _ => rfl) (.of_eq rfl rfl rfl)
  generalize (if (k.apd.cell a).closing then k else k.apdPdxCacheRemove a) = k₀ at h hremove
  obtain ⟨hcalm, hp₀, hapd, hlog⟩ := hremove
  rw [← hapd] at ha hidle
  rw [← hlog] at hp₀ hidle
  split_ifs at h with husers
  · obtain ⟨-, rfl⟩ := Prod.mk.inj (Option.some.inj h)
    refine hcalm.trans (.of_tasks rfl (fun q hq => ?_) (fun _ => ⟨rfl, rfl, rfl⟩) rfl rfl)
    refine hq.of_pools (fun _ hq => hq) (fun b hb => Or.inl ⟨hb, ?_⟩) rfl fun _ => rfl
    dsimp only
    refine Heap.modify_field (g := Apd.threads) ?_ b
    exact fun _ => rfl
  · obtain ⟨k₁, hfree, heq⟩ := Option.map_eq_some_iff.mp h
    obtain ⟨-, rfl⟩ := Prod.mk.inj heq
    exact hcalm.trans (apdFree_calm hp₀ ha (hidle (not_not.mp husers)) hfree)

/-! ### Reaping -/

/-- What `thread_release` does to seats, up to the closing of the APD: nothing. -/
structure Pooled (k : Mem) (m : ℕ) (k' : Mem) : Prop where
  log : k'.log = .released m :: k.log
  belongs : ∀ q, k'.Belongs q → k.Belongs q
  threadTask : ∀ q, (k'.mthread.cell q).task = (k.mthread.cell q).task
  threadL4id : ∀ q, (k'.mthread.cell q).l4id = (k.mthread.cell q).l4id
  lthreadOf : ∀ q, k'.lthreadOf q = k.lthreadOf q
  task : k'.task = k.task
  l4Tasks : k'.l4Tasks = k.l4Tasks

theorem pushed_pooled (hp : Placed (handedOut k.log) k) (hm : InUse k.log m) :
    Pooled k m (k.pushed m) := by
  obtain ⟨a, hma⟩ := hm.home
  obtain ⟨ha, e, he⟩ := hp.home m a hma
  have hs := (Still.refl k).threadHashRemove m
  unfold pushed
  generalize k.threadHashRemove m = k₀ at hs
  dsimp only
  rw [he.apd, hs.threadInfo, he.info, hs.apd]
  generalize hk' : (((k₀.modApd a fun x =>
    { x with threads := e, users := x.users - 1 }).modApdThread e fun e =>
      { e with next := (k.apd.cell a).threads }).emit (.released m) : Mem) = k'
  have hlog : k'.log = .released m :: k.log := by rw [← hk', ← hs.log]
  have hthread : k'.mthread = k₀.mthread := by rw [← hk']
  have hentry : k'.apdThread = k₀.apdThread.modify e fun e =>
      { e with next := (k.apd.cell a).threads } := by rw [← hk']
  have hapd : k'.apd = k.apd.modify a fun x => { x with threads := e, users := x.users - 1 } := by
    rw [← hk', ← hs.apd]
  have hmthread : ∀ p, (k'.apdThread.cell p).mthread = (k.apdThread.cell p).mthread := by
    intro p
    rw [hentry, ← hs.entryThread]
    refine Heap.modify_field (g := ApdThread.mthread) ?_ p
    exact fun _ => rfl
  have hnext : ∀ p, p ≠ e → k'.poolNext p = k.poolNext p := by
    intro p hpe
    unfold poolNext
    rw [hentry, Heap.cell_modify_of_ne hpe, hs.entryNext]
  -- the pool is the old one with the entry of the thread in front
  have hpool : ∀ b p, k.apd.live b = true →
      Reaches k'.poolNext (k'.apd.cell b).threads p →
        p = e ∨ Reaches k.poolNext (k.apd.cell b).threads p := by
    intro b p hb hreach
    obtain ⟨l, hl, -⟩ := hp.pool b hb
    have hnot := hp.not_mem_pool hma he hb hl
    have hl' : IsChain k'.poolNext (k.apd.cell b).threads l :=
      hl.congr fun p hpl => hnext p fun heq => hnot (heq ▸ hpl)
    by_cases hba : b = a
    · have hcell : (k'.apd.cell b).threads = e := by
        rw [hba, hapd, Heap.cell_modify_self]
      have hhead : k'.poolNext e = (k.apd.cell b).threads := by
        unfold poolNext
        rw [hentry, Heap.cell_modify_self, hba]
      rw [hcell] at hreach
      have hcons : IsChain k'.poolNext e (e :: l) := ⟨rfl, he.entryNe, hhead.symm ▸ hl'⟩
      rcases List.mem_cons.mp (hcons.mem_of_reaches hreach) with heq | hpl
      · exact Or.inl heq
      · exact Or.inr (hl.reaches hpl)
    · have hcell : (k'.apd.cell b).threads = (k.apd.cell b).threads := by
        rw [hapd, Heap.cell_modify_of_ne hba]
      rw [hcell] at hreach
      exact Or.inr (hl.reaches (hl'.mem_of_reaches hreach))
  refine ⟨hlog, fun q hq => ?_, fun q => ?_, fun q => ?_, fun q => ?_, ?_, ?_⟩
  · rcases hq with hq | ⟨b, p, hb, hreach, rfl⟩
    · refine Or.inl ?_
      unfold InUse at hq ⊢
      rw [hlog] at hq
      exact (List.eraseP_sublist.map _).subset hq
    · rw [hapd] at hb
      rw [hmthread]
      rcases hpool b p hb hreach with rfl | hreach
      · rw [he.mthread]
        exact Or.inl hm
      · exact Or.inr ⟨b, p, hb, hreach, rfl⟩
  · rw [hthread, hs.threadTask]
  · rw [hthread, hs.threadL4id]
  · rw [← hs.lthreadOf]
    unfold Mem.lthreadOf
    rw [hthread, hentry]
    refine Heap.modify_field (g := ApdThread.lthread) ?_ _
    exact fun _ => rfl
  · rw [← hk', ← hs.task]
  · rw [← hk', ← hs.l4Tasks]

end Mem

variable {T : ℕ → ℤ → Bool → Prop}

/-- The APD of a thread that has just been released. -/
theorem Owned.pushed (ht : Tally T) (h : Owned T k) (hm : InUse k.log m) :
    Placed (handedOut (k.pushed m).log) (k.pushed m) ∧
      (k.pushed m).apd.live (k.apdOf m) = true ∧
      (((k.pushed m).apd.cell (k.apdOf m)).users = 0 →
        ∀ q, (q, k.apdOf m) ∉ handedOut (k.pushed m).log) := by
  obtain ⟨a, hma⟩ := hm.home
  obtain ⟨ha, e, he⟩ := h.placed.home m a hma
  have hpushed := k.pushed_pushed m
  have hperm := handedOut_released hma h.placed.nodup
  rw [← hpushed.log] at hperm
  have hplaced := hpushed.placed (handedOut (k.pushed m).log)
  have husers := hpushed.users a
  rw [he.apd] at hplaced husers ⊢
  rw [if_pos rfl] at husers
  refine ⟨hplaced (h.placed.perm hperm), by rw [hpushed.live, ha], fun hzero => ?_⟩
  have hcount : threadsOf (handedOut k.log) a
      = threadsOf (handedOut (k.pushed m).log) a + if a = a then 1 else 0 :=
    (hperm.countP_eq _).trans (threadsOf_cons m a a _)
  rw [if_pos rfl] at hcount
  have hle := ht.le (h.tally a ha)
  rw [hzero] at husers
  exact threadsOf_eq_zero.mp (by omega)

namespace Mem

/-- Reaping a thread that has left its seat. -/
theorem threadRelease_calm (ht : Tally T) (h : Owned T k) (hm : InUse k.log m)
    (hrun : m ∉ running k.log) (hr : k.threadRelease c fuel m = some k') : Calm c k k' := by
  have hpooled := pushed_pooled h.placed hm
  obtain ⟨hplaced, hlive, hidle⟩ := h.pushed ht hm
  have hcalm : Calm c k (k.pushed m) := by
    refine .of_tasks ?_ hpooled.belongs
      (fun q => ⟨hpooled.threadTask q, hpooled.threadL4id q, hpooled.lthreadOf q⟩) hpooled.task
      hpooled.l4Tasks
    rw [hpooled.log]
    refine List.filter_eq_self.mpr fun q hq => ?_
    have hne : q ≠ m := by
      rintro rfl
      exact hrun hq
    simpa using hne
  rw [threadRelease_eq] at hr
  split_ifs at hr
  · obtain ⟨⟨freed, k₁⟩, hclose, rfl⟩ := Option.map_eq_some_iff.mp hr
    exact hcalm.trans (apdClose_calm hplaced hlive hidle hclose)
  · rwa [← Option.some.inj hr]

theorem notifyWaiters_calm (ht : Tally T) (h : Owned T k) {item : ℕ} (hm : InUse k.log m)
    (hrun : m ∉ running k.log) (hn : k.notifyWaiters c fuel item m = some k') : Calm c k k' := by
  obtain ⟨⟨skip, k₁⟩, h₁, h₂⟩ := Option.bind_eq_some_iff.mp hn
  have hs := still_wakeWaiters h₁
  dsimp only at h₂
  split_ifs at h₂
  · have hs' := hs.modThread m (f := fun t => { t with state := .dead })
      fun _ => ⟨rfl, rfl, rfl, rfl⟩
    refine hs'.calm.trans (threadRelease_calm ht (h.frame hs'.toFrame) ?_ ?_ h₂)
    · rwa [hs'.log]
    · rwa [hs'.log]
  · obtain ⟨w, -, rfl⟩ := Option.map_eq_some_iff.mp h₂
    exact (hs.waitq _).calm
  · rw [← Option.some.inj h₂]
    exact hs.calm

/-! ### Leaving -/

/-- The thread `m`, which runs, leaves its seat and does not run any more. -/
structure Left (m : ℕ) (k k' : Mem) : Prop where
  runs : m ∈ Mungi.running k.log
  running : Mungi.running k'.log = (Mungi.running k.log).filter fun q => q ≠ m
  belongs : ∀ q, k'.Belongs q → k.Belongs q
  threadTask : ∀ q, (k'.mthread.cell q).task = (k.mthread.cell q).task
  threadL4id : ∀ q, (k'.mthread.cell q).l4id = (k.mthread.cell q).l4id
  lthreadOf : ∀ q, k'.lthreadOf q = k.lthreadOf q
  live : k'.task.live = k.task.live
  number : ∀ t, (k'.task.cell t).task = (k.task.cell t).task
  l4Threads : ∀ t, (k'.task.cell t).l4Threads = if t = (k.mthread.cell m).task then
    Function.update (k.task.cell t).l4Threads (k.lthreadOf m) 0 else (k.task.cell t).l4Threads
  threadFree : ∀ t, (k'.task.cell t).threadFree = if t = (k.mthread.cell m).task then
    (k.task.cell t).threadFree + 1 else (k.task.cell t).threadFree
  l4Tasks : k'.l4Tasks = k.l4Tasks

theorem Left.of_task (hrun : m ∈ Mungi.running k.log)
    (hrunning : Mungi.running k'.log = (Mungi.running k.log).filter fun q => q ≠ m)
    (hbelongs : ∀ q, k'.Belongs q → k.Belongs q)
    (hthread : ∀ q, (k'.mthread.cell q).task = (k.mthread.cell q).task ∧
      (k'.mthread.cell q).l4id = (k.mthread.cell q).l4id ∧ k'.lthreadOf q = k.lthreadOf q)
    (htask : k'.task = (k.l4taskThreadRemove m).task) (hl4Tasks : k'.l4Tasks = k.l4Tasks) :
    Left m k k' where
  runs := hrun
  running := hrunning
  belongs := hbelongs
  threadTask := fun q => (hthread q).1
  threadL4id := fun q => (hthread q).2.1
  lthreadOf := fun q => (hthread q).2.2
  live := by
    rw [htask]
    rfl
  number := fun t => by
    rw [htask]
    dsimp only [l4taskThreadRemove]
    refine Heap.modify_field (g := L4Task.task) ?_ t
    exact fun _ => rfl
  l4Threads := fun t => by
    rw [htask]
    dsimp only [l4taskThreadRemove]
    rw [Heap.cell_modify]
    split_ifs with ht
    · rw [ht]
      rfl
    · rfl
  threadFree := fun t => by
    rw [htask]
    dsimp only [l4taskThreadRemove]
    rw [Heap.cell_modify]
    split_ifs with ht
    · rw [ht]
    · rfl
  l4Tasks := hl4Tasks

/-- What vacating a seat leaves alone. -/
theorem belongs_l4taskThreadRemove {q : ℕ} (hq : (k.l4taskThreadRemove m).Belongs q) :
    k.Belongs q :=
  hq.of_pools (fun _ hq => hq) (fun _ ha => Or.inl ⟨ha, rfl⟩) rfl fun _ => rfl

/-- The thread leaves its seat when it is deleted. -/
theorem deleted_left (hrun : m ∈ running k.log) :
    Left m k ((k.emit (.deleted m)).l4taskThreadRemove m) := by
  refine .of_task hrun rfl (fun q hq => ?_) (fun _ => ⟨rfl, rfl, rfl⟩) rfl rfl
  exact hq.of_pools (fun _ hq => hq) (fun _ ha => Or.inl ⟨ha, rfl⟩) rfl fun _ => rfl

/-- A PDX thread leaves its seat and is reaped at once. -/
theorem pushed_left (hp : Placed (handedOut k.log) k) (hrun : m ∈ running k.log) :
    Left m k ((k.l4taskThreadRemove m).pushed m) := by
  have hframe := (Frame.refl k).l4taskThreadRemove m
  have hpooled := pushed_pooled (k := k.l4taskThreadRemove m) (hp.frame hframe)
    (running_inUse hrun)
  refine .of_task hrun ?_ (fun q hq => belongs_l4taskThreadRemove (hpooled.belongs q hq))
    (fun q => ⟨hpooled.threadTask q, hpooled.threadL4id q, hpooled.lthreadOf q⟩) hpooled.task
    hpooled.l4Tasks
  rw [hpooled.log]
  rfl

/-- A thread leaves its seat, and nobody else moves. -/
def Departed (c : ThreadConf) (k k' : Mem) : Prop :=
  ∃ m k₁ k₂, Still k k₁ ∧ Left m k₁ k₂ ∧ Calm c k₂ k'

theorem doThreadsDelete_seats (ht : Tally T) (h : Owned T k) {item : ℕ} {status : ℤ}
    (hrun : m ∈ running k.log) (hd : k.doThreadsDelete c fuel item m status = some k') :
    Calm c k k' ∨ Departed c k k' := by
  obtain ⟨k₁, h₁, h₂⟩ := Option.bind_eq_some_iff.mp hd
  have hs := still_stopWaiting h₁
  split_ifs at h₂
  · rw [← Option.some.inj h₂]
    exact Or.inl (hs.calm.trans (calm_emit k₁ _ (fun _ => rfl) fun _ => rfl))
  · have hrun₁ : m ∈ running k₁.log := by rwa [hs.log]
    have hleft := deleted_left hrun₁
    have hstate := (Still.refl ((k₁.emit (.deleted m)).l4taskThreadRemove m)).modThread m
      (f := fun t => { t with lasterror := status, state := .zombie })
      fun _ => ⟨rfl, rfl, rfl, rfl⟩
    refine Or.inr ⟨m, k₁, _, hs, hleft, hstate.calm.trans ?_⟩
    have howned := ((h.frame hs.toFrame).withEvents [.deleted m] (fun _ => rfl)
      fun _ hl => ⟨nofun, hl⟩).frame ((Frame.refl _).l4taskThreadRemove m)
    have hin : InUse (.deleted m :: k₁.log) m := running_inUse (l := k₁.log) hrun₁
    have hout : m ∉ Mungi.running (.deleted m :: k₁.log) := by simp [Mungi.running]
    exact notifyWaiters_calm ht (howned.frame hstate.toFrame) hin hout h₂

/-! ### The calls that end threads -/

theorem threadDelete_seats (ht : Tally T) (h : Owned T k) {item tid caller : ℕ} {status : ℤ}
    {goes : Bool} (hm : ∀ m, k.deleteTarget fuel tid caller = some m → m ∈ running k.log)
    (hd : k.threadDelete c fuel item tid status caller = some (goes, k')) :
    Calm c k k' ∨ Departed c k k' := by
  obtain ⟨child, hchild, h₁⟩ := Option.bind_eq_some_iff.mp hd
  unfold deleteTarget at hm
  rw [hchild, Option.bind_some] at hm
  dsimp only at h₁ hm
  split_ifs at h₁ hm with hno
  · rw [← (Prod.mk.inj (Option.some.inj h₁)).2]
    exact Or.inl (.refl k)
  · obtain ⟨k₁, hk₁, heq⟩ := Option.map_eq_some_iff.mp h₁
    obtain ⟨-, rfl⟩ := Prod.mk.inj heq
    exact doThreadsDelete_seats ht h (hm child rfl) hk₁

theorem threadWait_calm (ht : Tally T) (h : Owned T k) {item tid caller : ℕ} {ret : WaitReturn}
    (hm : ∀ m, k.waitTarget fuel tid caller = some m → InUse k.log m ∧ m ∉ running k.log)
    (hw : k.threadWait c fuel item tid caller = some (ret, k')) : Calm c k k' := by
  have hreap : ∀ m k₁, Still k k₁ → InUse k.log m ∧ m ∉ running k.log →
      k₁.threadRelease c fuel m = some k' → Calm c k k' := by
    rintro m k₁ hs ⟨hin, hrun⟩ hr
    refine hs.calm.trans (threadRelease_calm ht (h.frame hs.toFrame) ?_ ?_ hr)
    · rwa [hs.log]
    · rwa [hs.log]
  unfold threadWait at hw
  unfold waitTarget at hm
  dsimp only at hw hm
  by_cases htid : tid = 0
  · rw [if_pos htid] at hw hm
    have hs := (Still.refl k).waitq (waitqRemove k.waitq (.zombies caller)).2
    split_ifs at hw with hchild
    · obtain ⟨k₁, hk₁, heq⟩ := Option.map_eq_some_iff.mp hw
      obtain ⟨-, rfl⟩ := Prod.mk.inj heq
      exact hreap _ _ hs (hm _ (if_neg hchild)) hk₁
    · obtain ⟨-, rfl⟩ := Prod.mk.inj (Option.some.inj hw)
      refine Still.calm (hs.modThread caller ?_)
      exact fun _ => ⟨rfl, rfl, rfl, rfl⟩
    · obtain ⟨-, rfl⟩ := Prod.mk.inj (Option.some.inj hw)
      exact hs.calm
  · rw [if_neg htid] at hw hm
    obtain ⟨child, hchild, h₁⟩ := Option.bind_eq_some_iff.mp hw
    rw [hchild, Option.bind_some] at hm
    split_ifs at h₁ with hno hzombie
    · obtain ⟨-, rfl⟩ := Prod.mk.inj (Option.some.inj h₁)
      exact .refl k
    · obtain ⟨w, -, h₂⟩ := Option.bind_eq_some_iff.mp h₁
      obtain ⟨k₁, hk₁, heq⟩ := Option.map_eq_some_iff.mp h₂
      obtain ⟨-, rfl⟩ := Prod.mk.inj heq
      refine hreap child _ ((Still.refl k).waitq w) (hm child (if_pos ⟨?_, hzombie⟩)) hk₁
      exact fun h0 => hno (Or.inl h0)
    · obtain ⟨w, -, heq⟩ := Option.map_eq_some_iff.mp h₁
      split_ifs at heq
      · obtain ⟨-, rfl⟩ := Prod.mk.inj heq
        refine Still.calm (((Still.refl k).waitq w.2).modThread caller ?_)
        exact fun _ => ⟨rfl, rfl, rfl, rfl⟩
      · obtain ⟨-, rfl⟩ := Prod.mk.inj heq
        exact ((Still.refl k).waitq w.2).calm

theorem sysThreadReturn_seats (ht : Tally T) (h : Owned T k) {item : ℕ} {status : ℤ}
    (hrun : m ∈ running k.log) (hr : k.sysThreadReturn c fuel item status m = some k') :
    Calm c k k' ∨ Departed c k k' := by
  by_cases hpdx : (k.mthread.cell m).PDX = 0
  · obtain ⟨goes, hd⟩ := sysThreadReturn_other hpdx hr
    refine threadDelete_seats ht h (fun m' hm' => ?_) hd
    rwa [deleteTarget_self hm']
  · obtain ⟨k₁, hrelease, rfl⟩ := sysThreadReturn_pdx hpdx hr
    have howned := h.frame ((Frame.refl k).l4taskThreadRemove m)
    obtain ⟨hplaced, hlive, hidle⟩ := howned.pushed ht (running_inUse hrun)
    have hemit := calm_emit (c := c) k₁ (.replied m (k₁.mthread.cell (k₁.mthread.cell m).PDX).l4id)
      (fun _ => rfl) fun _ => rfl
    refine Or.inr ⟨m, k, _, .refl k, pushed_left h.placed hrun, Calm.trans ?_ hemit⟩
    rw [threadRelease_eq] at hrelease
    split_ifs at hrelease
    · obtain ⟨⟨freed, k₂⟩, hclose, rfl⟩ := Option.map_eq_some_iff.mp hrelease
      exact apdClose_calm hplaced hlive hidle hclose
    · rw [Option.some.inj hrelease]
      exact .refl k₁

/-! ### APDs -/

theorem excptReg_calm (k : Mem) (thread handler : ℕ) : Calm c k (k.excptReg thread handler) := by
  refine Still.calm ((Still.refl k).modThread thread ?_)
  exact fun _ => ⟨rfl, rfl, rfl, rfl⟩

/-- Closing an APD. -/
theorem close_calm (ht : Tally T) (h : Owned T k) (ha : k.apd.live a = true) {freed : Bool}
    (hc : k.apdClose c fuel a = some (freed, k')) : Calm c k k' := by
  refine apdClose_calm h.placed ha (fun husers => threadsOf_eq_zero.mp ?_) hc
  have hle := ht.le (h.tally a ha)
  omega

/-- Making an APD does not move threads, if the new APD has none. -/
theorem ApdsKept.calm (h : ApdsKept k a k') (hl4Tasks : k'.l4Tasks = k.l4Tasks)
    (hpool : ∀ b, k'.apd.live b = true → k.apd.live b = true ∨ (k'.apd.cell b).threads = 0) :
    Calm c k k' := by
  refine .of_tasks (by rw [h.log]) (fun q hq => ?_) (fun q => ?_) h.task hl4Tasks
  · refine hq.of_pools (fun q hq => ?_) (fun b hb => ?_) (funext fun e => ?_) fun e => ?_
    · rwa [h.log] at hq
    · rcases hpool b hb with hlive | hzero
      · exact Or.inl ⟨hlive, (h.fields hlive).2.2.1⟩
      · exact Or.inr hzero
    · unfold poolNext
      rw [h.apdThread]
    · rw [h.apdThread]
  · unfold Mem.lthreadOf
    rw [h.mthread, h.apdThread]
    exact ⟨rfl, rfl, rfl⟩

theorem NotMade.calm (h : NotMade k a k') (hl4Tasks : k'.l4Tasks = k.l4Tasks) : Calm c k k' :=
  h.toApdsKept.calm hl4Tasks fun _ hb => Or.inl (h.live ▸ hb)

theorem Made.calm {x : Apd} (h : Made k a x k') (hthreads : x.threads = 0)
    (hl4Tasks : k'.l4Tasks = k.l4Tasks) : Calm c k k' := by
  refine h.toApdsKept.calm hl4Tasks fun b hb => ?_
  by_cases hba : b = a
  · exact Or.inr (hba ▸ (Apd.use_eq h.use).2.2.1.trans hthreads)
  · rw [h.live, if_neg hba] at hb
    exact Or.inl hb

theorem apdFromTemplate_calm {os : Kernel O} {pd : ApdDesc} {sup : ApdSupply}
    (hm : k.apdFromTemplate os pd sup = some (a, k')) : Calm c k k' := by
  have htable := apdFromTemplate_l4Tasks hm
  rcases apdFromTemplate_made hm with ⟨-, hnot⟩ | ⟨-, hmade⟩
  · exact hnot.calm htable
  · exact hmade.calm rfl htable

theorem apdFindOrCreate_calm {os : Kernel O} {addr : ℕ} {pd : ApdDesc} {sup : ApdSupply}
    (hm : k.apdFindOrCreate c os fuel addr pd sup = some (a, k')) : Calm c k k' := by
  have htable := apdFindOrCreate_l4Tasks hm
  rcases apdFindOrCreate_made hm with rfl | ⟨-, hnot⟩ | ⟨-, hmade⟩
  · exact .refl _
  · exact hnot.calm htable
  · exact hmade.calm rfl htable

/-- The cache has no threads in it. -/
theorem calm_pdxCache (k : Mem) (table : ℕ → ApdPdxCacheEntry) :
    Calm c k { k with apdPdxCache := table } :=
  .of_tasks rfl (fun _ hq => hq) (fun _ => ⟨rfl, rfl, rfl⟩) rfl rfl

theorem apdPdxCacheLookup_calm (ht : Tally T) (h : Owned T k) {now orig : ℕ} {clist : Cap}
    {r : Option (ℕ × ApdCacheId)}
    (hl : k.apdPdxCacheLookup c fuel now orig clist = some (r, k')) : Calm c k k' := by
  unfold apdPdxCacheLookup at hl
  split at hl
  · obtain ⟨-, rfl⟩ := Prod.mk.inj (Option.some.inj hl)
    exact .refl _
  · next i hfind =>
    dsimp only at hl
    split_ifs at hl
    · obtain ⟨⟨freed, k₁⟩, hclose, heq⟩ := Option.map_eq_some_iff.mp hl
      obtain ⟨-, rfl⟩ := Prod.mk.inj heq
      have hi := List.mem_range.mp (List.mem_of_find?_eq_some hfind)
      have htest := List.find?_some hfind
      exact close_calm ht h (h.cached i hi (of_decide_eq_true htest).2.2).1 hclose
    · obtain ⟨-, rfl⟩ := Prod.mk.inj (Option.some.inj hl)
      exact .refl _

theorem apdPdxCacheInsert_calm (ht : Tally T) (h : Owned T k) {now orig : ℕ} {clist : Cap}
    {id : ApdCacheId} (hi : k.apdPdxCacheInsert c fuel now orig clist a = some (id, k')) :
    Calm c k k' := by
  unfold apdPdxCacheInsert at hi
  split at hi
  · obtain ⟨-, rfl⟩ := Prod.mk.inj (Option.some.inj hi)
    exact calm_pdxCache k _
  · next hfull =>
    have hlast : apdPdxCacheSize - 1 < apdPdxCacheSize := by decide
    have hne : (k.apdPdxCache (apdPdxCacheSize - 1)).apd ≠ 0 := by
      have := List.find?_eq_none.mp hfull _ (List.mem_range.mpr hlast)
      simpa using this
    obtain ⟨⟨freed, k₁⟩, hclose, heq⟩ := Option.map_eq_some_iff.mp hi
    obtain ⟨-, rfl⟩ := Prod.mk.inj heq
    exact (close_calm ht h (h.cached _ hlast hne).1 hclose).trans (calm_pdxCache k₁ _)

/-- **A PDX merge moves no threads**, if the copy of the original may be made. -/
theorem apdPdxMerge_calm (ht : Tally T) (h : Owned T k) {now now' orig : ℕ} {clist : Cap}
    {sup : ApdSupply} {r : Option (ℕ × ApdCacheId)}
    (hcopy : ∀ k₁, k.apdPdxCacheLookup c fuel now orig clist = some (none, k₁) → r ≠ none →
      Owned T k₁ → orig = 0 ∨ k₁.apd.live orig = true ∧ (k₁.apd.cell orig).threads = 0 ∧
        T 0 (k₁.apd.cell orig).users (k₁.apd.cell orig).closing)
    (hm : k.apdPdxMerge c fuel now now' orig clist sup = some (r, k')) : Calm c k k' := by
  obtain ⟨⟨found, k₁⟩, hlook, hm⟩ := Option.bind_eq_some_iff.mp hm
  have h₁ := h.apdPdxCacheLookup ht hlook
  have hcalm := apdPdxCacheLookup_calm ht h hlook
  cases found with
  | some found =>
    obtain ⟨-, rfl⟩ := Prod.mk.inj (Option.some.inj hm)
    exact hcalm
  | none =>
    rcases apdPdxBuild_tabled hm with ⟨-, hnot, htable⟩ | ⟨k₂, id, hr, hmade, htable, hinsert⟩
    · exact hcalm.trans (hnot.calm htable)
    · obtain ⟨hthreads, htasks, hT⟩ := h₁.cloned ht sup.apd fun h₁ =>
        hcopy k₁ hlook (by rw [hr]; nofun) h₁
      have h₃ := (h₁.made hmade hthreads htasks hT).withEvents
        [.merged orig (k₁.apd.cell orig).serial clist sup.apd k₁.apdSerial]
        (fun _ => rfl) fun _ hl => ⟨nofun, hl⟩
      have hemit := calm_emit (c := c) k₂
        (.merged orig (k₁.apd.cell orig).serial clist sup.apd k₁.apdSerial) (fun _ => rfl)
        fun _ => rfl
      exact (hcalm.trans (hmade.calm hthreads htable)).trans
        (hemit.trans (apdPdxCacheInsert_calm ht h₃ hinsert))

end Mem

end Mungi
