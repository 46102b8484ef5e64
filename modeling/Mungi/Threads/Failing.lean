import Mungi.Threads.Entering
import Mungi.Threads.Homes

/-!
# Creations that fail

A creation takes a structure, a task, a place in the pool, a stack and a new thread of the task, one
after the other, and each of them may not be there.  It never takes back that it has counted a user
of the APD.  When it fails after `l4task_thread_add`, the structure is freed but stays in the table
of threads, and nobody looks whether there is a stack at all.

## Main definitions

* `Mem.CreateFails`, `Mem.PdxCreateFails` — the points at which a creation can fail.
* `Mem.Traceless` — what is to be as before.
* `Mem.CreateClean`, `Mem.PdxCreateClean` — the call fails, and leaves no trace.

## Main results

* `creation_clean_iff` — **when creations that fail leave no trace.**
* `threadCreate_stray`, `threadPdxCreate_stray` — a thread that could not be started stays in the
  table.
* `threadCreate_unstacked`, `threadPdxCreate_unstacked` — a thread without a stack is started.
-/

namespace Mungi

open Chain Runs Mem

variable {c : ThreadConf} {k k' : Mem} {fuel a m parent caller supplied size : ℕ}
  {sup : ThreadSupply}

/-! ### Where a creation can fail -/

/-- `apd_get_stack` fails when `thread_setup_stack` needs it. -/
def Mem.StackFails (k : Mem) (thread supplied size : ℕ) (newTask : Bool) (sup : ThreadSupply) :
    Prop :=
  let entry := k.apdThread.cell (k.mthread.cell thread).apdThreadinfo
  if newTask then sup.stack = 0 ∨ supplied = 0 ∧ sup.userStack = 0
  else supplied = 0 ∧ ¬ (entry.stackBase ≠ 0 ∧ entry.stackSize ≥ size) ∧ sup.stack = 0

instance (k : Mem) (thread supplied size : ℕ) (newTask : Bool) (sup : ThreadSupply) :
    Decidable (k.StackFails thread supplied size newTask sup) := by
  unfold Mem.StackFails
  infer_instance

/-- `start_task` or `upcall_create` fails, whichever `thread_create` needs. -/
def Mem.StartFails (k : Mem) (got : GotMthread) (parent : ℕ) (sup : ThreadSupply) : Prop :=
  if got.newTask ∨ parent = 0 then sup.started = none
  else (k.task.cell (k.mthread.cell got.new).task).task.task
      ≠ (k.task.cell (k.mthread.cell parent).task).task.task ∧ sup.upcallCreate = true

/-- **`thread_create` cannot do what it is called for**: there is no structure, no task or no record
for the pool, there is no stack, or the thread cannot be started. -/
def Mem.CreateFails (c : ThreadConf) (k : Mem) (fuel apd parent supplied size : ℕ)
    (sup : ThreadSupply) : Prop :=
  ∃ r ∈ k.threadGetMthread c fuel apd parent sup, r.1.new = 0 ∨
    r.2.StackFails r.1.new supplied size r.1.newTask sup ∨
      ∃ k₂ ∈ (r.2.threadSetupStack r.1.new supplied size r.1.newTask sup).2.l4taskThreadAdd c
          r.1.new,
        k₂.StartFails r.1 parent sup

/-- The thread of a PDX call. -/
def Mem.forPdx (k : Mem) (thread caller : ℕ) : Mem :=
  k.modThread thread fun t => { t with PDX := caller }

/-- **`thread_pdx_create` cannot do what it is called for.**  A thread from the pool is started by
the answer to the call. -/
def Mem.PdxCreateFails (c : ThreadConf) (k : Mem) (fuel apd caller : ℕ) (sup : ThreadSupply) :
    Prop :=
  ∃ r ∈ k.threadGetMthread c fuel apd caller sup, r.1.new = 0 ∨
    (r.2.forPdx r.1.new caller).StackFails r.1.new 0 mthreadStackSize r.1.newTask sup ∨
      ((r.2.forPdx r.1.new caller).threadSetupStack r.1.new 0 mthreadStackSize r.1.newTask
        sup).2.l4taskThreadAdd c r.1.new ≠ none ∧
          if r.1.newTask then sup.started = none
          else r.1.newThread = true ∧ sup.upcallCreate = true

/-! ### What is to be as before -/

/-- The thread structures that the table of threads, the tasks and the pool of the APD lead to. -/
def Mem.Leads (k : Mem) (apd q : ℕ) : Prop :=
  (∃ i, Reaches k.buckets.next (k.mungiThreads i) q) ∨
    (∃ t i, k.task.live t = true ∧ (k.task.cell t).l4Threads i = q ∧ q ≠ 0) ∨
      ∃ e, Reaches k.poolNext (k.apd.cell apd).threads e ∧ (k.apdThread.cell e).mthread = q

/-- **No trace.**  The table of threads, the threads of every task and the number of free ones, and
the users and the pool of the APD are as before, and none of them leads to a structure that was
freed. -/
structure Mem.Traceless (k k' : Mem) (apd : ℕ) : Prop where
  table : k'.mungiThreads = k.mungiThreads ∧
    ∀ q, k.mthread.live q = true → k'.buckets.next q = k.buckets.next q
  tasks : ∀ t, k.task.live t = true → (k'.task.cell t).l4Threads = (k.task.cell t).l4Threads ∧
    (k'.task.cell t).threadFree = (k.task.cell t).threadFree
  users : (k'.apd.cell apd).users = (k.apd.cell apd).users
  pool : (k'.apd.cell apd).threads = (k.apd.cell apd).threads ∧
    ∀ e, Reaches k.poolNext (k.apd.cell apd).threads e → k'.poolNext e = k.poolNext e ∧
      (k'.apdThread.cell e).mthread = (k.apdThread.cell e).mthread
  freed : ∀ q, k'.Leads apd q → k'.mthread.live q = true

/-- `thread_create` reports failure, and leaves no trace. -/
def Mem.CreateClean (c : ThreadConf) (k : Mem) (fuel apd parent supplied size : ℕ)
    (sup : ThreadSupply) : Prop :=
  ∃ k', k.threadCreate c fuel apd parent supplied size sup = some ((0, none), k') ∧
    k.Traceless k' apd

/-- `thread_pdx_create` reports failure, and leaves no trace. -/
def Mem.PdxCreateClean (c : ThreadConf) (k : Mem) (fuel apd caller : ℕ) (sup : ThreadSupply) :
    Prop :=
  ∃ k', k.threadPdxCreate c fuel apd caller sup = some (0, k') ∧ k.Traceless k' apd

/-! ### The users -/

/-- A creation counts a user, whether it succeeds or not. -/
theorem Mem.Begun.users {events : List Event} (h : Begun k a sup m caller events k') :
    (k'.apd.cell a).users = (k.apd.cell a).users + 1 := by
  rw [h.apart.users]
  dsimp only
  rw [Heap.cell_modify_self]

theorem not_createClean : ¬ k.CreateClean c fuel a parent supplied size sup := by
  rintro ⟨k', hcreate, htraceless⟩
  have husers := (threadCreate_begun hcreate).users
  rw [htraceless.users] at husers
  omega

theorem not_pdxCreateClean : ¬ k.PdxCreateClean c fuel a caller sup := by
  rintro ⟨k', hcreate, htraceless⟩
  have husers := (threadPdxCreate_begun hcreate).users
  rw [htraceless.users] at husers
  omega

/-- **When creations that fail leave no trace**: never.  In any state of the kernel a call meets the
rule only when it does not fail at any point. -/
theorem creation_clean_iff (c : ThreadConf) (k : Mem)
    (fuel apd parent caller supplied size : ℕ) (sup : ThreadSupply) :
    ((k.CreateFails c fuel apd parent supplied size sup →
        k.CreateClean c fuel apd parent supplied size sup) ↔
      ¬ k.CreateFails c fuel apd parent supplied size sup) ∧
    ((k.PdxCreateFails c fuel apd caller sup → k.PdxCreateClean c fuel apd caller sup) ↔
      ¬ k.PdxCreateFails c fuel apd caller sup) := by
  constructor
  · exact ⟨fun h hfails => not_createClean (h hfails), fun h hfails => absurd hfails h⟩
  · exact ⟨fun h hfails => not_pdxCreateClean (h hfails), fun h hfails => absurd hfails h⟩

/-! ### Threads that could not be started -/

/-- The structure is freed, and is the first of its bucket. -/
def Mem.Stray (k : Mem) (m : ℕ) : Prop :=
  m ≠ 0 ∧ k.mthread.live m = false ∧ k.mungiThreads (k.bucketOf m) = m

theorem Mem.Stray.leads (h : k.Stray m) (apd : ℕ) : k.Leads apd m := by
  refine Or.inl ⟨k.bucketOf m, ?_⟩
  rw [h.2.2]
  exact .here h.1

/-- **A thread that is undone stays in the table.** -/
theorem undoThread_stray (hm : m ≠ 0) (hadd : k.l4taskThreadAdd c m = some k') :
    (k'.undoThread m).Stray m := by
  refine ⟨hm, ?_, ?_⟩
  · dsimp only [undoThread, Heap.free]
    rw [Function.update_self]
  · have hhead := congrArg Buckets.head (l4taskThreadAdd_table hadd).1
    have hself : k'.mungiThreads (k'.bucketOf m) = m := by
      rw [show k'.mungiThreads = _ from hhead]
      exact Function.update_self _ _ _
    exact hself

/-- Of a creation that is undone: what it got is in the table when it is taken back. -/
theorem Mem.Undone.stray {got : GotMthread} {k₁ : Mem} (h : k.Undone c fuel a parent sup m)
    (hget : k.threadGetMthread c fuel a parent sup = some (got, k₁)) :
    m = 0 ∧ got.new ≠ 0 ∧ ∀ k₂ k₃ : Mem, k₂.l4taskThreadAdd c got.new = some k₃ →
      (k₃.undoThread got.new).Stray (k.taken a sup) := by
  obtain ⟨hm, r, hr, hnew⟩ := h
  obtain rfl := Option.some.inj (hget.symm.trans hr)
  refine ⟨hm, hnew, fun k₂ k₃ hadd => ?_⟩
  rw [← ((threadGetMthread_fetched hget).2 hnew).1]
  exact undoThread_stray hnew hadd

theorem threadCreate_stray {start : Option (L4Id × ℕ)}
    (h : k.threadCreate c fuel a parent supplied size sup = some ((m, start), k'))
    (hundone : k.Undone c fuel a parent sup m) : k'.Stray (k.taken a sup) := by
  obtain ⟨⟨got, k₁⟩, hget, h⟩ := Option.bind_eq_some_iff.mp h
  obtain ⟨rfl, hnew, hundo⟩ := hundone.stray hget
  dsimp only at h
  rw [if_neg hnew] at h
  obtain ⟨k₂, hadd, h⟩ := Option.map_eq_some_iff.mp h
  have hstray := hundo _ _ hadd
  split_ifs at h
  · cases hstarted : sup.started with
    | none =>
      rw [hstarted] at h
      obtain ⟨-, rfl⟩ := Prod.mk.inj h
      exact hstray
    | some ret =>
      rw [hstarted] at h
      exact absurd (Prod.mk.inj (Prod.mk.inj h).1).1 hnew
  · exact absurd (Prod.mk.inj (Prod.mk.inj h).1).1 hnew
  · obtain ⟨-, rfl⟩ := Prod.mk.inj h
    exact hstray
  · exact absurd (Prod.mk.inj (Prod.mk.inj h).1).1 hnew

theorem threadPdxCreate_stray (h : k.threadPdxCreate c fuel a caller sup = some (m, k'))
    (hundone : k.Undone c fuel a caller sup m) : k'.Stray (k.taken a sup) := by
  obtain ⟨⟨got, k₁⟩, hget, h⟩ := Option.bind_eq_some_iff.mp h
  obtain ⟨rfl, hnew, hundo⟩ := hundone.stray hget
  dsimp only at h
  rw [if_neg hnew] at h
  obtain ⟨k₂, hadd, h⟩ := Option.map_eq_some_iff.mp h
  have hstray := hundo _ _ hadd
  split_ifs at h
  · cases hstarted : sup.started with
    | none =>
      rw [hstarted] at h
      obtain ⟨-, rfl⟩ := Prod.mk.inj h
      exact hstray
    | some ret =>
      rw [hstarted] at h
      exact absurd (Prod.mk.inj h).1 hnew
  · obtain ⟨-, rfl⟩ := Prod.mk.inj h
    exact hstray
  · exact absurd (Prod.mk.inj h).1 hnew

/-! ### Threads without a stack -/

theorem threadSetupStack_fails {newTask : Bool} (h : k.StackFails m supplied size newTask sup) :
    k.threadSetupStack m supplied size newTask sup = (0, k) := by
  unfold Mem.StackFails at h
  unfold threadSetupStack
  dsimp only at h ⊢
  by_cases hnew : newTask = true
  · rw [if_pos hnew] at h ⊢
    by_cases hstack : sup.stack = 0
    · rw [if_pos hstack]
    · obtain ⟨hsupplied, huser⟩ := h.resolve_left hstack
      rw [if_neg hstack, if_neg (not_not.mpr hsupplied), if_pos huser]
  · rw [if_neg hnew] at h ⊢
    rw [if_neg (not_not.mpr h.1), if_neg h.2.1, if_pos h.2.2]

/-- **Nobody looks whether there is a stack**: if nothing else fails, the thread is created, and
the stack that its creator is to start it with is `NULL`. -/
theorem threadCreate_unstacked {got : GotMthread} {k₁ k₂ : Mem}
    (hget : k.threadGetMthread c fuel a parent sup = some (got, k₁)) (hnew : got.new ≠ 0)
    (hstack : k₁.StackFails got.new supplied size got.newTask sup)
    (hadd : k₁.l4taskThreadAdd c got.new = some k₂) (hstart : ¬ k₂.StartFails got parent sup) :
    ∃ start k', k.threadCreate c fuel a parent supplied size sup = some ((got.new, start), k') ∧
      ∀ r ∈ start, r.2 = 0 := by
  unfold Mem.StartFails at hstart
  unfold threadCreate
  rw [hget, Option.bind_some]
  dsimp only
  rw [if_neg hnew, threadSetupStack_fails hstack, hadd, Option.map_some]
  by_cases hfirst : got.newTask = true ∨ parent = 0
  · rw [if_pos hfirst] at hstart ⊢
    obtain ⟨ret, hret⟩ := Option.ne_none_iff_exists'.mp hstart
    rw [hret]
    exact ⟨_, _, rfl, nofun⟩
  · rw [if_neg hfirst] at hstart ⊢
    by_cases hlocal : (k₂.task.cell (k₂.mthread.cell got.new).task).task.task
        = (k₂.task.cell (k₂.mthread.cell parent).task).task.task
    · rw [if_pos hlocal]
      exact ⟨_, _, rfl, fun r hr => by rw [← Option.some.inj hr]⟩
    · rw [if_neg hlocal, if_neg fun hupcall => hstart ⟨hlocal, hupcall⟩]
      exact ⟨_, _, rfl, nofun⟩

theorem threadPdxCreate_unstacked {got : GotMthread} {k₁ k₂ : Mem}
    (hget : k.threadGetMthread c fuel a caller sup = some (got, k₁)) (hnew : got.new ≠ 0)
    (hstack : (k₁.forPdx got.new caller).StackFails got.new 0 mthreadStackSize got.newTask sup)
    (hadd : (k₁.forPdx got.new caller).l4taskThreadAdd c got.new = some k₂)
    (hstart : ¬ if got.newTask then sup.started = none
      else got.newThread = true ∧ sup.upcallCreate = true) :
    ∃ k', k.threadPdxCreate c fuel a caller sup = some (got.new, k') := by
  unfold forPdx at hstack hadd
  unfold threadPdxCreate
  rw [hget, Option.bind_some]
  dsimp only
  rw [if_neg hnew, threadSetupStack_fails hstack, hadd, Option.map_some]
  by_cases hfirst : got.newTask = true
  · rw [if_pos hfirst] at hstart ⊢
    obtain ⟨ret, hret⟩ := Option.ne_none_iff_exists'.mp hstart
    rw [hret]
    exact ⟨_, rfl⟩
  · rw [if_neg hfirst] at hstart ⊢
    rw [if_neg hstart]
    exact ⟨_, rfl⟩

/-! ### A thread that is freed but found -/

instance (k : Mem) (got : GotMthread) (parent : ℕ) (sup : ThreadSupply) :
    Decidable (k.StartFails got parent sup) := by
  unfold Mem.StartFails
  infer_instance

instance (c : ThreadConf) (k : Mem) (fuel apd parent supplied size : ℕ) (sup : ThreadSupply) :
    Decidable (k.CreateFails c fuel apd parent supplied size sup) := by
  unfold Mem.CreateFails
  infer_instance

/-- The answers for a new thread whose task cannot be started. -/
def unstartedAt (mthread apdThread : ℕ) : ThreadSupply :=
  { threadAt mthread apdThread with started := none }

/-- An APD is made. -/
def oneApd : List (ThreadOp Unit) := [.apdPdxMerge 5 0 0 0 ⟨7, 7⟩ (apdAt 100)]

/-- The kernel creates the first thread of an APD, whose task cannot be started: the structure is
freed, and the table leads to it. -/
theorem creation_leaves_freed :
    ¬ ∀ (c : ThreadConf) (k : Mem) (ops : List (ThreadOp Unit)) (k₁ : Mem)
      (fuel apd parent supplied size : ℕ) (sup : ThreadSupply), k.Booted →
        run (threadStep c) k ops = some k₁ →
          k₁.CreateFails c fuel apd parent supplied size sup →
            k₁.CreateClean c fuel apd parent supplied size sup := by
  intro h
  have hend : (run (threadStep smallConf) Mem.boot oneApd).map (fun k =>
      (decide (k.CreateFails smallConf 5 100 0 0 0 (unstartedAt 10 30)),
        (k.threadCreate smallConf 5 100 0 0 0 (unstartedAt 10 30)).map fun r =>
          (r.1.1, r.2.mungiThreads 1, r.2.mthread.live 10)))
            = some (true, some (0, 10, false)) := by
    decide +kernel
  obtain ⟨k₁, hrun, hk₁⟩ := Option.map_eq_some_iff.mp hend
  simp only [Prod.mk.injEq, decide_eq_true_eq] at hk₁
  obtain ⟨hfails, hcreate⟩ := hk₁
  obtain ⟨k', heq, htraceless⟩ := h smallConf Mem.boot oneApd k₁ 5 100 0 0 0
    (unstartedAt 10 30) Mem.boot_booted hrun hfails
  rw [heq, Option.map_some] at hcreate
  simp only [Option.some.injEq, Prod.mk.injEq, true_and] at hcreate
  have hleads : k'.Leads 100 10 := by
    refine Or.inl ⟨1, ?_⟩
    rw [hcreate.1]
    exact .here (by decide)
  have hlive := htraceless.freed 10 hleads
  rw [hcreate.2] at hlive
  cases hlive

end Mungi
