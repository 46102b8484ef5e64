import Mungi.Lib.Heap
import Mungi.Kernel
import Mungi.Waitq

/-!
# The memory of threads and APDs

The records of `threads.h` and `apd.h` behind their pointers, and the tables that lead to
them.  Records of different types are kept apart, and a block that was freed keeps what is in
it until it is handed out again.  The queue heads of a thread are with the wait queues.

For the proofs there is a log of what has happened, which no function reads.

## Main definitions

* `Mem` — the memory.
* `Event` — what the log says.
* `handedOut` — the threads that were created and not released yet.
-/

namespace Mungi

/-- What differs between machines. -/
structure ThreadConf where
  /-- `L4_THREADS_PER_TASK` -/
  l4ThreadsPerTask : ℕ
  /-- `APD_PDX_CACHE_TIMEOUT` -/
  apdPdxCacheTimeout : ℕ
  /-- `L4_LOG2_PAGESIZE` -/
  l4Log2Pagesize : ℕ
  /-- `l4_setup.l4_task_start` -/
  l4TaskStart : ℕ
  /-- `l4_tasks.task_count` -/
  taskCount : ℕ

/-! ### Records -/

/-- The place a `pprev` points to, in the hash tables of threads and APDs. -/
inductive Link where
  | bucket (i : ℕ)
  | next (p : ℕ)
  deriving DecidableEq

/-- `l4_threadid_t` -/
structure L4Id where
  version : ℕ
  task : ℕ
  lthread : ℕ
  deriving DecidableEq

/-- `L4_NIL_ID` -/
def L4Id.nil : L4Id := ⟨0, 0, 0⟩

/-- The `|=` of `l4id.ID`. -/
def L4Id.or (a b : L4Id) : L4Id :=
  ⟨a.version ||| b.version, a.task ||| b.task, a.lthread ||| b.lthread⟩

/-- `state_t` -/
inductive ThreadState where
  | ok
  | sleep
  | zombie
  | dead
  | waiting
  deriving DecidableEq

/-- The wait queues of a thread. -/
inductive ThreadQueue where
  | zombies (thread : ℕ)
  | waiters (thread : ℕ)
  deriving DecidableEq

/-- `struct mthread`; of the exception handlers, the one for `E_KILL`, and of the user thread
information, the flag `THREAD_DETACHED`. -/
structure Mthread where
  tid : ℕ
  l4id : L4Id
  next : ℕ
  pprev : Link
  task : ℕ
  parent : ℕ
  children : ℕ
  state : ThreadState
  lasterror : ℤ
  waiting : ℕ
  PDX : ℕ
  kill : ℕ
  detached : Bool
  apdThreadinfo : ℕ

/-- After `bzero`. -/
def Mthread.zero : Mthread where
  tid := 0
  l4id := .nil
  next := 0
  pprev := .bucket 0
  task := 0
  parent := 0
  children := 0
  state := .ok
  lasterror := 0
  waiting := 0
  PDX := 0
  kill := 0
  detached := false
  apdThreadinfo := 0

/-- `struct l4_task` -/
structure L4Task where
  task : L4Id
  apd : ℕ
  l4Threads : ℕ → ℕ
  next : ℕ
  threadFree : ℤ

/-- After `bzero`. -/
def L4Task.zero : L4Task := ⟨.nil, 0, fun _ => 0, 0, 0⟩

/-- `struct apd_thread` -/
structure ApdThread where
  task : ℕ
  lthread : ℕ
  stackBase : ℕ
  stackSize : ℕ
  mthread : ℕ
  next : ℕ

/-- `struct apd`, without the flags, which nothing reads. -/
structure Apd where
  data : ApdDesc
  users : ℤ
  tasks : ℕ
  vcache : ℕ
  threads : ℕ
  pd : ℕ
  next : ℕ
  pprev : Option Link
  closing : Bool
  serial : ℕ

/-- After `bzero`. -/
def Apd.zero : Apd := ⟨⟨fun _ => Cap.null, 0, 0⟩, 0, 0, 0, 0, 0, 0, none, false, 0⟩

/-- `struct apd_cache_id` -/
structure ApdCacheId where
  pos : ℕ
  serial : ℕ
  deriving DecidableEq

/-- `struct apd_pdx_cache_entry` -/
structure ApdPdxCacheEntry where
  orig : ℕ
  clist : Cap
  apd : ℕ
  timestamp : ℕ

/-- `struct pdxcache_entry`; what the code calls the destination APD is the PD of the call. -/
structure PdxcacheEntry where
  apdSrc : ℕ
  proc : ℕ
  apdDest : ℕ
  id : ApdCacheId

/-! ### The log -/

/-- What happens to threads and APDs. -/
inductive Event where
  /-- A creation hands out a thread. -/
  | created (thread apd : ℕ)
  /-- The thread is for a PDX call of `caller`, whose L4 id is `l4id`. -/
  | called (thread caller : ℕ) (l4id : L4Id)
  /-- `do_threads_delete` or `thread_die` ends the thread. -/
  | deleted (thread : ℕ)
  /-- `do_threads_delete` has the thread run its handler. -/
  | interrupted (thread : ℕ)
  /-- `thread_release` -/
  | released (thread : ℕ)
  /-- `sys_thread_return` of a PDX thread answers `l4id`. -/
  | replied (thread : ℕ) (l4id : L4Id)
  /-- `apd_close` frees the APD. -/
  | closed (apd : ℕ) (closing : Bool)
  /-- `apd_pdx_merge` makes an APD; the original is there with its serial number. -/
  | merged (orig origSerial : ℕ) (clist : Cap) (apd serial : ℕ)
  /-- A PDX call from the APD `src` was validated at `time`, and got `apd` from
  `apd_pdx_merge(orig, clist)`. -/
  | bound (src srcSerial proc pd time orig : ℕ) (clist : Cap) (apd serial : ℕ)

/-- The threads that were created and not released yet, each with the APD it was created
for.  The last event comes first. -/
def handedOut : List Event → List (ℕ × ℕ)
  | [] => []
  | .created m a :: l => (m, a) :: handedOut l
  | .released m :: l => (handedOut l).eraseP fun t => t.1 = m
  | _ :: l => handedOut l

/-! ### Memory -/

/-- The memory of threads and APDs. -/
structure Mem where
  apd : Heap Apd
  task : Heap L4Task
  mthread : Heap Mthread
  apdThread : Heap ApdThread
  waitq : Waitqs ThreadQueue
  /-- `apd_table.table` -/
  apdTable : ℕ → ℕ
  /-- `apd_pdx_cache.table` -/
  apdPdxCache : ℕ → ApdPdxCacheEntry
  /-- `pdx_cache` -/
  pdxCache : ℕ → PdxcacheEntry
  /-- `mungi_threads.threads` -/
  mungiThreads : ℕ → ℕ
  /-- `l4_tasks.tasks` -/
  l4Tasks : ℕ → ℕ
  apdSerial : ℕ
  nextTid : ℕ
  log : List Event

namespace Mem

/-- A change of the APD at `p`. -/
abbrev modApd (k : Mem) (p : ℕ) (f : Apd → Apd) : Mem := { k with apd := k.apd.modify p f }

/-- A change of the task at `p`. -/
abbrev modTask (k : Mem) (p : ℕ) (f : L4Task → L4Task) : Mem := { k with task := k.task.modify p f }

/-- A change of the thread at `p`. -/
abbrev modThread (k : Mem) (p : ℕ) (f : Mthread → Mthread) : Mem :=
  { k with mthread := k.mthread.modify p f }

/-- A change of the pool entry at `p`. -/
abbrev modApdThread (k : Mem) (p : ℕ) (f : ApdThread → ApdThread) : Mem :=
  { k with apdThread := k.apdThread.modify p f }

/-- Something happens. -/
abbrev emit (k : Mem) (e : Event) : Mem := { k with log := e :: k.log }

/-- `APD(thread)` -/
def apdOf (k : Mem) (m : ℕ) : ℕ := (k.task.cell (k.mthread.cell m).task).apd

/-- The list of reusable threads. -/
def poolNext (k : Mem) (p : ℕ) : ℕ := (k.apdThread.cell p).next

/-- The list of tasks of an APD. -/
def taskNext (k : Mem) (p : ℕ) : ℕ := (k.task.cell p).next

end Mem

end Mungi
