import Mungi.Threads.Apds

/-!
# Threads in memory

Creating, ending, reaping and waiting for threads (`threads.c`).  A thread that was reaped
goes to the pool of its APD with its structure, its task and its stack, for the next creation
there.

## Main definitions

* `Mem.threadGetMthread`, `Mem.threadCreate`, `Mem.threadPdxCreate` — creation.
* `Mem.threadRelease`, `Mem.notifyWaiters`, `Mem.doThreadsDelete` — the end of a thread.
* `Mem.threadDelete`, `Mem.threadWait`, `Mem.threadReturn`, `Mem.threadDie` — the calls.
-/

namespace Mungi

open Chain

/-- `THREAD_HASHSIZE` -/
def threadHashsize : ℕ := 1024

/-- `MTHREAD_STACK_SIZE` -/
def mthreadStackSize : ℕ := 1024 * 128

/-- The answers that a creation needs: from `kmalloc`, from `apd_get_stack`, from
`l4_task_new` (`none` for a nil id) and from `upcall_create` (`true` for an error). -/
structure ThreadSupply where
  mthread : ℕ
  task : ℕ
  /-- For the upcall thread of a new task. -/
  upcall : ℕ
  apdThread : ℕ
  stack : ℕ
  userStack : ℕ
  started : Option L4Id
  upcallCreate : Bool

/-- `top_of_stack` -/
def topOfStack (base size : ℕ) : ℕ := base + 8 * (size / 8 - 1)

namespace Mem

variable (c : ThreadConf) (k : Mem)

/-! ### The table of threads -/

/-- `*link = thread` -/
def writeTidLink (link : Link) (thread : ℕ) : Mem :=
  match link with
  | .bucket i => { k with mungiThreads := Function.update k.mungiThreads i thread }
  | .next p => k.modThread p fun t => { t with next := thread }

/-- `thread_hash_remove` -/
def threadHashRemove (thread : ℕ) : Mem :=
  let t := k.mthread.cell thread
  let k := k.writeTidLink t.pprev t.next
  let next := (k.mthread.cell thread).next
  if next = 0 then k
  else k.modThread next fun t => { t with pprev := (k.mthread.cell thread).pprev }

/-- The second half of `l4task_thread_add`. -/
def threadHashInsert (thread : ℕ) : Mem :=
  let hashval := (k.mthread.cell thread).tid % threadHashsize
  let head := k.mungiThreads hashval
  let k := k.modThread thread fun t => { t with next := head }
  let k := if head = 0 then k else k.modThread head fun t => { t with pprev := .next thread }
  let k := { k with mungiThreads := Function.update k.mungiThreads hashval thread }
  k.modThread thread fun t => { t with pprev := .bucket hashval }

/-- `thread_find_from_mid` -/
def threadFindFromMid (fuel tid : ℕ) : Option ℕ :=
  seek (fun p => (k.mthread.cell p).next) (fun p => (k.mthread.cell p).tid = tid) fuel
    (k.mungiThreads (tid % threadHashsize))

/-- `thread_find_mthread_from_parent` -/
def threadFindMthreadFromParent (fuel tid parent : ℕ) : Option ℕ :=
  if tid = 0 then some parent
  else
    (k.threadFindFromMid fuel tid).bind fun child =>
      (seek (fun p => (k.mthread.cell p).parent) (fun p => p = parent) fuel child).map fun ptr =>
        if ptr = 0 then 0 else child

/-! ### Creation -/

/-- `task_new` -/
def taskNew (sup : ThreadSupply) : Option (ℕ × Mem) :=
  if sup.task = 0 then some (0, k)
  else
    (k.task.alloc sup.task L4Task.zero).bind fun task =>
      let k := { k with task }
      if sup.upcall = 0 then some (0, { k with task := k.task.free sup.task })
      else
        (k.mthread.alloc sup.upcall { Mthread.zero with task := sup.task }).map fun mthread =>
          let k := { k with mthread }
          match (List.range c.taskCount).find? fun i => k.l4Tasks i = 0 with
          | none =>
            (0, { k with mthread := k.mthread.free sup.upcall, task := k.task.free sup.task })
          | some i =>
            let k := { k with l4Tasks := Function.update k.l4Tasks i sup.task }
            (sup.task, k.modTask sup.task fun t =>
              { t with
                task := { t.task with task := i + c.l4TaskStart }
                l4Threads := Function.update t.l4Threads 0 sup.upcall
                threadFree := c.l4ThreadsPerTask - 1 })

/-- The part of `thread_get_mthread` that finds a task, or makes one: the task, 0 for `NULL`,
and whether it is new. -/
def findTask (fuel apd : ℕ) (sup : ThreadSupply) : Option ((ℕ × Bool) × Mem) :=
  (seek k.taskNext (fun t => (k.task.cell t).threadFree ≠ 0) fuel (k.apd.cell apd).tasks).bind
    fun task =>
      if task ≠ 0 then some ((task, false), k)
      else
        (k.taskNew c sup).map fun r =>
          if r.1 = 0 then ((0, false), r.2)
          else
            let k := r.2.modTask r.1 fun t => { t with apd, next := (r.2.apd.cell apd).tasks }
            ((r.1, true), k.modApd apd fun a => { a with tasks := r.1 })

/-- The queues of a thread are cleared. -/
def clearQueues (thread : ℕ) : Mem :=
  { k with
    waitq := { k.waitq with
      head := Function.update (Function.update k.waitq.head (.zombies thread) 0)
        (.waiters thread) 0 } }

/-- `thread_get_mthread` when the pool is not empty. -/
def takePooled (apd parent : ℕ) : ℕ × Mem :=
  let entry := (k.apd.cell apd).threads
  let k := k.modApd apd fun a => { a with threads := k.poolNext entry }
  let new := (k.apdThread.cell entry).mthread
  let k := k.modThread new fun t =>
    { t with
      parent
      children := 0
      state := .ok
      lasterror := 0
      waiting := 0
      PDX := 0
      kill := 0
      detached := false }
  (new, k.clearQueues new)

/-- `thread_get_mthread` when the pool is empty. -/
def makeMthread (fuel apd parent : ℕ) (sup : ThreadSupply) : Option ((ℕ × Bool) × Mem) :=
  if sup.mthread = 0 then some ((0, false), k)
  else
    (k.mthread.alloc sup.mthread { Mthread.zero with parent }).bind fun mthread =>
      ({ k with mthread }.clearQueues sup.mthread).findTask c fuel apd sup |>.bind fun r =>
        let out (k : Mem) := some ((0, r.1.2), { k with mthread := k.mthread.free sup.mthread })
        let task := r.1.1
        let k := r.2
        if task = 0 then out k
        else if sup.apdThread = 0 then out k
        else
          (k.apdThread.alloc sup.apdThread ⟨task, 0, 0, 0, sup.mthread, 0⟩).map fun apdThread =>
            ((sup.mthread, r.1.2), { k with apdThread }.modThread sup.mthread fun t =>
              { t with apdThreadinfo := sup.apdThread, task })

/-- What `thread_get_mthread` returns. -/
structure GotMthread where
  /-- 0 for `NULL`. -/
  new : ℕ
  newTask : Bool
  newThread : Bool

/-- `thread_get_mthread` -/
def threadGetMthread (fuel apd parent : ℕ) (sup : ThreadSupply) : Option (GotMthread × Mem) :=
  let k := k.modApd apd fun a => { a with users := a.users + 1 }
  if (k.apd.cell apd).threads ≠ 0 then
    let r := k.takePooled apd parent
    some (⟨r.1, false, false⟩, r.2)
  else (k.makeMthread c fuel apd parent sup).map fun r => (⟨r.1.1, r.1.2, true⟩, r.2)

/-- The part of `l4task_thread_add` that makes the thread number `lthread` of its task. -/
def placeThread (thread lthread : ℕ) : Mem :=
  let entry := (k.mthread.cell thread).apdThreadinfo
  let task := (k.apdThread.cell entry).task
  { k with
    apdThread := k.apdThread.modify entry fun e => { e with lthread }
    mthread := k.mthread.modify thread fun t =>
      { t with task, l4id := { (k.task.cell task).task with lthread }, tid := k.nextTid }
    task := k.task.modify task fun t =>
      { t with
        l4Threads := Function.update t.l4Threads lthread thread
        threadFree := t.threadFree - 1 }
    nextTid := (k.nextTid + 1) % 2 ^ 64 }

/-- `l4task_thread_add`.  The structure has room for the threads 0 to
`L4_THREADS_PER_TASK - 1`. -/
def l4taskThreadAdd (thread : ℕ) : Option Mem :=
  let entry := k.apdThread.cell (k.mthread.cell thread).apdThreadinfo
  let found :=
    if entry.lthread = 0 then
      (List.range' 1 (c.l4ThreadsPerTask - 1)).find? fun i =>
        (k.task.cell entry.task).l4Threads i = 0
    else some entry.lthread
  found.map fun lthread => (k.placeThread thread lthread).threadHashInsert thread

/-- `l4task_thread_remove` -/
def l4taskThreadRemove (thread : ℕ) : Mem :=
  let t := k.mthread.cell thread
  k.modTask t.task fun task =>
    { task with
      l4Threads := Function.update task.l4Threads (k.apdThread.cell t.apdThreadinfo).lthread 0
      threadFree := task.threadFree + 1 }

/-- The stack of `size` bytes at `base` is kept for the thread. -/
def setStack (thread base size : ℕ) : Mem :=
  k.modApdThread (k.mthread.cell thread).apdThreadinfo fun e =>
    { e with stackBase := base, stackSize := size }

/-- `thread_setup_stack`: the stack pointer, 0 for `NULL`.  The arguments are written to the
stack, of which three words are for the entry and its parameter, and one for the stack of the
user thread when the task is new. -/
def threadSetupStack (thread supplied size : ℕ) (newTask : Bool) (sup : ThreadSupply) : ℕ × Mem :=
  let entry := k.apdThread.cell (k.mthread.cell thread).apdThreadinfo
  if newTask then
    if sup.stack = 0 then (0, k)
    else
      let stack := topOfStack sup.stack mthreadStackSize - 8 * 5
      if supplied ≠ 0 then (stack, k)
      else if sup.userStack = 0 then (0, k)
      else (stack, k.setStack thread sup.userStack size)
  else if supplied ≠ 0 then (supplied - 8 * 4, k)
  else if entry.stackBase ≠ 0 ∧ entry.stackSize ≥ size then
    (topOfStack entry.stackBase size - 8 * 4, k)
  else if sup.stack = 0 then (0, k)
  else (topOfStack sup.stack size - 8 * 4, k.setStack thread sup.stack size)

/-- The new thread gets the version of its task. -/
def startTask (thread : ℕ) (ret : L4Id) : Mem :=
  let k := k.modTask (k.mthread.cell thread).task fun t => { t with task := ret }
  k.modThread thread fun t => { t with l4id := t.l4id.or ret }

/-- What follows when a creation fails after `l4task_thread_add`. -/
def undoThread (thread : ℕ) : Mem :=
  let k := k.l4taskThreadRemove thread
  { k with mthread := k.mthread.free thread }

/-- `thread_create`: the new thread, 0 for `fail`, with its stack when the caller has to
start it. -/
def threadCreate (fuel apd parent supplied size : ℕ) (sup : ThreadSupply) :
    Option ((ℕ × Option (L4Id × ℕ)) × Mem) :=
  (k.threadGetMthread c fuel apd parent sup).bind fun r =>
    let got := r.1
    if got.new = 0 then some ((0, none), r.2)
    else
      let s := r.2.threadSetupStack got.new supplied size got.newTask sup
      (s.2.l4taskThreadAdd c got.new).map fun k =>
        let error := ((0, none), k.undoThread got.new)
        let created (k : Mem) := k.emit (.created got.new apd)
        if got.newTask ∨ parent = 0 then
          match sup.started with
          | none => error
          | some ret => ((got.new, none), created (k.startTask got.new ret))
        else if (k.task.cell (k.mthread.cell got.new).task).task.task
            = (k.task.cell (k.mthread.cell parent).task).task.task then
          ((got.new, some ((k.mthread.cell got.new).l4id, s.1)), created k)
        else if sup.upcallCreate then error
        else ((got.new, none), created k)

/-- `thread_pdx_create`: the new thread, 0 for `fail`. -/
def threadPdxCreate (fuel apd caller : ℕ) (sup : ThreadSupply) : Option (ℕ × Mem) :=
  (k.threadGetMthread c fuel apd caller sup).bind fun r =>
    let got := r.1
    if got.new = 0 then some (0, r.2)
    else
      let k := r.2.modThread got.new fun t => { t with PDX := caller }
      let s := k.threadSetupStack got.new 0 mthreadStackSize got.newTask sup
      (s.2.l4taskThreadAdd c got.new).map fun k =>
        let error := (0, k.undoThread got.new)
        let created (k : Mem) := (got.new, { k with
          log := .called got.new caller (k.mthread.cell caller).l4id ::
            .created got.new apd :: k.log })
        if got.newTask then
          match sup.started with
          | none => error
          | some ret => created (k.startTask got.new ret)
        else if got.newThread ∧ sup.upcallCreate then error
        else created k

/-! ### The end of a thread -/

/-- `thread_release` -/
def threadRelease (fuel child : ℕ) : Option Mem :=
  let apd := k.apdOf child
  let k := k.threadHashRemove child
  let entry := (k.mthread.cell child).apdThreadinfo
  let head := (k.apd.cell apd).threads
  let k := k.modApd apd fun a => { a with threads := entry, users := a.users - 1 }
  let k := (k.modApdThread entry fun e => { e with next := head }).emit (.released child)
  if (k.apd.cell apd).closing then (k.apdClose c fuel apd).map Prod.snd else some k

/-- The loop of `notify_waiters`, and whether there was a waiter. -/
def wakeWaiters (thread : ℕ) : ℕ → Mem → Option (Bool × Mem)
  | 0, _ => none
  | n + 1, k =>
    let r := waitqRemove k.waitq (.waiters thread)
    let k := { k with waitq := r.2 }
    if r.1 = 0 then some (false, k)
    else
      (wakeWaiters thread n (k.modThread r.1 fun t => { t with state := .ok, waiting := 0 })).map
        fun s => (true, s.2)

/-- `notify_waiters`, with the answer `item` of `kmalloc`. -/
def notifyWaiters (fuel item thread : ℕ) : Option Mem :=
  (wakeWaiters thread fuel k).bind fun r =>
    let t := r.2.mthread.cell thread
    if t.detached ∨ r.1 then
      (r.2.modThread thread fun t => { t with state := .dead }).threadRelease c fuel thread
    else if t.parent ≠ 0 ∧ t.parent ≠ 2 ^ 64 - 1 then
      (waitqAdd r.2.waitq fuel (.zombies t.parent) thread item).map fun w =>
        { r.2 with waitq := w.2 }
    else some r.2

/-- The thread is not asleep or waiting any more. -/
def stopWaiting (fuel thread : ℕ) : Option Mem :=
  let t := k.mthread.cell thread
  let woken := k.modThread thread fun t => { t with state := .ok }
  match t.state with
  | .sleep => some woken
  | .waiting =>
    if t.waiting = 0 then some woken
    else
      (waitqCancel k.waitq fuel (.waiters t.waiting) thread).map fun waitq =>
        { woken with waitq }.modThread thread fun t => { t with waiting := 0 }
  | _ => some k

/-- `do_threads_delete` -/
def doThreadsDelete (fuel item thread : ℕ) (status : ℤ) : Option Mem :=
  (k.stopWaiting fuel thread).bind fun k =>
    if (k.mthread.cell thread).kill ≠ 0 then some (k.emit (.interrupted thread))
    else
      (((k.emit (.deleted thread)).l4taskThreadRemove thread).modThread thread fun t =>
        { t with lasterror := status, state := .zombie }).notifyWaiters c fuel item thread

/-- `thread_delete`, and whether the caller goes on. -/
def threadDelete (fuel item tid : ℕ) (status : ℤ) (caller : ℕ) : Option (Bool × Mem) :=
  (k.threadFindMthreadFromParent fuel tid caller).bind fun child =>
    let state := (k.mthread.cell child).state
    if child = 0 ∨ state = .zombie ∨ state = .dead then some (true, k)
    else (k.doThreadsDelete c fuel item child status).map fun k => (child ≠ caller, k)

/-- What `thread_wait` returns: whether the caller waits, and what it writes to `*status` and
`*rtid`. -/
structure WaitReturn where
  wait : Bool
  status : Option ℤ
  rtid : Option ℕ

/-- `thread_wait` -/
def threadWait (fuel item tid caller : ℕ) : Option (WaitReturn × Mem) :=
  let nothing := ⟨false, none, some 0⟩
  if tid = 0 then
    let r := waitqRemove k.waitq (.zombies caller)
    let child := r.1
    let k := { k with waitq := r.2 }
    if child ≠ 0 then
      (k.threadRelease c fuel child).map fun k' =>
        (⟨false, some (k.mthread.cell child).lasterror, some tid⟩, k')
    else if (k.mthread.cell caller).children ≠ 0 then
      some (⟨true, none, none⟩, k.modThread caller fun t => { t with state := .waiting })
    else some (nothing, k)
  else
    (k.threadFindMthreadFromParent fuel tid caller).bind fun child =>
      if child = 0 ∨ (k.mthread.cell child).state = .dead then some (nothing, k)
      else if (k.mthread.cell child).state = .zombie then
        (waitqCancel k.waitq fuel (.zombies caller) child).bind fun waitq =>
          ({ k with waitq }.threadRelease c fuel child).map fun k' =>
            (⟨false, some (k.mthread.cell child).lasterror, some tid⟩, k')
      else
        (waitqAdd k.waitq fuel (.waiters child) caller item).map fun w =>
          let k := { k with waitq := w.2 }
          if w.1 then (⟨true, none, none⟩, k.modThread caller fun t =>
            { t with state := .waiting, waiting := child })
          else (nothing, k)

/-- `thread_return`; the status is the address of the capability. -/
def threadReturn (fuel item : ℕ) (status : ℤ) (thread : ℕ) : Option Mem :=
  if (k.mthread.cell thread).PDX ≠ 0 then (k.l4taskThreadRemove thread).threadRelease c fuel thread
  else (k.threadDelete c fuel item 0 status thread).map Prod.snd

/-- `sys_thread_return`.  The answer to a PDX call goes to the thread that is found through
the structure after it has been released. -/
def sysThreadReturn (fuel item : ℕ) (status : ℤ) (thread : ℕ) : Option Mem :=
  if (k.mthread.cell thread).PDX ≠ 0 then
    (k.threadReturn c fuel item status thread).map fun k =>
      k.emit (.replied thread (k.mthread.cell (k.mthread.cell thread).PDX).l4id)
  else k.threadReturn c fuel item status thread

/-- `thread_die` -/
def threadDie (fuel item thread : ℕ) : Option Mem :=
  (((k.emit (.deleted thread)).modThread thread fun t =>
    { t with lasterror := 0, state := .zombie }).notifyWaiters c fuel item thread)

/-- `sys_excpt_reg`, for `E_KILL`. -/
def excptReg (thread handler : ℕ) : Mem := k.modThread thread fun t => { t with kill := handler }

end Mem

end Mungi
