import Mungi.Lib.Runs
import Mungi.Threads.Threads

/-!
# What the thread calls do

The calls of `threads.c` change queues, hash chains and states all over the memory, but the
ownership of threads only in a few places: a creation takes a thread from the pool of its APD
or makes one, and `thread_release` puts it back and may close the APD.

## Main definitions

* `ThreadOp`, `threadStep` — the calls, and the system they make.
* `Mem.Frame` — two memories agree on who owns what.
* `Mem.Ended` — what a call does that ends or reaps a thread.

## Main results

* `Mem.threadDelete_ended`, `Mem.threadWait_ended`, `Mem.threadDie_ended`,
  `Mem.sysThreadReturn_pdx` — **the calls that end threads.**
-/

namespace Mungi

open Chain Runs

variable {O : Type} {c : ThreadConf}

/-! ### The system -/

/-- The calls, with what they are answered by the rest of the kernel. -/
inductive ThreadOp (O : Type) where
  | threadCreate (fuel apd parent supplied size : ℕ) (sup : ThreadSupply)
  | threadPdxCreate (fuel apd caller : ℕ) (sup : ThreadSupply)
  | sysThreadReturn (fuel item : ℕ) (status : ℤ) (thread : ℕ)
  | threadDelete (fuel item tid : ℕ) (status : ℤ) (caller : ℕ)
  | threadWait (fuel item tid caller : ℕ)
  | threadDie (fuel item thread : ℕ)
  | excptReg (thread handler : ℕ)
  | apdFromTemplate (os : Kernel O) (pd : ApdDesc) (sup : ApdSupply)
  | apdFindOrCreate (os : Kernel O) (fuel addr : ℕ) (pd : ApdDesc) (sup : ApdSupply)
  | apdPdxMerge (fuel now now' orig : ℕ) (clist : Cap) (sup : ApdSupply)
  | apdClose (fuel apd : ℕ)

/-- One call. -/
def threadStep (c : ThreadConf) (k : Mem) : ThreadOp O → Option Mem
  | .threadCreate fuel apd parent supplied size sup =>
    (k.threadCreate c fuel apd parent supplied size sup).map Prod.snd
  | .threadPdxCreate fuel apd caller sup => (k.threadPdxCreate c fuel apd caller sup).map Prod.snd
  | .sysThreadReturn fuel item status thread => k.sysThreadReturn c fuel item status thread
  | .threadDelete fuel item tid status caller =>
    (k.threadDelete c fuel item tid status caller).map Prod.snd
  | .threadWait fuel item tid caller => (k.threadWait c fuel item tid caller).map Prod.snd
  | .threadDie fuel item thread => k.threadDie c fuel item thread
  | .excptReg thread handler => some (k.excptReg thread handler)
  | .apdFromTemplate os pd sup => (k.apdFromTemplate os pd sup).map Prod.snd
  | .apdFindOrCreate os fuel addr pd sup =>
    (k.apdFindOrCreate c os fuel addr pd sup).map Prod.snd
  | .apdPdxMerge fuel now now' orig clist sup =>
    (k.apdPdxMerge c fuel now now' orig clist sup).map Prod.snd
  | .apdClose fuel apd => (k.apdClose c fuel apd).map Prod.snd

/-- The memory before there are threads and APDs. -/
structure Mem.Booted (k : Mem) : Prop where
  apd : ∀ a, k.apd.live a = false
  apdPdxCache : ∀ i, (k.apdPdxCache i).apd = 0
  pdxCache : ∀ i, (k.pdxCache i).apdSrc = 0
  log : k.log = []

/-- As the kernel starts. -/
def Mem.boot : Mem where
  apd := ⟨fun _ => .zero, fun _ => false⟩
  task := ⟨fun _ => .zero, fun _ => false⟩
  mthread := ⟨fun _ => .zero, fun _ => false⟩
  apdThread := ⟨fun _ => ⟨0, 0, 0, 0, 0, 0⟩, fun _ => false⟩
  waitq := ⟨⟨fun _ => ⟨0, 0, .head (.zombies 0)⟩, fun _ => false⟩, fun _ => 0⟩
  apdTable := fun _ => 0
  apdPdxCache := fun _ => ⟨0, Cap.null, 0, 0⟩
  pdxCache := fun _ => ⟨0, 0, 0, ⟨0, 0⟩⟩
  mungiThreads := fun _ => 0
  l4Tasks := fun _ => 0
  apdSerial := 0
  nextTid := 1
  log := []

theorem Mem.boot_booted : Mem.boot.Booted := ⟨fun _ => rfl, fun _ => rfl, fun _ => rfl, rfl⟩

namespace Mem

variable {k k' k'' : Mem}

/-! ### Changes that do not matter -/

/-- The memories agree on the links between threads, tasks and pool entries. -/
structure SameThreads (k k' : Mem) : Prop where
  taskLive : k'.task.live = k.task.live
  taskApd : ∀ t, (k'.task.cell t).apd = (k.task.cell t).apd
  taskNext : ∀ t, (k'.task.cell t).next = (k.task.cell t).next
  threadLive : k'.mthread.live = k.mthread.live
  threadTask : ∀ m, (k'.mthread.cell m).task = (k.mthread.cell m).task
  threadInfo : ∀ m, (k'.mthread.cell m).apdThreadinfo = (k.mthread.cell m).apdThreadinfo
  threadPDX : ∀ m, (k'.mthread.cell m).PDX = (k.mthread.cell m).PDX
  threadL4id : ∀ m, (k'.mthread.cell m).l4id = (k.mthread.cell m).l4id
  entryLive : k'.apdThread.live = k.apdThread.live
  entryTask : ∀ e, (k'.apdThread.cell e).task = (k.apdThread.cell e).task
  entryThread : ∀ e, (k'.apdThread.cell e).mthread = (k.apdThread.cell e).mthread
  entryNext : ∀ e, (k'.apdThread.cell e).next = (k.apdThread.cell e).next

/-- The memories agree on all that says who owns what. -/
structure Frame (k k' : Mem) : Prop extends SameThreads k k' where
  apd : k'.apd = k.apd
  apdPdxCache : k'.apdPdxCache = k.apdPdxCache
  pdxCache : k'.pdxCache = k.pdxCache
  apdSerial : k'.apdSerial = k.apdSerial
  log : k'.log = k.log

theorem SameThreads.of_eq (htask : k'.task = k.task) (hthread : k'.mthread = k.mthread)
    (hentry : k'.apdThread = k.apdThread) : SameThreads k k' := by
  constructor <;> intros <;> simp only [htask, hthread, hentry]

theorem SameThreads.refl (k : Mem) : SameThreads k k := .of_eq rfl rfl rfl

theorem Frame.refl (k : Mem) : Frame k k := ⟨SameThreads.refl k, rfl, rfl, rfl, rfl, rfl⟩

theorem Frame.trans (h : Frame k k') (h' : Frame k' k'') : Frame k k'' where
  apd := h'.apd.trans h.apd
  apdPdxCache := h'.apdPdxCache.trans h.apdPdxCache
  pdxCache := h'.pdxCache.trans h.pdxCache
  apdSerial := h'.apdSerial.trans h.apdSerial
  log := h'.log.trans h.log
  taskLive := h'.taskLive.trans h.taskLive
  taskApd := fun t => (h'.taskApd t).trans (h.taskApd t)
  taskNext := fun t => (h'.taskNext t).trans (h.taskNext t)
  threadLive := h'.threadLive.trans h.threadLive
  threadTask := fun m => (h'.threadTask m).trans (h.threadTask m)
  threadInfo := fun m => (h'.threadInfo m).trans (h.threadInfo m)
  threadPDX := fun m => (h'.threadPDX m).trans (h.threadPDX m)
  threadL4id := fun m => (h'.threadL4id m).trans (h.threadL4id m)
  entryLive := h'.entryLive.trans h.entryLive
  entryTask := fun e => (h'.entryTask e).trans (h.entryTask e)
  entryThread := fun e => (h'.entryThread e).trans (h.entryThread e)
  entryNext := fun e => (h'.entryNext e).trans (h.entryNext e)

/-- Other parts of the memory. -/
theorem Frame.other (h : Frame k k') (waitq : Waitqs ThreadQueue) (mungiThreads l4Tasks : ℕ → ℕ)
    (nextTid : ℕ) : Frame k { k' with waitq, mungiThreads, l4Tasks, nextTid } := by
  exact h.trans ⟨.of_eq rfl rfl rfl, rfl, rfl, rfl, rfl, rfl⟩

theorem Frame.waitq (h : Frame k k') (waitq : Waitqs ThreadQueue) : Frame k { k' with waitq } :=
  h.other waitq k'.mungiThreads k'.l4Tasks k'.nextTid

/-- Other fields of a thread. -/
theorem Frame.modThread (h : Frame k k') (p : ℕ) {f : Mthread → Mthread}
    (hf : ∀ t, (f t).task = t.task ∧ (f t).apdThreadinfo = t.apdThreadinfo ∧
      (f t).PDX = t.PDX ∧ (f t).l4id = t.l4id) : Frame k (k'.modThread p f) := by
  refine h.trans ⟨?_, rfl, rfl, rfl, rfl, rfl⟩
  constructor <;> intros <;> try rfl
  · exact Heap.modify_field (fun t => (hf t).1) _
  · exact Heap.modify_field (fun t => (hf t).2.1) _
  · exact Heap.modify_field (fun t => (hf t).2.2.1) _
  · exact Heap.modify_field (fun t => (hf t).2.2.2) _

/-- Other fields of a task. -/
theorem Frame.modTask (h : Frame k k') (p : ℕ) {f : L4Task → L4Task}
    (hf : ∀ t, (f t).apd = t.apd ∧ (f t).next = t.next) : Frame k (k'.modTask p f) := by
  refine h.trans ⟨?_, rfl, rfl, rfl, rfl, rfl⟩
  constructor <;> intros <;> try rfl
  · exact Heap.modify_field (fun t => (hf t).1) _
  · exact Heap.modify_field (fun t => (hf t).2) _

/-- Other fields of a pool entry. -/
theorem Frame.modApdThread (h : Frame k k') (p : ℕ) {f : ApdThread → ApdThread}
    (hf : ∀ e, (f e).task = e.task ∧ (f e).mthread = e.mthread ∧ (f e).next = e.next) :
    Frame k (k'.modApdThread p f) := by
  refine h.trans ⟨?_, rfl, rfl, rfl, rfl, rfl⟩
  constructor <;> intros <;> try rfl
  · exact Heap.modify_field (fun e => (hf e).1) _
  · exact Heap.modify_field (fun e => (hf e).2.1) _
  · exact Heap.modify_field (fun e => (hf e).2.2) _

theorem Frame.apdOf (h : Frame k k') (m : ℕ) : k'.apdOf m = k.apdOf m := by
  unfold Mem.apdOf
  rw [h.threadTask, h.taskApd]

theorem Frame.writeTidLink (h : Frame k k') (link : Link) (thread : ℕ) :
    Frame k (k'.writeTidLink link thread) := by
  cases link with
  | bucket i => exact h.other k'.waitq _ k'.l4Tasks k'.nextTid
  | next p => exact h.modThread p fun _ => ⟨rfl, rfl, rfl, rfl⟩

theorem Frame.threadHashRemove (h : Frame k k') (thread : ℕ) :
    Frame k (k'.threadHashRemove thread) := by
  unfold Mem.threadHashRemove
  dsimp only
  split_ifs with hnext
  · exact h.writeTidLink _ _
  · exact (h.writeTidLink _ _).modThread _ fun _ => ⟨rfl, rfl, rfl, rfl⟩

theorem Frame.threadHashInsert (h : Frame k k') (thread : ℕ) :
    Frame k (k'.threadHashInsert thread) := by
  unfold Mem.threadHashInsert
  dsimp only
  refine Frame.modThread (Frame.other ?_ _ _ _ _) thread fun _ => ⟨rfl, rfl, rfl, rfl⟩
  split_ifs with hhead
  · exact h.modThread thread fun _ => ⟨rfl, rfl, rfl, rfl⟩
  · refine Frame.modThread ?_ _ fun _ => ⟨rfl, rfl, rfl, rfl⟩
    exact h.modThread thread fun _ => ⟨rfl, rfl, rfl, rfl⟩

theorem Frame.l4taskThreadRemove (h : Frame k k') (thread : ℕ) :
    Frame k (k'.l4taskThreadRemove thread) :=
  h.modTask _ fun _ => ⟨rfl, rfl⟩

theorem Frame.threadSetupStack (h : Frame k k') (thread supplied size : ℕ) (newTask : Bool)
    (sup : ThreadSupply) : Frame k (k'.threadSetupStack thread supplied size newTask sup).2 := by
  have hset : ∀ base, Frame k (k'.setStack thread base size) := fun base =>
    h.modApdThread _ fun _ => ⟨rfl, rfl, rfl⟩
  unfold Mem.threadSetupStack
  dsimp only
  split_ifs
  all_goals first | exact h | exact hset _

/-- The same with another log. -/
theorem Frame.withLog (h : Frame k k') (log : List Event) :
    Frame { k with log } { k' with log } := by
  obtain ⟨⟨h₁, h₂, h₃, h₄, h₅, h₆, h₇, h₈, h₉, h₁₀, h₁₁, h₁₂⟩, h₁₃, h₁₄, h₁₅, h₁₆, -⟩ := h
  exact ⟨⟨h₁, h₂, h₃, h₄, h₅, h₆, h₇, h₈, h₉, h₁₀, h₁₁, h₁₂⟩, h₁₃, h₁₄, h₁₅, h₁₆, rfl⟩

/-! ### The end of a thread -/

/-- What a call does that ends or reaps the thread `m`: nothing that matters, except that the
thread may be released in the end. -/
inductive Ended (c : ThreadConf) (m : ℕ) (k : Mem) (events : List Event) : Mem → Prop where
  | kept {k' : Mem} (frame : Frame { k with log := events ++ k.log } k') : Ended c m k events k'
  | released {k₁ k' : Mem} (frame : Frame { k with log := events ++ k.log } k₁) (fuel : ℕ)
      (release : k₁.threadRelease c fuel m = some k') : Ended c m k events k'

variable {fuel item tid caller m : ℕ} {status : ℤ}

theorem Ended.of_frame {events : List Event} (h : Frame k k')
    (h' : Ended c m k' events k'') : Ended c m k events k'' := by
  have hlog : Frame { k with log := events ++ k.log } { k' with log := events ++ k'.log } := by
    rw [h.log]
    exact h.withLog _
  cases h' with
  | kept frame => exact .kept (hlog.trans frame)
  | released frame fuel release => exact .released (hlog.trans frame) fuel release

theorem frame_wakeWaiters {thread n : ℕ} {skip : Bool}
    (h : wakeWaiters thread n k = some (skip, k')) : Frame k k' := by
  induction n generalizing k skip with
  | zero => cases h
  | succ n ih =>
    rw [wakeWaiters] at h
    split_ifs at h with hr
    · obtain ⟨-, rfl⟩ := Prod.mk.inj (Option.some.inj h)
      exact (Frame.refl k).waitq _
    · obtain ⟨⟨skip', k₁⟩, h₁, heq⟩ := Option.map_eq_some_iff.mp h
      obtain ⟨-, rfl⟩ := Prod.mk.inj heq
      refine Frame.trans ?_ (ih h₁)
      exact ((Frame.refl k).waitq _).modThread _ fun _ => ⟨rfl, rfl, rfl, rfl⟩

theorem notifyWaiters_ended (h : k.notifyWaiters c fuel item m = some k') : Ended c m k [] k' := by
  obtain ⟨⟨skip, k₁⟩, h₁, h₂⟩ := Option.bind_eq_some_iff.mp h
  have hframe := frame_wakeWaiters h₁
  dsimp only at h₂
  split_ifs at h₂ with hdetached hparent
  · refine .released ?_ fuel h₂
    exact hframe.modThread m fun _ => ⟨rfl, rfl, rfl, rfl⟩
  · obtain ⟨w, -, rfl⟩ := Option.map_eq_some_iff.mp h₂
    exact .kept (hframe.waitq _)
  · obtain rfl := Option.some.inj h₂
    exact .kept hframe

theorem frame_stopWaiting (h : k.stopWaiting fuel m = some k') : Frame k k' := by
  have hwoken : Frame k (k.modThread m fun t => { t with state := .ok }) :=
    (Frame.refl k).modThread m fun _ => ⟨rfl, rfl, rfl, rfl⟩
  unfold stopWaiting at h
  dsimp only at h
  split at h
  · exact Option.some.inj h ▸ hwoken
  · split_ifs at h with hwaiting
    · exact Option.some.inj h ▸ hwoken
    · obtain ⟨w, -, rfl⟩ := Option.map_eq_some_iff.mp h
      exact (hwoken.waitq w).modThread m fun _ => ⟨rfl, rfl, rfl, rfl⟩
  · exact Option.some.inj h ▸ Frame.refl k

/-- Ending a thread, or having it run its handler. -/
theorem doThreadsDelete_ended (h : k.doThreadsDelete c fuel item m status = some k') :
    Ended c m k [.deleted m] k' ∨ Ended c m k [.interrupted m] k' := by
  obtain ⟨k₁, h₁, h₂⟩ := Option.bind_eq_some_iff.mp h
  have hframe := frame_stopWaiting h₁
  split_ifs at h₂ with hkill
  · obtain rfl := Option.some.inj h₂
    exact Or.inr (.of_frame hframe (.kept (Frame.refl _)))
  · refine Or.inl (.of_frame hframe ?_)
    have hdead : Frame (k₁.emit (.deleted m)) (((k₁.emit (.deleted m)).l4taskThreadRemove m).modThread
        m fun t => { t with lasterror := status, state := .zombie }) :=
      ((Frame.refl _).l4taskThreadRemove m).modThread m fun _ => ⟨rfl, rfl, rfl, rfl⟩
    cases notifyWaiters_ended h₂ with
    | kept frame => exact .kept (hdead.trans frame)
    | released frame fuel release => exact .released (hdead.trans frame) fuel release

theorem threadDie_ended (h : k.threadDie c fuel item m = some k') :
    Ended c m k [.deleted m] k' := by
  have hdead : Frame (k.emit (.deleted m)) ((k.emit (.deleted m)).modThread
      m fun t => { t with lasterror := 0, state := .zombie }) :=
    (Frame.refl _).modThread m fun _ => ⟨rfl, rfl, rfl, rfl⟩
  cases notifyWaiters_ended h with
  | kept frame => exact .kept (hdead.trans frame)
  | released frame fuel release => exact .released (hdead.trans frame) fuel release

/-! ### The calls that end threads -/

/-- The thread that `thread_delete` finds for the id, if it is to be ended. -/
def deleteTarget (k : Mem) (fuel tid caller : ℕ) : Option ℕ :=
  (k.threadFindMthreadFromParent fuel tid caller).bind fun child =>
    let state := (k.mthread.cell child).state
    if child = 0 ∨ state = .zombie ∨ state = .dead then none else some child

/-- The thread that `thread_wait` reaps. -/
def waitTarget (k : Mem) (fuel tid caller : ℕ) : Option ℕ :=
  if tid = 0 then
    let child := (waitqRemove k.waitq (.zombies caller)).1
    if child = 0 then none else some child
  else
    (k.threadFindMthreadFromParent fuel tid caller).bind fun child =>
      if child ≠ 0 ∧ (k.mthread.cell child).state = .zombie then some child else none

theorem threadDelete_ended {goes : Bool}
    (h : k.threadDelete c fuel item tid status caller = some (goes, k')) :
    k' = k ∨ ∃ m, k.deleteTarget fuel tid caller = some m ∧
      (Ended c m k [.deleted m] k' ∨ Ended c m k [.interrupted m] k') := by
  obtain ⟨child, hchild, h₁⟩ := Option.bind_eq_some_iff.mp h
  dsimp only at h₁
  split_ifs at h₁ with hno
  · exact Or.inl (Prod.mk.inj (Option.some.inj h₁)).2.symm
  · obtain ⟨k₁, hk₁, heq⟩ := Option.map_eq_some_iff.mp h₁
    obtain ⟨-, rfl⟩ := Prod.mk.inj heq
    refine Or.inr ⟨child, ?_, doThreadsDelete_ended hk₁⟩
    unfold deleteTarget
    rw [hchild, Option.bind_some]
    exact if_neg hno

theorem threadWait_ended {ret : WaitReturn}
    (h : k.threadWait c fuel item tid caller = some (ret, k')) :
    Frame k k' ∨ ∃ m, k.waitTarget fuel tid caller = some m ∧ Ended c m k [] k' := by
  unfold threadWait at h
  unfold waitTarget
  dsimp only at h ⊢
  by_cases htid : tid = 0
  · rw [if_pos htid] at h ⊢
    have hframe := (Frame.refl k).waitq (waitqRemove k.waitq (.zombies caller)).2
    split_ifs at h with hchild hchildren
    · obtain ⟨k₁, hk₁, heq⟩ := Option.map_eq_some_iff.mp h
      obtain ⟨-, rfl⟩ := Prod.mk.inj heq
      exact Or.inr ⟨_, if_neg hchild, .released hframe fuel hk₁⟩
    · obtain ⟨-, rfl⟩ := Prod.mk.inj (Option.some.inj h)
      exact Or.inl (hframe.modThread caller fun _ => ⟨rfl, rfl, rfl, rfl⟩)
    · obtain ⟨-, rfl⟩ := Prod.mk.inj (Option.some.inj h)
      exact Or.inl hframe
  · rw [if_neg htid] at h ⊢
    obtain ⟨child, hchild, h₁⟩ := Option.bind_eq_some_iff.mp h
    split_ifs at h₁ with hno hzombie
    · obtain ⟨-, rfl⟩ := Prod.mk.inj (Option.some.inj h₁)
      exact Or.inl (Frame.refl k)
    · obtain ⟨w, hw, h₂⟩ := Option.bind_eq_some_iff.mp h₁
      obtain ⟨k₁, hk₁, heq⟩ := Option.map_eq_some_iff.mp h₂
      obtain ⟨-, rfl⟩ := Prod.mk.inj heq
      refine Or.inr ⟨child, ?_, .released ((Frame.refl k).waitq w) fuel hk₁⟩
      rw [hchild, Option.bind_some]
      exact if_pos ⟨fun h0 => hno (Or.inl h0), hzombie⟩
    · obtain ⟨w, hw, heq⟩ := Option.map_eq_some_iff.mp h₁
      refine Or.inl ?_
      split_ifs at heq with hadded
      · obtain ⟨-, rfl⟩ := Prod.mk.inj heq
        exact ((Frame.refl k).waitq w.2).modThread caller fun _ => ⟨rfl, rfl, rfl, rfl⟩
      · obtain ⟨-, rfl⟩ := Prod.mk.inj heq
        exact (Frame.refl k).waitq w.2

/-- The return of a PDX thread releases it, before the caller is answered. -/
theorem sysThreadReturn_pdx (hpdx : (k.mthread.cell m).PDX ≠ 0)
    (h : k.sysThreadReturn c fuel item status m = some k') :
    ∃ k₁, (k.l4taskThreadRemove m).threadRelease c fuel m = some k₁ ∧
      k' = k₁.emit (.replied m (k₁.mthread.cell (k₁.mthread.cell m).PDX).l4id) := by
  unfold sysThreadReturn threadReturn at h
  rw [if_pos hpdx, if_pos hpdx] at h
  obtain ⟨k₁, hk₁, rfl⟩ := Option.map_eq_some_iff.mp h
  exact ⟨k₁, hk₁, rfl⟩

/-- The return of another thread deletes it. -/
theorem sysThreadReturn_other (hpdx : (k.mthread.cell m).PDX = 0)
    (h : k.sysThreadReturn c fuel item status m = some k') :
    ∃ goes, k.threadDelete c fuel item 0 status m = some (goes, k') := by
  unfold sysThreadReturn threadReturn at h
  rw [if_neg (not_not.mpr hpdx), if_neg (not_not.mpr hpdx)] at h
  obtain ⟨⟨goes, k₁⟩, hk₁, rfl⟩ := Option.map_eq_some_iff.mp h
  exact ⟨goes, hk₁⟩

end Mem

end Mungi
