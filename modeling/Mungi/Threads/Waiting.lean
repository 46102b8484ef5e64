import Mungi.Lib.Circles
import Mungi.Threads.Lineage

/-!
# Threads that wait for each other

A thread that waits for another one is blocked until that one exits.  The kernel lets it wait for
whatever the search for the thread finds, and that is the caller itself under its own id.  No other
call makes a thread wait, and none ever gives a thread a list of children.

## Main definitions

* `Mem.Blocked` — who waits for whom.
* `Mem.blocksOn`, `Mem.Unlooped` — the calls that close no circle.
* `Mem.NotOwnTid` — no thread waits under its own id.
* `Eased` — no thread has come to wait.
* `Mem.AtRest`, `Lined.Younger` — the invariants of the proofs.

## Main results

* `waiting_iff` — **when threads do not wait for each other in a circle.**
-/

namespace Mungi

open Chain Circles Runs Mem

variable {O : Type} {c : ThreadConf} {k k' k'' : Mem} {fuel m a b p q t tid caller parent : ℕ}
  {sup : ThreadSupply}

/-! ### Who waits for whom -/

/-- The thread `a` is blocked in `thread_wait` for `b`. -/
def Mem.Blocked (k : Mem) (a b : ℕ) : Prop :=
  InUse k.log a ∧ (k.mthread.cell a).state = .waiting ∧ (k.mthread.cell a).waiting = b ∧ b ≠ 0

/-- The thread for which a call of `thread_wait` blocks the caller: the one that is found, if it has
not exited, and if there is an item for the queue. -/
def Mem.blocksOn (k : Mem) (fuel item tid caller : ℕ) : Option ℕ :=
  if tid = 0 ∨ item = 0 then none
  else (k.threadFindMthreadFromParent fuel tid caller).filter fun child =>
    child ≠ 0 ∧ (k.mthread.cell child).state ≠ .dead ∧ (k.mthread.cell child).state ≠ .zombie

/-- **A call that closes no circle.**  The thread that a thread is blocked for is not that thread
itself, and is not blocked for it, directly or through others. -/
def Mem.Unlooped (k : Mem) : LineOp O → Prop
  | .thread (.threadWait fuel item tid caller) => InUse k.log caller →
      ∀ child ∈ k.blocksOn fuel item tid caller,
        child ≠ caller ∧ ¬ Relation.TransGen k.Blocked child caller
  | _ => True

/-- No thread waits under its own id. -/
def Mem.NotOwnTid (k : Mem) : LineOp O → Prop
  | .thread (.threadWait _ _ tid caller) => tid ≠ (k.mthread.cell caller).tid
  | _ => True

instance (k : Mem) : ∀ op : LineOp O, Decidable (k.NotOwnTid op)
  | .thread (.threadCreate ..) | .thread (.threadPdxCreate ..) | .thread (.sysThreadReturn ..)
  | .thread (.threadDelete ..) | .thread (.threadWait ..) | .thread (.threadDie ..)
  | .thread (.excptReg ..) | .thread (.apdFromTemplate ..) | .thread (.apdFindOrCreate ..)
  | .thread (.apdPdxMerge ..) | .thread (.apdClose ..) => by
    unfold Mem.NotOwnTid
    infer_instance
  | .threadSleep .. | .threadResume .. | .threadInfo .. => .isTrue trivial

/-! ### Calls that make no thread wait -/

/-- No thread has come to wait, or to have children. -/
structure Eased (k k' : Mem) : Prop where
  waiting : ∀ q, (k'.mthread.cell q).state = .waiting →
    (k.mthread.cell q).state = .waiting ∧
      (k'.mthread.cell q).waiting = (k.mthread.cell q).waiting
  children : ∀ q, (k.mthread.cell q).children = 0 → (k'.mthread.cell q).children = 0

/-- A structure that is not that of a thread that waits, or has children. -/
def Mem.AtEase (k : Mem) (q : ℕ) : Prop :=
  (k.mthread.cell q).state ≠ .waiting ∧ (k.mthread.cell q).children = 0

namespace Eased

theorem refl (k : Mem) : Eased k k := ⟨fun _ h => ⟨h, rfl⟩, fun _ h => h⟩

theorem trans (h : Eased k k') (h' : Eased k' k'') : Eased k k'' := by
  refine ⟨fun q hq => ?_, fun q hq => h'.children q (h.children q hq)⟩
  obtain ⟨hq', heq'⟩ := h'.waiting q hq
  obtain ⟨hq, heq⟩ := h.waiting q hq'
  exact ⟨hq, heq'.trans heq⟩

theorem atEase (h : Eased k k') (hq : k.AtEase q) : k'.AtEase q :=
  ⟨fun hw => hq.1 (h.waiting q hw).1, h.children q hq.2⟩

/-- The same structures. -/
theorem of_cell (h : k'.mthread.cell = k.mthread.cell) : Eased k k' := by
  constructor <;> intro q hq
  · rw [h] at hq ⊢
    exact ⟨hq, rfl⟩
  · rw [h]
    exact hq

/-- A change of a structure that makes no thread wait. -/
theorem modThread (h : Eased k k') (p : ℕ) {f : Mthread → Mthread}
    (hf : (f (k'.mthread.cell p)).state = .waiting → (k'.mthread.cell p).state = .waiting ∧
      (f (k'.mthread.cell p)).waiting = (k'.mthread.cell p).waiting)
    (hchildren : ∀ t, t.children = 0 → (f t).children = 0) : Eased k (k'.modThread p f) := by
  refine h.trans ⟨fun q hq => ?_, fun q hq => ?_⟩
  · dsimp only at hq ⊢
    rw [Heap.cell_modify] at hq ⊢
    split_ifs at hq ⊢ with hqp
    · rw [hqp]
      exact hf hq
    · exact ⟨hq, rfl⟩
  · dsimp only
    rw [Heap.cell_modify]
    split_ifs with hqp
    · rw [hqp] at hq
      exact hchildren _ hq
    · exact hq

/-- A change of other fields. -/
theorem modOther (h : Eased k k') (p : ℕ) {f : Mthread → Mthread}
    (hf : ∀ t, (f t).state = t.state ∧ (f t).waiting = t.waiting ∧
      (f t).children = t.children) : Eased k (k'.modThread p f) := by
  refine h.modThread p (fun hw => ?_) fun t hc => ?_
  · rw [(hf _).1] at hw
    exact ⟨hw, (hf _).2.1⟩
  · rw [(hf t).2.2, hc]

/-- A new structure of a thread that does not wait. -/
theorem alloc {x : Mthread} {mthread : Heap Mthread} (halloc : k.mthread.alloc p x = some mthread)
    (hx : x.state = .ok ∧ x.children = 0) (hk : k'.mthread.cell = mthread.cell) : Eased k k' := by
  constructor <;> intro q hq
  · rw [hk] at hq ⊢
    by_cases hqp : q = p
    · rw [hqp, Heap.cell_alloc_self halloc, hx.1] at hq
      cases hq
    · rw [Heap.cell_alloc_of_ne halloc hqp] at hq ⊢
      exact ⟨hq, rfl⟩
  · rw [hk]
    by_cases hqp : q = p
    · rw [hqp, Heap.cell_alloc_self halloc, hx.2]
    · rw [Heap.cell_alloc_of_ne halloc hqp, hq]

/-- Another table. -/
theorem table (h : Eased k k') (mungiThreads : ℕ → ℕ) : Eased k { k' with mungiThreads } :=
  ⟨h.waiting, h.children⟩

end Eased

theorem Mem.Aside.eased (h : Aside k k') : Eased k k' := .of_cell h.thread

/-! ### The table -/

theorem eased_threadHashRemove (k : Mem) (m : ℕ) : Eased k (k.threadHashRemove m) := by
  have hwrite : Eased k (k.writeTidLink (k.mthread.cell m).pprev (k.mthread.cell m).next) := by
    unfold writeTidLink
    split
    · exact .of_cell rfl
    · exact (Eased.refl k).modOther _ fun _ => ⟨rfl, rfl, rfl⟩
  unfold threadHashRemove
  dsimp only
  split_ifs
  · exact hwrite
  · exact hwrite.modOther _ fun _ => ⟨rfl, rfl, rfl⟩

theorem eased_threadHashInsert (k : Mem) (m : ℕ) : Eased k (k.threadHashInsert m) := by
  unfold threadHashInsert
  dsimp only
  refine Eased.modOther (.table ?_ _) m fun _ => ⟨rfl, rfl, rfl⟩
  have hnext := (Eased.refl k).modOther m (f := fun t =>
    { t with next := k.mungiThreads ((k.mthread.cell m).tid % threadHashsize) })
    fun _ => ⟨rfl, rfl, rfl⟩
  split_ifs
  · exact hnext
  · exact hnext.modOther _ fun _ => ⟨rfl, rfl, rfl⟩

/-! ### Creation -/

theorem eased_taskNew (h : k.taskNew c sup = some (t, k')) : Eased k k' := by
  unfold taskNew at h
  by_cases htask : sup.task = 0
  · rw [if_pos htask] at h
    obtain ⟨-, rfl⟩ := Prod.mk.inj (Option.some.inj h)
    exact .refl k
  · rw [if_neg htask] at h
    obtain ⟨task, -, h⟩ := Option.bind_eq_some_iff.mp h
    dsimp only at h
    by_cases hupcall : sup.upcall = 0
    · rw [if_pos hupcall] at h
      obtain ⟨-, rfl⟩ := Prod.mk.inj (Option.some.inj h)
      exact .of_cell rfl
    · rw [if_neg hupcall] at h
      obtain ⟨mthread, halloc, h⟩ := Option.map_eq_some_iff.mp h
      split at h
      all_goals
        obtain ⟨-, rfl⟩ := Prod.mk.inj h
        exact .alloc halloc ⟨rfl, rfl⟩ rfl

theorem eased_findTask {isNew : Bool} (h : k.findTask c fuel a sup = some ((t, isNew), k')) :
    Eased k k' := by
  obtain ⟨t₀, -, h⟩ := Option.bind_eq_some_iff.mp h
  split_ifs at h
  · obtain ⟨-, rfl⟩ := Prod.mk.inj (Option.some.inj h)
    exact .refl k
  · obtain ⟨⟨r, k₁⟩, hnew, h⟩ := Option.map_eq_some_iff.mp h
    dsimp only at h
    split_ifs at h
    all_goals
      obtain ⟨-, rfl⟩ := Prod.mk.inj h
      exact (eased_taskNew hnew).trans (.of_cell rfl)

/-- What `thread_get_mthread` does when the pool is empty. -/
theorem eased_makeMthread {isNew : Bool}
    (h : k.makeMthread c fuel a parent sup = some ((m, isNew), k')) :
    Eased k k' ∧ (m ≠ 0 → k'.AtEase m) := by
  unfold makeMthread at h
  by_cases hnone : sup.mthread = 0
  · rw [if_pos hnone] at h
    obtain ⟨heq, rfl⟩ := Prod.mk.inj (Option.some.inj h)
    obtain ⟨rfl, -⟩ := Prod.mk.inj heq
    exact ⟨.refl k, fun h0 => absurd rfl h0⟩
  · rw [if_neg hnone] at h
    obtain ⟨mthread, halloc, h⟩ := Option.bind_eq_some_iff.mp h
    obtain ⟨⟨⟨t, isNew'⟩, k₂⟩, hfind, h⟩ := Option.bind_eq_some_iff.mp h
    have halloced : Eased k (({ k with mthread } : Mem).clearQueues sup.mthread) :=
      .alloc halloc ⟨rfl, rfl⟩ rfl
    have hself : (({ k with mthread } : Mem).clearQueues sup.mthread).AtEase sup.mthread := by
      have hcell := Heap.cell_alloc_self halloc
      refine ⟨?_, congrArg Mthread.children hcell⟩
      rw [show (({ k with mthread } : Mem).clearQueues sup.mthread).mthread = mthread from rfl,
        hcell]
      nofun
    have heased := eased_findTask hfind
    dsimp only at h
    split_ifs at h
    · obtain ⟨heq, rfl⟩ := Prod.mk.inj (Option.some.inj h)
      obtain ⟨rfl, -⟩ := Prod.mk.inj heq
      exact ⟨halloced.trans (heased.trans (.of_cell rfl)), fun h0 => absurd rfl h0⟩
    · obtain ⟨heq, rfl⟩ := Prod.mk.inj (Option.some.inj h)
      obtain ⟨rfl, -⟩ := Prod.mk.inj heq
      exact ⟨halloced.trans (heased.trans (.of_cell rfl)), fun h0 => absurd rfl h0⟩
    · obtain ⟨apdThread, -, h⟩ := Option.map_eq_some_iff.mp h
      obtain ⟨heq, rfl⟩ := Prod.mk.inj h
      obtain ⟨rfl, -⟩ := Prod.mk.inj heq
      have hentry : Eased k₂ { k₂ with apdThread } := .of_cell rfl
      have hrest := hentry.modOther sup.mthread
        (f := fun t' => { t' with apdThreadinfo := sup.apdThread, task := t })
        fun _ => ⟨rfl, rfl, rfl⟩
      exact ⟨halloced.trans (heased.trans hrest), fun _ => (heased.trans hrest).atEase hself⟩

theorem eased_takePooled (k : Mem) (a parent : ℕ) : Eased k (k.takePooled a parent).2 ∧
    (k.takePooled a parent).2.AtEase (k.takePooled a parent).1 := by
  generalize hnew : (k.takePooled a parent).1 = new
  have hthread : (k.takePooled a parent).2.mthread = k.mthread.modify new fun t =>
      { t with
        parent
        children := 0
        state := .ok
        lasterror := 0
        waiting := 0
        PDX := 0
        kill := 0
        detached := false } := by
    rw [← hnew]
    rfl
  have hmod : Eased k (k.modThread new fun t =>
      { t with
        parent
        children := 0
        state := .ok
        lasterror := 0
        waiting := 0
        PDX := 0
        kill := 0
        detached := false }) := (Eased.refl k).modThread new nofun fun _ _ => rfl
  refine ⟨hmod.trans (.of_cell (by rw [hthread])), ?_, ?_⟩
  · rw [hthread, Heap.cell_modify_self]
    nofun
  · rw [hthread, Heap.cell_modify_self]

theorem eased_threadGetMthread {got : GotMthread}
    (h : k.threadGetMthread c fuel a parent sup = some (got, k')) :
    Eased k k' ∧ (got.new ≠ 0 → k'.AtEase got.new) := by
  have husers : Eased k (k.modApd a fun x => { x with users := x.users + 1 }) := .of_cell rfl
  unfold threadGetMthread at h
  dsimp only [] at h
  split_ifs at h
  · obtain ⟨rfl, rfl⟩ := Prod.mk.inj (Option.some.inj h)
    obtain ⟨heased, hself⟩ :=
      eased_takePooled (k.modApd a fun x => { x with users := x.users + 1 }) a parent
    exact ⟨husers.trans heased, fun _ => hself⟩
  · obtain ⟨⟨⟨m, isNew⟩, k₁⟩, hmake, heq⟩ := Option.map_eq_some_iff.mp h
    obtain ⟨rfl, rfl⟩ := Prod.mk.inj heq
    obtain ⟨heased, hself⟩ := eased_makeMthread hmake
    exact ⟨husers.trans heased, hself⟩

theorem eased_threadSetupStack (k : Mem) (m supplied size : ℕ) (newTask : Bool)
    (sup : ThreadSupply) : Eased k (k.threadSetupStack m supplied size newTask sup).2 := by
  unfold threadSetupStack
  dsimp only
  split_ifs <;> exact .of_cell rfl

theorem eased_l4taskThreadAdd (h : k.l4taskThreadAdd c m = some k') : Eased k k' := by
  obtain ⟨lthread, -, rfl⟩ := Option.map_eq_some_iff.mp h
  refine Eased.trans ?_ (eased_threadHashInsert _ m)
  unfold placeThread
  dsimp only
  exact ((Eased.refl k).modOther m (f := fun t => { t with
      task := (k.apdThread.cell (k.mthread.cell m).apdThreadinfo).task
      l4id := { (k.task.cell (k.apdThread.cell (k.mthread.cell m).apdThreadinfo).task).task with
        lthread }
      tid := k.nextTid }) fun _ => ⟨rfl, rfl, rfl⟩).trans (.of_cell rfl)

theorem eased_startTask (k : Mem) (m : ℕ) (ret : L4Id) : Eased k (k.startTask m ret) := by
  have htask : Eased k (k.modTask (k.mthread.cell m).task fun t => { t with task := ret }) :=
    .of_cell rfl
  exact htask.modOther m fun _ => ⟨rfl, rfl, rfl⟩

theorem eased_threadCreate {supplied size : ℕ} {start : Option (L4Id × ℕ)}
    (h : k.threadCreate c fuel a parent supplied size sup = some ((m, start), k')) :
    Eased k k' ∧ (m ≠ 0 → k'.AtEase m) := by
  obtain ⟨⟨got, k₁⟩, hget, h⟩ := Option.bind_eq_some_iff.mp h
  obtain ⟨hgot, hself⟩ := eased_threadGetMthread hget
  dsimp only at h
  by_cases hnew : got.new = 0
  · rw [if_pos hnew] at h
    obtain ⟨heq, rfl⟩ := Prod.mk.inj (Option.some.inj h)
    obtain ⟨rfl, -⟩ := Prod.mk.inj heq
    exact ⟨hgot, fun h0 => absurd rfl h0⟩
  · rw [if_neg hnew] at h
    obtain ⟨k₂, hadd, h⟩ := Option.map_eq_some_iff.mp h
    have hadded := (eased_threadSetupStack k₁ got.new supplied size got.newTask sup).trans
      (eased_l4taskThreadAdd hadd)
    have hend : ∀ k₃, Eased k₂ k₃ → Eased k k₃ ∧ (got.new ≠ 0 → k₃.AtEase got.new) :=
      fun k₃ h₃ => ⟨hgot.trans (hadded.trans h₃), fun h0 => (hadded.trans h₃).atEase (hself h0)⟩
    have hfail : Eased k (k₂.undoThread got.new) := (hend (k₂.undoThread got.new) (.of_cell rfl)).1
    split_ifs at h
    · cases hstarted : sup.started with
      | none =>
        rw [hstarted] at h
        obtain ⟨heq, rfl⟩ := Prod.mk.inj h
        obtain ⟨rfl, -⟩ := Prod.mk.inj heq
        exact ⟨hfail, fun h0 => absurd rfl h0⟩
      | some ret =>
        rw [hstarted] at h
        obtain ⟨heq, rfl⟩ := Prod.mk.inj h
        obtain ⟨rfl, -⟩ := Prod.mk.inj heq
        exact hend _ ((eased_startTask k₂ _ ret).trans (.of_cell rfl))
    · obtain ⟨heq, rfl⟩ := Prod.mk.inj h
      obtain ⟨rfl, -⟩ := Prod.mk.inj heq
      exact hend _ (.of_cell rfl)
    · obtain ⟨heq, rfl⟩ := Prod.mk.inj h
      obtain ⟨rfl, -⟩ := Prod.mk.inj heq
      exact ⟨hfail, fun h0 => absurd rfl h0⟩
    · obtain ⟨heq, rfl⟩ := Prod.mk.inj h
      obtain ⟨rfl, -⟩ := Prod.mk.inj heq
      exact hend _ (.of_cell rfl)

theorem eased_threadPdxCreate (h : k.threadPdxCreate c fuel a caller sup = some (m, k')) :
    Eased k k' ∧ (m ≠ 0 → k'.AtEase m) := by
  obtain ⟨⟨got, k₁⟩, hget, h⟩ := Option.bind_eq_some_iff.mp h
  obtain ⟨hgot, hself⟩ := eased_threadGetMthread hget
  dsimp only at h
  by_cases hnew : got.new = 0
  · rw [if_pos hnew] at h
    obtain ⟨rfl, rfl⟩ := Prod.mk.inj (Option.some.inj h)
    exact ⟨hgot, fun h0 => absurd rfl h0⟩
  · rw [if_neg hnew] at h
    obtain ⟨k₂, hadd, h⟩ := Option.map_eq_some_iff.mp h
    have hset : Eased k₁ (k₁.modThread got.new fun t => { t with PDX := caller }) :=
      (Eased.refl k₁).modOther _ fun _ => ⟨rfl, rfl, rfl⟩
    have hadded := (hset.trans (eased_threadSetupStack _ got.new 0 mthreadStackSize got.newTask
      sup)).trans (eased_l4taskThreadAdd hadd)
    have hend : ∀ k₃, Eased k₂ k₃ → Eased k k₃ ∧ (got.new ≠ 0 → k₃.AtEase got.new) :=
      fun k₃ h₃ => ⟨hgot.trans (hadded.trans h₃), fun h0 => (hadded.trans h₃).atEase (hself h0)⟩
    have hfail : Eased k (k₂.undoThread got.new) := (hend (k₂.undoThread got.new) (.of_cell rfl)).1
    split_ifs at h
    · cases hstarted : sup.started with
      | none =>
        rw [hstarted] at h
        obtain ⟨rfl, rfl⟩ := Prod.mk.inj h
        exact ⟨hfail, fun h0 => absurd rfl h0⟩
      | some ret =>
        rw [hstarted] at h
        obtain ⟨rfl, rfl⟩ := Prod.mk.inj h
        exact hend _ ((eased_startTask k₂ _ ret).trans (.of_cell rfl))
    · obtain ⟨rfl, rfl⟩ := Prod.mk.inj h
      exact ⟨hfail, fun h0 => absurd rfl h0⟩
    · obtain ⟨rfl, rfl⟩ := Prod.mk.inj h
      exact hend _ (.of_cell rfl)

/-! ### The end of a thread -/

/-- No thread has come to wait, or to have children, or into use. -/
structure Freer (k k' : Mem) : Prop extends Eased k k' where
  inUse : ∀ q, InUse k'.log q → InUse k.log q

namespace Freer

theorem refl (k : Mem) : Freer k k := ⟨.refl k, fun _ => id⟩

theorem trans (h : Freer k k') (h' : Freer k' k'') : Freer k k'' :=
  ⟨h.toEased.trans h'.toEased, fun q hq => h.inUse q (h'.inUse q hq)⟩

theorem modThread (h : Freer k k') (p : ℕ) {f : Mthread → Mthread}
    (hf : (f (k'.mthread.cell p)).state = .waiting → (k'.mthread.cell p).state = .waiting ∧
      (f (k'.mthread.cell p)).waiting = (k'.mthread.cell p).waiting)
    (hchildren : ∀ t, t.children = 0 → (f t).children = 0) : Freer k (k'.modThread p f) :=
  ⟨h.toEased.modThread p hf hchildren, h.inUse⟩

theorem waitq (h : Freer k k') (waitq : Waitqs ThreadQueue) : Freer k { k' with waitq } :=
  ⟨⟨h.waiting, h.children⟩, h.inUse⟩

end Freer

theorem Eased.freer (h : Eased k k') (hout : handedOut k'.log = handedOut k.log) : Freer k k' := by
  refine ⟨h, fun q hq => ?_⟩
  unfold InUse at hq ⊢
  rwa [hout] at hq

theorem Mem.Aside.freer (h : Aside k k') : Freer k k' := h.eased.freer h.handedOut

theorem freer_threadRelease (h : k.threadRelease c fuel m = some k') : Freer k k' := by
  have hpushed : Freer k (k.pushed m) := by
    refine ⟨(eased_threadHashRemove k m).trans (.of_cell rfl), fun q hq => ?_⟩
    unfold InUse at hq ⊢
    rw [(k.pushed_pushed m).log] at hq
    exact List.map_subset Prod.fst List.eraseP_subset hq
  rw [threadRelease_eq] at h
  split_ifs at h
  · obtain ⟨⟨freed, k₁⟩, hclose, rfl⟩ := Option.map_eq_some_iff.mp h
    exact hpushed.trans (apdClose_aside hclose).freer
  · exact Option.some.inj h ▸ hpushed

theorem freer_wakeWaiters {thread n : ℕ} {skip : Bool}
    (h : wakeWaiters thread n k = some (skip, k')) : Freer k k' := by
  induction n generalizing k skip with
  | zero => cases h
  | succ n ih =>
    rw [wakeWaiters] at h
    split_ifs at h
    · obtain ⟨-, rfl⟩ := Prod.mk.inj (Option.some.inj h)
      exact (Freer.refl k).waitq _
    · obtain ⟨⟨skip', k₁⟩, h₁, heq⟩ := Option.map_eq_some_iff.mp h
      obtain ⟨-, rfl⟩ := Prod.mk.inj heq
      refine Freer.trans ?_ (ih h₁)
      refine ((Freer.refl k).waitq _).modThread _ ?_ fun _ => id
      rintro ⟨⟩

theorem freer_notifyWaiters {item : ℕ} (h : k.notifyWaiters c fuel item m = some k') :
    Freer k k' := by
  obtain ⟨⟨skip, k₁⟩, h₁, h₂⟩ := Option.bind_eq_some_iff.mp h
  have hwoken := freer_wakeWaiters h₁
  dsimp only at h₂
  split_ifs at h₂
  · have hdead : Freer k (k₁.modThread m fun t => { t with state := .dead }) :=
      hwoken.modThread m nofun fun _ => id
    exact hdead.trans (freer_threadRelease h₂)
  · obtain ⟨w, -, rfl⟩ := Option.map_eq_some_iff.mp h₂
    exact hwoken.waitq _
  · exact Option.some.inj h₂ ▸ hwoken

theorem freer_stopWaiting (h : k.stopWaiting fuel m = some k') : Freer k k' := by
  have hwoken : Freer k (k.modThread m fun t => { t with state := .ok }) :=
    (Freer.refl k).modThread m nofun fun _ => id
  have hawake : ∀ w, Freer k (({ k.modThread m fun t => { t with state := .ok } with
      waitq := w } : Mem).modThread m fun t => { t with waiting := 0 }) := by
    intro w
    refine (hwoken.waitq w).modThread m (fun hw => ?_) fun _ => id
    dsimp only at hw
    rw [Heap.cell_modify_self] at hw
    cases hw
  unfold stopWaiting at h
  dsimp only at h
  split at h
  · exact Option.some.inj h ▸ hwoken
  · split_ifs at h
    · exact Option.some.inj h ▸ hwoken
    · obtain ⟨w, -, rfl⟩ := Option.map_eq_some_iff.mp h
      exact hawake w
  · exact Option.some.inj h ▸ Freer.refl k

theorem freer_doThreadsDelete {item : ℕ} {status : ℤ}
    (h : k.doThreadsDelete c fuel item m status = some k') : Freer k k' := by
  obtain ⟨k₁, h₁, h₂⟩ := Option.bind_eq_some_iff.mp h
  have hstopped := freer_stopWaiting h₁
  split_ifs at h₂
  · rw [← Option.some.inj h₂]
    exact hstopped.trans (Eased.freer (.of_cell rfl) rfl)
  · have hremoved : Freer k₁ ((k₁.emit (.deleted m)).l4taskThreadRemove m) :=
      Eased.freer (.of_cell rfl) rfl
    have hzombie : Freer k (((k₁.emit (.deleted m)).l4taskThreadRemove m).modThread m fun t =>
        { t with lasterror := status, state := .zombie }) :=
      (hstopped.trans hremoved).modThread m nofun fun _ => id
    exact hzombie.trans (freer_notifyWaiters h₂)

theorem freer_threadDie {item : ℕ} (h : k.threadDie c fuel item m = some k') : Freer k k' := by
  have hemit : Freer k (k.emit (.deleted m)) := Eased.freer (.of_cell rfl) rfl
  have hzombie : Freer k ((k.emit (.deleted m)).modThread m fun t =>
      { t with lasterror := 0, state := .zombie }) := hemit.modThread m nofun fun _ => id
  exact hzombie.trans (freer_notifyWaiters h)

theorem freer_threadDelete {item : ℕ} {status : ℤ} {goes : Bool}
    (h : k.threadDelete c fuel item tid status caller = some (goes, k')) : Freer k k' := by
  obtain ⟨child, -, h⟩ := Option.bind_eq_some_iff.mp h
  dsimp only at h
  split_ifs at h
  · rw [← (Prod.mk.inj (Option.some.inj h)).2]
    exact .refl k
  · obtain ⟨k₁, hdelete, heq⟩ := Option.map_eq_some_iff.mp h
    obtain ⟨-, rfl⟩ := Prod.mk.inj heq
    exact freer_doThreadsDelete hdelete

theorem freer_sysThreadReturn {item : ℕ} {status : ℤ}
    (h : k.sysThreadReturn c fuel item status m = some k') : Freer k k' := by
  by_cases hpdx : (k.mthread.cell m).PDX = 0
  · obtain ⟨goes, hd⟩ := sysThreadReturn_other hpdx h
    exact freer_threadDelete hd
  · obtain ⟨k₁, hrelease, rfl⟩ := sysThreadReturn_pdx hpdx h
    have hremoved : Freer k (k.l4taskThreadRemove m) := Eased.freer (.of_cell rfl) rfl
    exact (hremoved.trans (freer_threadRelease hrelease)).trans (Eased.freer (.of_cell rfl) rfl)

theorem freer_threadSleep {time : ℕ} {r : SleepReturn}
    (h : k.threadSleep fuel tid time caller = some (r, k')) : Freer k k' := by
  obtain ⟨child, -, heq⟩ := Option.map_eq_some_iff.mp h
  dsimp only at heq
  by_cases hzero : child = 0
  · rw [if_pos hzero] at heq
    rw [← (Prod.mk.inj heq).2]
    exact .refl k
  rw [if_neg hzero] at heq
  by_cases hself : child = caller
  · rw [if_pos hself] at heq
    rw [← (Prod.mk.inj heq).2]
    exact (Freer.refl k).modThread child nofun fun _ => id
  · rw [if_neg hself] at heq
    rw [← (Prod.mk.inj heq).2]
    exact .refl k

/-! ### Waiting -/

/-- **What `thread_wait` does**: no thread comes to wait, or the caller does, for the thread that is
found, or for any of its children, if it has some. -/
theorem threadWait_waits {item : ℕ} {ret : WaitReturn}
    (h : k.threadWait c fuel item tid caller = some (ret, k')) :
    (k.blocksOn fuel item tid caller = none ∧ (Freer k k' ∨
      (k.mthread.cell caller).children ≠ 0 ∧ k'.log = k.log ∧
        k'.mthread = k.mthread.modify caller fun t => { t with state := .waiting })) ∨
      ∃ child, child ≠ 0 ∧ k.blocksOn fuel item tid caller = some child ∧ k'.log = k.log ∧
        k'.mthread = k.mthread.modify caller fun t =>
          { t with state := .waiting, waiting := child } := by
  unfold threadWait at h
  unfold blocksOn
  dsimp only at h
  by_cases htid : tid = 0
  · rw [if_pos htid] at h
    rw [if_pos (Or.inl htid)]
    refine Or.inl ⟨rfl, ?_⟩
    split_ifs at h with hchild hsome
    · obtain ⟨k₁, hrelease, heq⟩ := Option.map_eq_some_iff.mp h
      obtain ⟨-, rfl⟩ := Prod.mk.inj heq
      exact Or.inl (((Freer.refl k).waitq _).trans (freer_threadRelease hrelease))
    · obtain ⟨-, rfl⟩ := Prod.mk.inj (Option.some.inj h)
      exact Or.inr ⟨hsome, rfl, rfl⟩
    · obtain ⟨-, rfl⟩ := Prod.mk.inj (Option.some.inj h)
      exact Or.inl ((Freer.refl k).waitq _)
  · rw [if_neg htid] at h
    obtain ⟨child, hfind, h⟩ := Option.bind_eq_some_iff.mp h
    rw [hfind]
    split_ifs at h with hno hzombie
    · obtain ⟨-, rfl⟩ := Prod.mk.inj (Option.some.inj h)
      refine Or.inl ⟨?_, Or.inl (.refl k)⟩
      split_ifs
      · rfl
      · rw [Option.filter_some, if_neg]
        rcases hno with hno | hno <;> simp [hno]
    · obtain ⟨w, -, h⟩ := Option.bind_eq_some_iff.mp h
      obtain ⟨k₁, hrelease, heq⟩ := Option.map_eq_some_iff.mp h
      obtain ⟨-, rfl⟩ := Prod.mk.inj heq
      refine Or.inl ⟨?_, Or.inl (((Freer.refl k).waitq w).trans (freer_threadRelease hrelease))⟩
      split_ifs
      · rfl
      · rw [Option.filter_some, if_neg]
        simp [hzombie]
    · obtain ⟨⟨success, w⟩, hadd, heq⟩ := Option.map_eq_some_iff.mp h
      rw [not_or] at hno
      by_cases hitem : item = 0
      · rw [waitqAdd, if_pos hitem] at hadd
        obtain ⟨rfl, rfl⟩ := Prod.mk.inj (Option.some.inj hadd)
        obtain ⟨-, rfl⟩ := Prod.mk.inj heq
        exact Or.inl ⟨if_pos (Or.inr hitem), Or.inl ((Freer.refl k).waitq _)⟩
      · obtain rfl : success = true := by
          rw [waitqAdd, if_neg hitem] at hadd
          obtain ⟨ptr, -, hadd⟩ := Option.bind_eq_some_iff.mp hadd
          obtain ⟨items, -, hadd⟩ := Option.map_eq_some_iff.mp hadd
          exact (Prod.mk.inj hadd).1.symm
        obtain ⟨-, rfl⟩ := Prod.mk.inj heq
        refine Or.inr ⟨child, hno.1, ?_, rfl, rfl⟩
        rw [if_neg (not_or.mpr ⟨htid, hitem⟩), Option.filter_some, if_pos]
        simp [hno.1, hno.2, hzombie]

/-! ### Runs -/

/-- A call that leads to no thread that waits anew. -/
theorem Eased.blocked (h : Eased k k')
    (hin : ∀ q, InUse k'.log q → InUse k.log q ∨ k'.AtEase q) (a b : ℕ) (hab : k'.Blocked a b) :
    k.Blocked a b := by
  obtain ⟨ha, hstate, hwaiting, hb⟩ := hab
  obtain ⟨hold, heq⟩ := h.waiting a hstate
  exact ⟨(hin a ha).resolve_right fun hease => hease.1 hstate, hold, heq.symm.trans hwaiting, hb⟩

theorem Freer.blocked (h : Freer k k') : ∀ a b, k'.Blocked a b → k.Blocked a b :=
  h.toEased.blocked fun q hq => Or.inl (h.inUse q hq)

/-- A structure that is not in use does not wait. -/
theorem blocked_of_unused {f : Mthread → Mthread} (hp : ¬ InUse k.log p) (hlog : k'.log = k.log)
    (hk : k'.mthread = k.mthread.modify p f) (a b : ℕ) (hab : k'.Blocked a b) :
    k.Blocked a b := by
  unfold Mem.Blocked at hab ⊢
  rw [hlog] at hab
  have hne : a ≠ p := fun heq => hp (heq ▸ hab.1)
  rwa [hk, Heap.cell_modify_of_ne hne] at hab

/-- No thread in use has a list of children. -/
def Mem.Childless (k : Mem) : Prop :=
  ∀ q, InUse k.log q → (k.mthread.cell q).children = 0

namespace Mem.Childless

theorem eased (h : k.Childless) (he : Eased k k')
    (hin : ∀ q, InUse k'.log q → InUse k.log q ∨ k'.AtEase q) : k'.Childless := by
  intro q hq
  rcases hin q hq with hq | hease
  · exact he.children q (h q hq)
  · exact hease.2

theorem freer (h : k.Childless) (hf : Freer k k') : k'.Childless :=
  h.eased hf.toEased fun q hq => Or.inl (hf.inUse q hq)

/-- A structure that is not in use may be changed. -/
theorem unused (h : k.Childless) {f : Mthread → Mthread} (hp : ¬ InUse k.log p)
    (hlog : k'.log = k.log) (hk : k'.mthread = k.mthread.modify p f) : k'.Childless := by
  intro q hq
  rw [hlog] at hq
  have hne : q ≠ p := fun heq => hp (heq ▸ hq)
  rw [hk, Heap.cell_modify_of_ne hne]
  exact h q hq

/-- A thread that waits has no children either. -/
theorem threadWait (h : k.Childless) {item : ℕ} {ret : WaitReturn}
    (hwait : k.threadWait c fuel item tid caller = some (ret, k')) : k'.Childless := by
  rcases threadWait_waits hwait with ⟨-, hfreer | ⟨hsome, hlog, hk⟩⟩ | ⟨child, -, -, hlog, hk⟩
  · exact h.freer hfreer
  · exact h.unused (fun hin => hsome (h caller hin)) hlog hk
  · intro q hq
    rw [hlog] at hq
    have hfield : ∀ x, ((k.mthread.modify caller fun t =>
        { t with state := .waiting, waiting := child }).cell x).children =
          (k.mthread.cell x).children := by
      intro x
      rw [Heap.cell_modify]
      split_ifs with hx
      · rw [hx]
      · rfl
    rw [hk, hfield]
    exact h q hq

end Mem.Childless

/-- What holds of the memory as long as no circle is closed. -/
structure Mem.AtRest (k : Mem) : Prop where
  acyclic : Acyclic k.Blocked
  children : k.Childless

namespace Mem.AtRest

/-- A thread that waits for another one has a new step, and the others keep theirs. -/
theorem blocked_waits {child : ℕ} (hcaller : InUse k.log caller) (hchild : child ≠ 0)
    (hlog : k'.log = k.log) (hk : k'.mthread = k.mthread.modify caller fun t =>
      { t with state := .waiting, waiting := child }) (a b : ℕ) :
    k'.Blocked a b ↔ a ≠ caller ∧ k.Blocked a b ∨ a = caller ∧ b = child := by
  unfold Mem.Blocked
  rw [hlog, hk]
  by_cases ha : a = caller
  · rw [ha, Heap.cell_modify_self]
    constructor
    · rintro ⟨-, -, rfl, -⟩
      exact Or.inr ⟨rfl, rfl⟩
    · rintro (⟨hne, -⟩ | ⟨-, rfl⟩)
      · exact absurd rfl hne
      · exact ⟨hcaller, rfl, rfl, hchild⟩
  · rw [Heap.cell_modify_of_ne ha]
    constructor
    · exact fun hab => Or.inl ⟨ha, hab⟩
    · rintro (⟨-, hab⟩ | ⟨heq, -⟩)
      · exact hab
      · exact absurd heq ha

/-- **Waiting closes no circle** just when the call is one that closes none. -/
theorem threadWait (h : k.AtRest) {item : ℕ} {ret : WaitReturn}
    (hwait : k.threadWait c fuel item tid caller = some (ret, k')) :
    k.Unlooped (.thread (.threadWait fuel item tid caller) : LineOp O) ↔ Acyclic k'.Blocked := by
  have hnone : k.blocksOn fuel item tid caller = none →
      (∀ a b, k'.Blocked a b → k.Blocked a b) →
        (k.Unlooped (.thread (.threadWait fuel item tid caller) : LineOp O) ↔
          Acyclic k'.Blocked) := by
    intro hnone hsub
    refine iff_of_true (fun _ child hchild => ?_) (h.acyclic.mono hsub)
    rw [hnone] at hchild
    cases hchild
  rcases threadWait_waits hwait with ⟨hblocks, hfreer | ⟨hsome, hlog, hk⟩⟩ |
    ⟨child, hzero, hblocks, hlog, hk⟩
  · exact hnone hblocks hfreer.blocked
  · exact hnone hblocks (blocked_of_unused (fun hin => hsome (h.children caller hin)) hlog hk)
  · by_cases hin : InUse k.log caller
    · rw [acyclic_iff_of_step h.acyclic (blocked_waits hin hzero hlog hk)]
      constructor
      · exact fun hun => hun hin child hblocks
      · rintro hun - child' hchild'
        obtain rfl := Option.some.inj (hblocks.symm.trans hchild')
        exact hun
    · exact iff_of_true (fun hin' => absurd hin' hin)
        (h.acyclic.mono (blocked_of_unused hin hlog hk))

end Mem.AtRest

variable {s s' : Lined}

/-- No thread has come to wait, those that have come into use do not, and neither do those that have
got a new number. -/
structure Lined.Eases (s s' : Lined) : Prop extends Eased s.mem s'.mem where
  inUse : ∀ q, InUse s'.mem.log q → InUse s.mem.log q ∨ s'.mem.AtEase q
  self : ∀ q, s'.self q = s.self q ∨ s'.self q = s.count + 1 ∧ s'.mem.AtEase q

/-- **A call that makes no thread wait.** -/
theorem lineStep_eases {op : LineOp O} (hstep : lineStep c s op = some s')
    (hop : ∀ fuel item tid caller, op ≠ .thread (.threadWait fuel item tid caller)) :
    s.Eases s' := by
  have hfreer : ∀ {k₁ : Mem}, Freer s.mem k₁ → s.Eases { s with mem := k₁ } :=
    fun hf => ⟨hf.toEased, fun q hq => Or.inl (hf.inUse q hq), fun q => Or.inl rfl⟩
  have hborn : ∀ {m a parent : ℕ} {k₁ : Mem} {events : List Event},
      k₁.log = (if m = 0 then [] else events) ++ s.mem.log → (m ≠ 0 →
        handedOut (events ++ s.mem.log) = (m, a) :: handedOut s.mem.log) →
      Eased s.mem k₁ ∧ (m ≠ 0 → k₁.AtEase m) → s.Eases (s.born m parent k₁) := by
    rintro m a parent k₁ events hlog hout ⟨heased, hself⟩
    unfold Lined.born
    by_cases hm : m = 0
    · rw [if_pos hm] at hlog ⊢
      exact hfreer (heased.freer (by rw [hlog]; rfl))
    · rw [if_neg hm] at hlog ⊢
      refine ⟨heased, fun q hq => ?_, fun q => ?_⟩
      · unfold InUse at hq ⊢
        rw [hlog, hout hm, List.map_cons, List.mem_cons] at hq
        rcases hq with rfl | hq
        · exact Or.inr (hself hm)
        · exact Or.inl hq
      · dsimp only
        rw [Function.update_apply]
        split_ifs with hqm
        · exact Or.inr ⟨rfl, hqm ▸ hself hm⟩
        · exact Or.inl rfl
  cases op with
  | threadSleep fuel tid time caller =>
    obtain ⟨⟨r, k₁⟩, hcall, rfl⟩ := Option.map_eq_some_iff.mp hstep
    exact hfreer (freer_threadSleep hcall)
  | threadResume fuel tid caller =>
    obtain ⟨r, -, rfl⟩ := Option.map_eq_some_iff.mp hstep
    exact hfreer (.refl _)
  | threadInfo fuel tid caller =>
    obtain ⟨r, -, rfl⟩ := Option.map_eq_some_iff.mp hstep
    exact hfreer (.refl _)
  | thread op =>
    cases op with
    | threadCreate fuel apd parent supplied size sup =>
      obtain ⟨⟨⟨m, start⟩, k₁⟩, hcreate, rfl⟩ := Option.map_eq_some_iff.mp hstep
      exact hborn (threadCreate_begun hcreate).apart.log (fun _ => rfl)
        (eased_threadCreate hcreate)
    | threadPdxCreate fuel apd caller sup =>
      obtain ⟨⟨m, k₁⟩, hcreate, rfl⟩ := Option.map_eq_some_iff.mp hstep
      exact hborn (threadPdxCreate_begun hcreate).apart.log (fun _ => rfl)
        (eased_threadPdxCreate hcreate)
    | sysThreadReturn fuel item status thread =>
      obtain ⟨k₁, hs, rfl⟩ := Option.map_eq_some_iff.mp hstep
      exact hfreer (freer_sysThreadReturn hs)
    | threadDelete fuel item tid status caller =>
      obtain ⟨k₁, hs, rfl⟩ := Option.map_eq_some_iff.mp hstep
      obtain ⟨⟨goes, k₂⟩, hd, rfl⟩ := Option.map_eq_some_iff.mp hs
      exact hfreer (freer_threadDelete hd)
    | threadWait fuel item tid caller => exact absurd rfl (hop _ _ _ _)
    | threadDie fuel item thread =>
      obtain ⟨k₁, hs, rfl⟩ := Option.map_eq_some_iff.mp hstep
      exact hfreer (freer_threadDie hs)
    | excptReg thread handler =>
      obtain rfl := Option.some.inj hstep
      exact hfreer (Eased.freer ((Eased.refl s.mem).modOther thread fun _ => ⟨rfl, rfl, rfl⟩) rfl)
    | apdFromTemplate os pd sup =>
      obtain ⟨k₁, hs, rfl⟩ := Option.map_eq_some_iff.mp hstep
      obtain ⟨⟨a, k₂⟩, hm, rfl⟩ := Option.map_eq_some_iff.mp hs
      exact hfreer (apdFromTemplate_aside hm).freer
    | apdFindOrCreate os fuel addr pd sup =>
      obtain ⟨k₁, hs, rfl⟩ := Option.map_eq_some_iff.mp hstep
      obtain ⟨⟨a, k₂⟩, hm, rfl⟩ := Option.map_eq_some_iff.mp hs
      exact hfreer (apdFindOrCreate_aside hm).freer
    | apdPdxMerge fuel now now' orig clist sup =>
      obtain ⟨k₁, hs, rfl⟩ := Option.map_eq_some_iff.mp hstep
      obtain ⟨⟨a, k₂⟩, hm, rfl⟩ := Option.map_eq_some_iff.mp hs
      exact hfreer (apdPdxMerge_aside hm).freer
    | apdClose fuel apd =>
      obtain ⟨k₁, hs, rfl⟩ := Option.map_eq_some_iff.mp hstep
      obtain ⟨⟨freed, k₂⟩, hm, rfl⟩ := Option.map_eq_some_iff.mp hs
      exact hfreer (apdClose_aside hm).freer

/-- **No call lists children.** -/
theorem Mem.Childless.step (h : s.mem.Childless) {op : LineOp O}
    (hstep : lineStep c s op = some s') : s'.mem.Childless := by
  by_cases hop : ∀ fuel item tid caller, op ≠ .thread (.threadWait fuel item tid caller)
  · have heases := lineStep_eases hstep hop
    exact h.eased heases.toEased heases.inUse
  · simp only [not_forall, not_not] at hop
    obtain ⟨fuel, item, tid, caller, rfl⟩ := hop
    obtain ⟨k₁, hs, rfl⟩ := Option.map_eq_some_iff.mp hstep
    obtain ⟨⟨ret, k₂⟩, hwait, rfl⟩ := Option.map_eq_some_iff.mp hs
    exact h.threadWait hwait

/-- **One call.** -/
theorem Mem.AtRest.step (h : s.mem.AtRest) {op : LineOp O} (hun : s.mem.Unlooped op)
    (hstep : lineStep c s op = some s') : s'.mem.AtRest := by
  refine ⟨?_, h.children.step hstep⟩
  by_cases hop : ∀ fuel item tid caller, op ≠ .thread (.threadWait fuel item tid caller)
  · have heases := lineStep_eases hstep hop
    exact h.acyclic.mono (heases.toEased.blocked heases.inUse)
  · simp only [not_forall, not_not] at hop
    obtain ⟨fuel, item, tid, caller, rfl⟩ := hop
    obtain ⟨k₁, hs, rfl⟩ := Option.map_eq_some_iff.mp hstep
    obtain ⟨⟨ret, k₂⟩, hwait, rfl⟩ := Option.map_eq_some_iff.mp hs
    exact (h.threadWait (O := O) hwait).mp hun

/-- A call that leads to no circle closes none. -/
theorem Mem.AtRest.unlooped (h : s.mem.AtRest) {op : LineOp O}
    (hstep : lineStep c s op = some s') (hac : Acyclic s'.mem.Blocked) : s.mem.Unlooped op := by
  by_cases hop : ∀ fuel item tid caller, op ≠ .thread (.threadWait fuel item tid caller)
  · cases op with
    | threadSleep | threadResume | threadInfo => trivial
    | thread op =>
      cases op with
      | threadWait fuel item tid caller => exact absurd rfl (hop _ _ _ _)
      | _ => trivial
  · simp only [not_forall, not_not] at hop
    obtain ⟨fuel, item, tid, caller, rfl⟩ := hop
    obtain ⟨k₁, hs, rfl⟩ := Option.map_eq_some_iff.mp hstep
    obtain ⟨⟨ret, k₂⟩, hwait, rfl⟩ := Option.map_eq_some_iff.mp hs
    exact (h.threadWait (O := O) hwait).mpr hac

/-! ### Waiting for descendants -/

namespace Lined

/-- Descendants are younger. -/
theorem Kindred.self_lt (h : s.Kindred) (hm : InUse s.mem.log m) (hd : s.Descends m p) :
    s.self p < s.self m := by
  have hlt : ∀ j, Relation.TransGen (fun i j => 0 < j ∧ s.creator i = j) (s.self m) j →
      0 < j ∧ j < s.self m := by
    intro j hj
    induction hj with
    | single hlink =>
      refine ⟨hlink.1, ?_⟩
      rw [← hlink.2]
      exact h.older _ (h.named m hm) (h.bound m)
    | @tail i j _ hlink ih =>
      refine ⟨hlink.1, ?_⟩
      rw [← hlink.2]
      exact (h.older i ih.1 (le_trans (le_of_lt ih.2) (h.bound m))).trans ih.2
  exact (hlt _ hd).2

/-- A thread that does not wait under its own id waits for a younger one. -/
theorem Kindred.self_lt_blocksOn (h : s.Kindred) {item child : ℕ}
    (htid : tid ≠ (s.mem.mthread.cell caller).tid)
    (hblocks : child ∈ s.mem.blocksOn fuel item tid caller) : s.self caller < s.self child := by
  unfold blocksOn at hblocks
  split_ifs at hblocks with hnone
  · cases hblocks
  rw [not_or] at hnone
  obtain ⟨hfind, hlive⟩ := Option.mem_filter_iff.mp hblocks
  have hne : child ≠ 0 := (of_decide_eq_true hlive).1
  rcases h.found hne hfind with ⟨hzero, -⟩ | ⟨hin, hchild, hself | hdesc⟩
  · exact absurd hzero hnone.1
  · rw [hself] at hchild
    exact absurd hchild.symm htid
  · exact h.self_lt hin hdesc

/-- A thread that waits is older than the one it waits for. -/
def Younger (s : Lined) : Prop :=
  ∀ a b, s.mem.Blocked a b → s.self a < s.self b

namespace Younger

/-- Then no call closes a circle, unless the thread waits under its own id. -/
theorem unlooped (h : s.Younger) (hk : s.Kindred) {op : LineOp O} (hop : s.mem.NotOwnTid op) :
    s.mem.Unlooped op := by
  have hlt : ∀ {a b}, Relation.TransGen s.mem.Blocked a b → s.self a < s.self b := by
    intro a b hab
    induction hab with
    | single hlink => exact h _ _ hlink
    | tail _ hlink ih => exact ih.trans (h _ _ hlink)
  cases op with
  | threadSleep | threadResume | threadInfo => trivial
  | thread op =>
    cases op with
    | threadWait fuel item tid caller =>
      intro _ child hchild
      have hyounger := hk.self_lt_blocksOn hop hchild
      refine ⟨fun heq => ?_, fun hwaits => lt_asymm hyounger (hlt hwaits)⟩
      rw [heq] at hyounger
      exact lt_irrefl _ hyounger
    | _ => trivial

/-- A call that makes no thread wait. -/
theorem eases (h : s.Younger) (hk : s.Kindred) (he : s.Eases s') : s'.Younger := by
  rintro a b ⟨ha, hstate, hwaiting, hb⟩
  have hina := (he.inUse a ha).resolve_right fun hease => hease.1 hstate
  obtain ⟨hold, heq⟩ := he.waiting a hstate
  have hlt := h a b ⟨hina, hold, heq.symm.trans hwaiting, hb⟩
  rw [(he.self a).resolve_right fun hnew => hnew.2.1 hstate]
  rcases he.self b with hsame | ⟨hnew, -⟩
  · rw [hsame]
    exact hlt
  · rw [hnew]
    exact Nat.lt_succ_of_le (hk.bound a)

/-- **One call.** -/
theorem step (h : s.Younger) (hrest : s.mem.AtRest) (hk : s.Kindred) {op : LineOp O}
    (hop : s.mem.NotOwnTid op) (hstep : lineStep c s op = some s') : s'.Younger := by
  by_cases hwaits : ∀ fuel item tid caller, op ≠ .thread (.threadWait fuel item tid caller)
  · exact h.eases hk (lineStep_eases hstep hwaits)
  simp only [not_forall, not_not] at hwaits
  obtain ⟨fuel, item, tid, caller, rfl⟩ := hwaits
  obtain ⟨k₁, hs, rfl⟩ := Option.map_eq_some_iff.mp hstep
  obtain ⟨⟨ret, k₂⟩, hwait, rfl⟩ := Option.map_eq_some_iff.mp hs
  have hsub : (∀ a b, k₂.Blocked a b → s.mem.Blocked a b) → Younger { s with mem := k₂ } :=
    fun hsub a b hab => h a b (hsub a b hab)
  rcases threadWait_waits hwait with ⟨-, hfreer | ⟨hsome, hlog, hk₂⟩⟩ |
    ⟨child, hzero, hblocks, hlog, hk₂⟩
  · exact hsub hfreer.blocked
  · exact hsub (blocked_of_unused (fun hin => hsome (hrest.children caller hin)) hlog hk₂)
  · by_cases hin : InUse s.mem.log caller
    · intro a b hab
      rcases (AtRest.blocked_waits hin hzero hlog hk₂ a b).mp hab with ⟨-, hold⟩ | ⟨rfl, rfl⟩
      · exact h a b hold
      · exact hk.self_lt_blocksOn hop hblocks
    · exact hsub (blocked_of_unused hin hlog hk₂)

end Younger

end Lined

/-- Before the first call no thread waits. -/
theorem Mem.Booted.atRest (h : k.Booted) : k.AtRest := by
  have hnone : ∀ q, ¬ InUse k.log q := by
    intro q hq
    unfold InUse at hq
    rw [h.log] at hq
    cases hq
  exact ⟨.of_lt (fun _ => 0) fun a b hab => absurd hab.1 (hnone a),
    fun q hq => absurd hq (hnone q)⟩

/-- **When threads do not wait for each other in a circle**, in any run from the start of the
kernel: just when no thread comes to wait for one that waits for it.  That is so if no creation
takes the structure of an ancestor, and no thread waits under its own id. -/
theorem waiting_iff (c : ThreadConf) (k : Mem) (ops : List (LineOp O)) (s : Lined)
    (hboot : k.Booted) (htable : ∀ i, k.mungiThreads i = 0)
    (hrun : run (lineStep c) (.start k) ops = some s) :
    ((∀ ops₁ s₁, ops₁ <+: ops → run (lineStep c) (.start k) ops₁ = some s₁ →
        Acyclic s₁.mem.Blocked) ↔
      Along (lineStep c) (fun s op => s.mem.Unlooped op) (.start k) ops) ∧
      (Along (lineStep c) (fun s op => s.mem.Rooted c op ∧ s.mem.NotOwnTid op) (.start k) ops →
        Along (lineStep c) (fun s op => s.mem.Unlooped op) (.start k) ops) := by
  have hstart : (Lined.start k).mem.AtRest := hboot.atRest
  constructor
  · refine reached_iff_along (I := fun s : Lined => s.mem.AtRest) (D := fun _ _ => True)
      (fun _ h => h.acyclic) (fun _ _ _ h _ hun hs => h.step hun hs)
      (fun _ _ _ h _ hs hac => h.unlooped hs hac) ops _ _ hstart
      (.of_forall fun _ _ => trivial) hrun
  · intro hops
    refine Along.mono (I := fun s => s.mem.AtRest ∧ s.Sound ∧ s.Younger)
      (fun s op h hop => h.2.2.unlooped h.2.1.2 hop.2) (fun s op s' h hop hs => ?_) ops _
      ⟨hstart, ⟨hboot.owned, .start hboot htable⟩, fun a b hab => ?_⟩ hops
    · exact ⟨h.1.step (h.2.2.unlooped h.2.1.2 hop.2) hs, h.2.1.step hop.1 hs,
        h.2.2.step h.1 h.2.1.2 hop.2 hs⟩
    · have hlog : k.log = [] := hboot.log
      have hin := hab.1
      unfold InUse at hin
      rw [show (Lined.start k).mem.log = [] from hlog] at hin
      cases hin

/-- A thread waits for its child, which waits for its own, and that one exits. -/
def waitingChain : List (LineOp Unit) :=
  [.thread (.apdPdxMerge 5 0 0 0 ⟨7, 7⟩ (apdAt 100)),
    .thread (.threadCreate 5 100 0 0 0 (threadAt 10 30)),
    .thread (.threadCreate 5 100 10 0 0 (threadAt 12 31)),
    .thread (.threadCreate 5 100 12 0 0 (threadAt 14 32)), .thread (.threadWait 5 51 2 10),
    .thread (.threadWait 5 52 3 12), .thread (.threadDelete 5 50 3 0 12)]

theorem waiting_iff_waitingChain :
    ∃ s, run (lineStep smallConf) (.start Mem.boot) waitingChain = some s ∧
      ∀ ops₁ s₁, ops₁ <+: waitingChain →
        run (lineStep smallConf) (.start Mem.boot) ops₁ = some s₁ → Acyclic s₁.mem.Blocked := by
  have hend : (run (lineStep smallConf) (.start Mem.boot) waitingChain).isSome := by
    decide +kernel
  obtain ⟨s, hrun⟩ := Option.isSome_iff_exists.mp hend
  have hops : Along (lineStep smallConf)
      (fun s op => s.mem.RootedBy (UnnamedIn 5) smallConf op ∧ s.mem.NotOwnTid op)
      (.start Mem.boot) waitingChain := by
    decide +kernel
  have h := waiting_iff smallConf Mem.boot waitingChain s Mem.boot_booted (fun _ => rfl) hrun
  refine ⟨s, hrun, h.1.mpr (h.2 ?_)⟩
  exact Along.mono (I := fun _ => True) (fun _ _ _ h => ⟨h.1.rooted, h.2⟩)
    (fun _ _ _ _ _ _ => trivial) waitingChain _ trivial hops

/-- A thread that the kernel has created waits under its own id. -/
def waitingForItself : List (LineOp Unit) :=
  [.thread (.apdPdxMerge 5 0 0 0 ⟨7, 7⟩ (apdAt 100)),
    .thread (.threadCreate 5 100 0 0 0 (threadAt 10 30)), .thread (.threadWait 5 51 1 10)]

/-- It is blocked until it exits. -/
theorem waiting_circle :
    ¬ ∀ (c : ThreadConf) (k : Mem) (ops : List (LineOp Unit)), k.Booted →
      (∀ i, k.mungiThreads i = 0) →
        ∀ s, run (lineStep c) (.start k) ops = some s → Acyclic s.mem.Blocked := by
  intro h
  have hend : (run (lineStep smallConf) (.start Mem.boot) waitingForItself).map (fun s =>
      (decide (InUse s.mem.log 10), decide ((s.mem.mthread.cell 10).state = .waiting),
        (s.mem.mthread.cell 10).waiting)) = some (true, true, 10) := by
    decide +kernel
  obtain ⟨s, hrun, hs⟩ := Option.map_eq_some_iff.mp hend
  simp only [Prod.mk.injEq, decide_eq_true_eq] at hs
  refine h smallConf Mem.boot waitingForItself Mem.boot_booted (fun _ => rfl) s hrun 10 ?_
  exact .single ⟨hs.1, hs.2.1, hs.2.2, by decide⟩

end Mungi
