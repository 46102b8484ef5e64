import Mungi.Threads.Seating

/-!
# The accounts of tasks

A task counts the numbers that are left for its threads.  The count is right as long as no thread
dies of a fault, and it does not run short as long as a thread from the pool goes back to a task in
which a number is left.

## Main definitions

* `Mem.threadsIn` — how many threads of a task run.
* `Mem.Accounted` — the counts are right, and within their bounds.
* `ReleasedRightly` — the assertions of `task_release`.
* `Mem.Accountable` — the condition on calls.

## Main results

* `tasks_accounted` — **the counts of tasks are right** in all runs of such calls, and the tasks
  that are freed have no threads.
-/

namespace Mungi

open Chain Runs Mem

variable {O : Type} {c : ThreadConf} {k k' : Mem} {fuel a m t j : ℕ}

/-- How many threads of the task run. -/
def Mem.threadsIn (k : Mem) (t : ℕ) : ℕ :=
  (running k.log).countP fun m => (k.mthread.cell m).task = t

/-- The counts of the tasks are right, and within their bounds. -/
structure Mem.Accounted (c : ThreadConf) (k : Mem) : Prop where
  threadFree : ∀ t, k.task.live t = true →
    (k.task.cell t).threadFree = (c.l4ThreadsPerTask : ℤ) - 1 - k.threadsIn t
  bounds : ∀ t, k.task.live t = true →
    0 ≤ (k.task.cell t).threadFree ∧ (k.task.cell t).threadFree ≤ (c.l4ThreadsPerTask : ℤ) - 1

/-- The assertions of `task_release` hold for the tasks that a call frees, which keep what was in
them: no thread is left, and the task is in the table. -/
def ReleasedRightly (c : ThreadConf) (k k' : Mem) : Prop :=
  ∀ t, k.task.live t = true → k'.task.live t = false →
    (k'.task.cell t).threadFree = (c.l4ThreadsPerTask : ℤ) - 1 ∧
      k.l4Tasks ((k'.task.cell t).task.task - c.l4TaskStart) = t

/-- The call leaves the counts right, and frees no task with threads. -/
def Mem.AccountedAfter (c : ThreadConf) (k : Mem) (op : ThreadOp O) : Prop :=
  ∀ k', threadStep c k op = some k' → k'.Accounted c ∧ ReleasedRightly c k k'

/-- The call is regular, and a creation that takes a thread from the pool finds a number left in
the task of the thread. -/
def Mem.Accountable (c : ThreadConf) (k : Mem) (op : ThreadOp O) : Prop :=
  k.Regular c op ∧ ∀ p ∈ op.createsIn, (k.apd.cell p.2).threads = 0 ∨
    (k.task.cell (k.apdThread.cell (k.apd.cell p.2).threads).task).threadFree ≠ 0

instance (c : ThreadConf) (k : Mem) (op : ThreadOp O) : Decidable (k.Accountable c op) :=
  inferInstanceAs (Decidable (_ ∧ ∀ p ∈ op.createsIn, _ ∨ _ ≠ _))

/-! ### The invariant -/

/-- The counts, with all numbers left in a task that is not in memory. -/
structure Mem.Counts (c : ThreadConf) (k : Mem) : Prop where
  nodup : (running k.log).Nodup
  live : ∀ q ∈ running k.log, k.task.live (k.mthread.cell q).task = true
  listed : k.Listed c
  free : ∀ t, k.free c t = (c.l4ThreadsPerTask : ℤ) - 1 - k.threadsIn t
  nonneg : ∀ t, 0 ≤ k.free c t

/-- A task without threads that run has all numbers left. -/
theorem Mem.Counts.idle (h : k.Counts c) (ht : k.task.live t = true)
    (hidle : ∀ q ∈ running k.log, (k.mthread.cell q).task ≠ t) :
    (k.task.cell t).threadFree = (c.l4ThreadsPerTask : ℤ) - 1 := by
  have hnone : k.threadsIn t = 0 := by
    refine List.countP_eq_zero.mpr fun q hq hqt => hidle q hq ?_
    exact of_decide_eq_true hqt
  have hfree := h.free t
  unfold Mem.free at hfree
  rw [if_pos ht, hnone] at hfree
  simpa using hfree

theorem Mem.Counts.accounted (h : k.Counts c) : k.Accounted c := by
  have hfree : ∀ t, k.task.live t = true → k.free c t = (k.task.cell t).threadFree :=
    fun t ht => if_pos ht
  refine ⟨fun t ht => ?_, fun t ht => ?_⟩
  · rw [← hfree t ht, h.free]
  · have hcount := h.free t
    have hnonneg := h.nonneg t
    rw [hfree t ht] at hcount hnonneg
    exact ⟨hnonneg, by omega⟩

theorem Mem.Booted.counts (h : k.Booted) (htask : ∀ t, k.task.live t = false)
    (hc : 0 < c.l4ThreadsPerTask) : k.Counts c where
  nodup := by
    rw [h.log]
    exact List.nodup_nil
  live := by
    rw [h.log]
    exact nofun
  listed := fun t ht => absurd (ht.symm.trans (htask t)) nofun
  free := fun t => by
    unfold Mem.free threadsIn
    rw [htask, h.log]
    simp [running]
  nonneg := fun t => by
    unfold Mem.free
    rw [htask, if_neg Bool.false_ne_true]
    omega

/-- The threads that run stay in their tasks. -/
theorem Mem.threadsIn_congr (hrunning : running k'.log = running k.log)
    (htask : ∀ q ∈ running k.log, (k'.mthread.cell q).task = (k.mthread.cell q).task) (t : ℕ) :
    k'.threadsIn t = k.threadsIn t := by
  unfold threadsIn
  rw [hrunning]
  refine List.countP_congr fun q hq => ?_
  rw [htask q hq]

/-! ### What the calls do -/

/-- **When nobody moves, the counts stay right**, and the tasks that are freed have no threads. -/
theorem Mem.Counts.calm (h : k.Counts c) (hc : Calm c k k') :
    k'.Counts c ∧ ReleasedRightly c k k' := by
  have hcount := threadsIn_congr hc.running fun q _ => hc.threadTask q
  have hfree : ∀ t, k'.free c t = k.free c t := by
    intro t
    unfold Mem.free
    rw [hc.task]
    cases hlive' : k'.task.live t with
    | true => rw [hc.live t hlive']
    | false =>
      cases hlive : k.task.live t with
      | true =>
        rw [if_neg Bool.false_ne_true, if_pos rfl]
        exact (h.idle hlive (hc.emptied t hlive hlive')).symm
      | false => rfl
  refine ⟨⟨hc.running ▸ h.nodup, fun q hq => ?_, hc.listed h.listed, fun t => ?_, fun t => ?_⟩,
    fun t ht ht' => ?_⟩
  · rw [hc.running] at hq
    rw [hc.threadTask]
    by_contra hdead
    exact hc.emptied _ (h.live q hq) (Bool.eq_false_iff.mpr hdead) q hq rfl
  · rw [hfree, hcount, h.free]
  · rw [hfree]
    exact h.nonneg t
  · rw [hc.task]
    exact ⟨h.idle ht (hc.emptied t ht ht'), (h.listed t ht).2.2.2⟩

/-- **A thread that leaves its seat is counted.** -/
theorem Mem.Counts.left (h : k.Counts c) (hl : Left m k k') : k'.Counts c := by
  have herase : running k'.log = (running k.log).erase m := by
    rw [hl.running, h.nodup.erase_eq_filter]
    refine List.filter_congr fun q _ => ?_
    by_cases hq : q = m <;> simp [hq]
  have hcount : ∀ t, k.threadsIn t
      = k'.threadsIn t + if t = (k.mthread.cell m).task then 1 else 0 := by
    intro t
    unfold threadsIn
    rw [(List.perm_cons_erase hl.runs).countP_eq, List.countP_cons, herase]
    simp only [hl.threadTask, decide_eq_true_eq, eq_comm (a := t)]
  have hfree : ∀ t, k'.free c t = k.free c t + if t = (k.mthread.cell m).task then 1 else 0 := by
    intro t
    unfold Mem.free
    rw [hl.live, hl.threadFree]
    split_ifs with hlive ht ht
    · rfl
    · exact (add_zero _).symm
    · rw [ht, h.live m hl.runs] at hlive
      exact absurd rfl hlive
    · exact (add_zero _).symm
  refine ⟨?_, fun q hq => ?_, fun t ht => ?_, fun t => ?_, fun t => ?_⟩
  · rw [herase]
    exact h.nodup.erase m
  · rw [herase] at hq
    rw [hl.live, hl.threadTask]
    exact h.live q (List.mem_of_mem_erase hq)
  · rw [hl.live] at ht
    rw [hl.number, hl.l4Tasks]
    exact h.listed t ht
  · rw [hfree, h.free, hcount]
    push_cast
    split_ifs <;> omega
  · have := h.nonneg t
    rw [hfree]
    split_ifs <;> omega

/-- A thread that has taken no seat in the end changes nothing. -/
theorem Mem.Counts.fumbled (h : k.Counts c) (hf : Fumbled c fuel a m t j k k') : k'.Counts c := by
  have htask : ∀ q ∈ running k.log, (k'.mthread.cell q).task = (k.mthread.cell q).task :=
    fun q hq => (hf.thread q (Or.inl (running_inUse (hf.running.symm ▸ hq)))).1
  have hcount := threadsIn_congr hf.running htask
  refine ⟨hf.running ▸ h.nodup, fun q hq => ?_, hf.listed h.listed, fun t => ?_, fun t => ?_⟩
  · rw [hf.running] at hq
    rw [htask q hq]
    exact hf.live _ (h.live q hq)
  · rw [hf.free, hcount, h.free]
  · rw [hf.free]
    exact h.nonneg t

/-- **A thread that takes a seat is counted**, if there was one left. -/
theorem Mem.Counts.joined (h : k.Counts c) (hp : Placed (handedOut k.log) k)
    (hj : Joined c fuel a m t j [m] k k') (hroom : k.free c t ≠ 0) : k'.Counts c := by
  have hnot : m ∉ running k.log := by
    intro hm
    cases hj.origin with
    | pooled _ _ _ idle => exact idle (running_inUse hm)
    | fresh _ dead =>
      obtain ⟨e, b, he⟩ := hp.linked (fun _ h => h) (Or.inl (running_inUse hm))
      exact absurd (he.thread.symm.trans dead) nofun
  have hrunning : running k'.log = m :: running k.log := hj.running
  have htask : ∀ q ∈ running k.log, (k'.mthread.cell q).task = (k.mthread.cell q).task := by
    intro q hq
    refine (hj.thread q (Or.inl (running_inUse hq)) ?_).1
    rintro rfl
    exact hnot hq
  have hcount : ∀ s, k'.threadsIn s = k.threadsIn s + if s = t then 1 else 0 := by
    intro s
    unfold threadsIn
    rw [hrunning, List.countP_cons, hj.self.1]
    simp only [decide_eq_true_eq, eq_comm (a := s)]
    congr 1
    refine List.countP_congr fun q hq => ?_
    rw [htask q hq]
  refine ⟨?_, fun q hq => ?_, hj.listed h.listed, fun s => ?_, fun s => ?_⟩
  · rw [hrunning]
    exact List.nodup_cons.mpr ⟨hnot, h.nodup⟩
  · rw [hrunning] at hq
    rcases List.mem_cons.mp hq with rfl | hq
    · rw [hj.self.1]
      exact hj.newLive
    · rw [htask q hq]
      exact hj.live _ (h.live q hq)
  · rw [hj.free, h.free, hcount]
    push_cast
    split_ifs <;> omega
  · have := h.nonneg s
    rw [hj.free]
    split_ifs with hs
    · rw [hs] at this ⊢
      omega
    · exact this

/-! ### Runs -/

/-- There is room for a thread from the pool if its task has room. -/
theorem Mem.Origin.room (h : Origin c fuel k a m t j) (hp : Placed (handedOut k.log) k)
    (ha : k.apd.live a = true) (hroom : (k.apd.cell a).threads = 0 ∨
      (k.task.cell (k.apdThread.cell (k.apd.cell a).threads).task).threadFree ≠ 0) :
    k.free c t ≠ 0 := by
  cases h with
  | pooled pool head _ _ task live _ =>
    obtain ⟨l, hl, hpool⟩ := hp.pool a ha
    have he := (hpool _ (hl.mem_of_reaches (.here pool))).1
    rw [he.task, ← head, ← task] at hroom
    unfold Mem.free
    rw [if_pos live]
    exact hroom.resolve_left pool
  | fresh _ _ _ _ _ room _ => exact room

/-- **One call keeps the counts right.** -/
theorem Mem.Counts.step {op : ThreadOp O} (h : k.Counts c) (ho : Owned EnoughUsers k)
    (ha : k.Accountable c op) (hs : threadStep c k op = some k') :
    k'.Counts c ∧ ReleasedRightly c k k' := by
  obtain ⟨hr, hroom⟩ := ha
  rcases hr.seats ho hs with hcalm | ⟨m, k₁, k₂, hstill, hleft, hcalm⟩ |
    ⟨p, hp, m, t, j, hf | hj⟩
  · exact h.calm hcalm
  · have h₂ := (h.calm (hstill.calm (c := c))).1.left hleft
    refine ⟨(h₂.calm hcalm).1, fun t ht ht' => ?_⟩
    have ht₂ : k₂.task.live t = true := by rw [hleft.live, hstill.task, ht]
    obtain ⟨hfree, htable⟩ := (h₂.calm hcalm).2 t ht₂ ht'
    rw [hleft.l4Tasks, hstill.l4Tasks] at htable
    exact ⟨hfree, htable⟩
  · exact ⟨h.fumbled hf, fun t ht ht' => absurd ((hf.live t ht).symm.trans ht') nofun⟩
  · refine ⟨h.joined ho.placed hj (hj.origin.room ho.placed (hr.live hp) (hroom p hp)), ?_⟩
    exact fun t ht ht' => absurd ((hj.live t ht).symm.trans ht') nofun

/-- **The counts of tasks are right** in every run of such calls, and when an APD is freed, its
tasks have no threads. -/
theorem tasks_accounted (c : ThreadConf) (hc : 0 < c.l4ThreadsPerTask) (k : Mem)
    (ops : List (ThreadOp O)) (hboot : k.Booted) (htask : ∀ t, k.task.live t = false)
    (hops : Along (threadStep c) (Mem.Accountable c) k ops) :
    Along (threadStep c) (Mem.AccountedAfter c) k ops := by
  refine Along.mono (I := fun k => Owned EnoughUsers k ∧ k.Counts c) ?_ ?_ ops k
    ⟨hboot.owned, hboot.counts htask hc⟩ hops
  · rintro k op ⟨ho, h⟩ ha k' hs
    obtain ⟨h', hreleased⟩ := h.step ho ha hs
    exact ⟨h'.accounted, hreleased⟩
  · rintro k op k' ⟨ho, h⟩ ha hs
    exact ⟨ho.step_rightful ha.1.1 hs, (h.step ho ha hs).1⟩

/-- A thread dies of a fault. -/
def dyingThread : List (ThreadOp Unit) :=
  [.apdPdxMerge 5 0 0 0 ⟨7, 7⟩ (apdAt 100), .threadCreate 5 100 0 0 0 (threadAt 10 30)]

/-- The number of a thread that dies of a fault is lost for its task. -/
theorem tasks_not_accounted :
    ¬ ∀ (c : ThreadConf) (k : Mem) (ops : List (ThreadOp Unit)), 0 < c.l4ThreadsPerTask →
      k.Booted → (∀ t, k.task.live t = false) →
        Along (threadStep c) (Mem.AccountedAfter c) k ops := by
  intro h
  have hend : (run (threadStep smallConf) Mem.boot
      (dyingThread ++ [.threadDie 5 50 10])).map (fun k =>
        (k.task.live 20, (k.task.cell 20).threadFree, k.threadsIn 20)) = some (true, 6, 0) := by
    decide +kernel
  obtain ⟨k', hrun, hk'⟩ := Option.map_eq_some_iff.mp hend
  rw [run_concat] at hrun
  obtain ⟨k, hk, hdie⟩ := Option.bind_eq_some_iff.mp hrun
  have hafter := (h smallConf Mem.boot (dyingThread ++ [.threadDie 5 50 10]) (by decide)
    Mem.boot_booted fun _ => rfl).at hk
  obtain ⟨hlive, hrest⟩ := Prod.mk.inj hk'
  obtain ⟨hfree, hnone⟩ := Prod.mk.inj hrest
  have hcount := (hafter k' hdie).1.threadFree 20 hlive
  rw [hfree, hnone] at hcount
  revert hcount
  decide

/-- A PDX thread comes back, a thread is deleted and reaped, and both are used again. -/
def threadsAgain : List (ThreadOp Unit) :=
  [.apdPdxMerge 5 0 0 0 ⟨7, 7⟩ (apdAt 100), .threadCreate 5 100 0 0 0 (threadAt 10 30),
    .threadPdxCreate 5 100 10 (threadAt 12 31), .sysThreadReturn 5 50 0 12,
    .threadPdxCreate 5 100 10 (threadAt 13 32), .threadCreate 5 100 10 0 0 (threadAt 14 33),
    .threadDelete 5 51 4 0 10, .threadWait 5 52 0 10, .threadCreate 5 100 10 0 0 (threadAt 15 34)]

theorem tasks_accounted_threadsAgain :
    Along (threadStep smallConf) (Mem.AccountedAfter smallConf) Mem.boot threadsAgain :=
  tasks_accounted smallConf (by decide) Mem.boot threadsAgain Mem.boot_booted (fun _ => rfl)
    (by decide +kernel)

end Mungi
