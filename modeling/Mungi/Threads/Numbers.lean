import Mungi.Threads.Seating

/-!
# Thread numbers

The kernel knows the sender of a message by its L4 id, and finds the thread in the table of its
task.  An exited thread keeps its number for the next use, though its seat is vacant, so a number
is exclusive only as long as no new thread takes it meanwhile.

## Main definitions

* `Mem.threadFindFromL4id` — the search for a thread by its id.
* `Mem.Numbered` — the numbers are exclusive, and ids lead to the threads that run.
* `Mem.Exclusive` — the condition on calls.

## Main results

* `numbers_exclusive` — **thread numbers are exclusive** in all runs of such calls.
-/

namespace Mungi

open Chain Runs Mem

variable {O : Type} {c : ThreadConf} {k k' : Mem} {fuel a m t j : ℕ}

/-- `thread_find_from_l4id`: the thread, 0 for `NULL`.  The last number of a task,
`l4_task_end`, is that of the last place in the table. -/
def Mem.threadFindFromL4id (c : ThreadConf) (k : Mem) (tid : L4Id) : ℕ :=
  if c.l4TaskStart ≤ tid.task ∧ tid.task < c.l4TaskStart + c.taskCount then
    let task := k.l4Tasks (tid.task - c.l4TaskStart)
    if task ≠ 0 then (k.task.cell task).l4Threads tid.lthread else 0
  else 0

/-- The assertion of `l4task_thread_remove`. -/
def Mem.Asserted (k : Mem) (m : ℕ) : Prop :=
  (k.task.cell (k.mthread.cell m).task).l4Threads (k.lthreadOf m) = m

/-- The threads that run have seats of their own and are found by their ids, and those that have
exited are not. -/
structure Mem.Numbered (c : ThreadConf) (k : Mem) : Prop where
  seat : ∀ m ∈ running k.log, k.Asserted m
  apart : ∀ m ∈ running k.log, ∀ m' ∈ running k.log,
    (k.mthread.cell m).task = (k.mthread.cell m').task → k.lthreadOf m = k.lthreadOf m' → m = m'
  found : ∀ m ∈ running k.log, k.threadFindFromL4id c (k.mthread.cell m).l4id = m
  lost : ∀ m, k.Belongs m → m ∉ running k.log →
    k.threadFindFromL4id c (k.mthread.cell m).l4id = 0

/-- The threads that the call passes to `l4task_thread_remove` when it ends them. -/
def Mem.ends (k : Mem) : ThreadOp O → List ℕ
  | .sysThreadReturn _ _ _ thread => [thread]
  | .threadDelete fuel _ tid _ caller => (k.deleteTarget fuel tid caller).toList
  | _ => []

/-- The call leaves the numbers exclusive, and the assertion holds of the threads it ends, as it
does of a thread that has just been added and is removed since its creation fails. -/
def Mem.NumberedAfter (c : ThreadConf) (k : Mem) (op : ThreadOp O) : Prop :=
  (∀ k', threadStep c k op = some k' → k'.Numbered c) ∧ (∀ m ∈ k.ends op, k.Asserted m) ∧
    ∀ (k₁ k₂ : Mem) (m : ℕ), k₁.l4taskThreadAdd c m = some k₂ → k₂.Asserted m

/-- The call is regular, and the number that it gives to a new thread is not that of a thread of
the task that has exited and was not reaped yet. -/
def Mem.Exclusive (c : ThreadConf) (k : Mem) (op : ThreadOp O) : Prop :=
  k.Regular c op ∧ ∀ p ∈ op.createsIn, (k.apd.cell p.2).threads = 0 →
    ∀ t ∈ k.seekTask p.1 p.2, ∀ j ∈ k.vacant c t, ∀ q ∈ (handedOut k.log).map Prod.fst,
      q ∉ running k.log → (k.mthread.cell q).task = t → k.lthreadOf q ≠ j

instance (c : ThreadConf) (k : Mem) (op : ThreadOp O) : Decidable (k.Exclusive c op) :=
  inferInstanceAs (Decidable (_ ∧ ∀ p ∈ op.createsIn, (k.apd.cell p.2).threads = 0 →
    ∀ t ∈ k.seekTask p.1 p.2, ∀ j ∈ k.vacant c t, ∀ q ∈ (handedOut k.log).map Prod.fst,
      q ∉ running k.log → (k.mthread.cell q).task = t → k.lthreadOf q ≠ j))

/-! ### The invariant -/

/-- The tables of the tasks have the threads that run and no others, and no two threads of a task
have the same number, whether they run, have exited, or wait in a pool. -/
structure Mem.Seating (c : ThreadConf) (k : Mem) : Prop where
  listed : k.Listed c
  seat : ∀ m ∈ running k.log, k.task.live (k.mthread.cell m).task = true ∧
    k.slot (k.mthread.cell m).task (k.lthreadOf m) = m
  only : ∀ t j, j ≠ 0 → k.slot t j ≠ 0 → k.slot t j ∈ running k.log ∧
    (k.mthread.cell (k.slot t j)).task = t ∧ k.lthreadOf (k.slot t j) = j
  apart : ∀ q q', k.Belongs q → k.Belongs q' → q ≠ q' →
    (k.mthread.cell q).task = (k.mthread.cell q').task → k.lthreadOf q ≠ k.lthreadOf q'
  number : ∀ q, k.Belongs q → k.lthreadOf q ≠ 0
  id : ∀ q, k.Belongs q → (k.mthread.cell q).l4id.lthread = k.lthreadOf q ∧
    (k.mthread.cell q).l4id.task = (k.task.cell (k.mthread.cell q).task).task.task

theorem belongs_of_running (hm : m ∈ running k.log) : k.Belongs m := Or.inl (running_inUse hm)

theorem Mem.Booted.seating (h : k.Booted) (htask : ∀ t, k.task.live t = false) : k.Seating c := by
  have hnone : ∀ q, ¬ k.Belongs q := by
    rintro q (hq | ⟨b, -, hb, -⟩)
    · unfold InUse at hq
      rw [h.log] at hq
      cases hq
    · exact absurd (hb.symm.trans (h.apd b)) nofun
  refine ⟨fun t ht => absurd (ht.symm.trans (htask t)) nofun,
    fun m hm => absurd (belongs_of_running hm) (hnone m), fun t j _ hslot => ?_,
    fun q _ hq => absurd hq (hnone q), fun q hq => absurd hq (hnone q),
    fun q hq => absurd hq (hnone q)⟩
  unfold Mem.slot at hslot
  rw [htask, if_neg Bool.false_ne_true] at hslot
  exact absurd rfl hslot

/-- A search by the id of a thread looks at its seat. -/
theorem Mem.Seating.find (h : k.Seating c) (hm : k.Belongs m)
    (hlive : k.task.live (k.mthread.cell m).task = true) :
    k.threadFindFromL4id c (k.mthread.cell m).l4id
      = k.slot (k.mthread.cell m).task (k.lthreadOf m) := by
  obtain ⟨hlthread, htask⟩ := h.id m hm
  obtain ⟨hne, hge, hlt, htable⟩ := h.listed _ hlive
  unfold threadFindFromL4id Mem.slot
  rw [htask, hlthread, if_pos ⟨hge, hlt⟩, htable, if_pos hne, if_pos hlive]

/-- **The invariant makes the numbers exclusive.** -/
theorem Mem.Seating.numbered (h : k.Seating c) (hp : Placed (handedOut k.log) k) :
    k.Numbered c := by
  refine ⟨fun m hm => ?_, fun m hm m' hm' htask hnumber => ?_, fun m hm => ?_, fun m hm hrun => ?_⟩
  · obtain ⟨hlive, hslot⟩ := h.seat m hm
    unfold Mem.slot at hslot
    rwa [if_pos hlive] at hslot
  · by_contra hne
    exact h.apart m m' (belongs_of_running hm) (belongs_of_running hm') hne htask hnumber
  · rw [h.find (belongs_of_running hm) (h.seat m hm).1, (h.seat m hm).2]
  · obtain ⟨e, b, he⟩ := hp.linked (fun _ h => h) hm
    rw [h.find hm he.taskLive]
    by_contra hslot
    obtain ⟨hx, htask, hnumber⟩ := h.only _ _ (h.number m hm) hslot
    refine h.apart _ m (belongs_of_running hx) hm ?_ htask hnumber
    intro heq
    exact hrun (heq ▸ hx)

/-! ### What the calls do -/

theorem Mem.Seating.calm (h : k.Seating c) (hc : Calm c k k') : k'.Seating c := by
  have hlive : ∀ m ∈ running k.log, k'.task.live (k.mthread.cell m).task = true := by
    intro m hm
    by_contra hdead
    exact hc.emptied _ (h.seat m hm).1 (Bool.eq_false_iff.mpr hdead) m hm rfl
  have hslot : ∀ t j, k'.task.live t = true → k'.slot t j = k.slot t j := by
    intro t j ht
    unfold Mem.slot
    rw [ht, hc.live t ht, hc.task]
  refine ⟨hc.listed h.listed, fun m hm => ?_, fun t j hj hne => ?_, fun q q' hq hq' hne => ?_,
    fun q hq => ?_, fun q hq => ?_⟩
  · rw [hc.running] at hm
    rw [hc.threadTask, hc.lthreadOf, hslot _ _ (hlive m hm)]
    exact ⟨hlive m hm, (h.seat m hm).2⟩
  · have ht : k'.task.live t = true := by
      by_contra hdead
      exact hne (if_neg hdead)
    rw [hslot t j ht] at hne ⊢
    rw [hc.running, hc.threadTask, hc.lthreadOf]
    exact h.only t j hj hne
  · rw [hc.threadTask, hc.threadTask, hc.lthreadOf, hc.lthreadOf]
    exact h.apart q q' (hc.belongs q hq) (hc.belongs q' hq') hne
  · rw [hc.lthreadOf]
    exact h.number q (hc.belongs q hq)
  · rw [hc.threadL4id, hc.lthreadOf, hc.threadTask, hc.task]
    exact h.id q (hc.belongs q hq)

/-- **A thread that leaves vacates its own seat.** -/
theorem Mem.Seating.left (h : k.Seating c) (hl : Left m k k') : k'.Seating c := by
  have hm := belongs_of_running hl.runs
  have hslot : ∀ t j, k'.slot t j
      = if t = (k.mthread.cell m).task ∧ j = k.lthreadOf m then 0 else k.slot t j := by
    intro t j
    unfold Mem.slot
    rw [hl.live, hl.l4Threads]
    by_cases ht : t = (k.mthread.cell m).task
    · rw [if_pos ht, Function.update_apply]
      by_cases hj : j = k.lthreadOf m
      · rw [if_pos hj, ite_self, if_pos ⟨ht, hj⟩]
      · rw [if_neg hj, if_neg (show ¬ (t = _ ∧ j = _) from fun h => hj h.2)]
    · rw [if_neg ht, if_neg (show ¬ (t = _ ∧ j = _) from fun h => ht h.1)]
  refine ⟨fun t ht => ?_, fun q hq => ?_, fun t j hj hne => ?_, fun q q' hq hq' hne => ?_,
    fun q hq => ?_, fun q hq => ?_⟩
  · rw [hl.live] at ht
    rw [hl.number, hl.l4Tasks]
    exact h.listed t ht
  · rw [hl.running] at hq
    obtain ⟨hq, hqm⟩ := List.mem_filter.mp hq
    have hne : q ≠ m := by simpa using hqm
    obtain ⟨hlive, hseat⟩ := h.seat q hq
    rw [hl.threadTask, hl.lthreadOf, hl.live, hslot, if_neg]
    · exact ⟨hlive, hseat⟩
    · rintro ⟨htask, hnumber⟩
      exact h.apart q m (belongs_of_running hq) hm hne htask hnumber
  · rw [hslot] at hne ⊢
    split_ifs at hne ⊢ with hself
    · exact absurd rfl hne
    · obtain ⟨hrun, htask, hnumber⟩ := h.only t j hj hne
      rw [hl.threadTask, hl.lthreadOf, hl.running]
      refine ⟨List.mem_filter.mpr ⟨hrun, ?_⟩, htask, hnumber⟩
      rw [decide_eq_true_eq]
      intro heq
      rw [heq] at htask hnumber
      exact hself ⟨htask.symm, hnumber.symm⟩
  · rw [hl.threadTask, hl.threadTask, hl.lthreadOf, hl.lthreadOf]
    exact h.apart q q' (hl.belongs q hq) (hl.belongs q' hq') hne
  · rw [hl.lthreadOf]
    exact h.number q (hl.belongs q hq)
  · rw [hl.threadL4id, hl.lthreadOf, hl.threadTask, hl.number]
    exact h.id q (hl.belongs q hq)

/-- The seat of a creation is vacant, also that of a thread from the pool. -/
theorem Mem.Seating.vacant (h : k.Seating c) (ho : Origin c fuel k a m t j) :
    j ≠ 0 ∧ k.slot t j = 0 := by
  cases ho with
  | pooled _ _ belongs idle task _ number =>
    rw [if_neg (h.number m belongs)] at number
    subst number task
    refine ⟨h.number m belongs, ?_⟩
    by_contra hslot
    obtain ⟨hx, htask, hnumber⟩ := h.only _ _ (h.number m belongs) hslot
    refine h.apart _ m (belongs_of_running hx) belongs ?_ htask hnumber
    intro heq
    exact idle (running_inUse (heq ▸ hx))
  | fresh _ _ slot pos _ _ _ => exact ⟨Nat.ne_of_gt pos, slot⟩

/-- **No other thread has the number** that a creation gives, if no exited thread has. -/
theorem Mem.Seating.unclaimed (h : k.Seating c) (hp : Placed (handedOut k.log) k)
    (ha : k.apd.live a = true) (ho : Origin c fuel k a m t j)
    (hexcl : (k.apd.cell a).threads = 0 → ∀ t ∈ k.seekTask fuel a, ∀ j ∈ k.vacant c t,
      ∀ q ∈ (handedOut k.log).map Prod.fst, q ∉ running k.log → (k.mthread.cell q).task = t →
        k.lthreadOf q ≠ j)
    {q : ℕ} (hq : k.Belongs q) (hne : q ≠ m) (htask : (k.mthread.cell q).task = t) :
    k.lthreadOf q ≠ j := by
  cases ho with
  | pooled _ _ belongs _ task _ number =>
    rw [if_neg (h.number m belongs)] at number
    rw [number]
    exact h.apart q m hq belongs hne (htask.trans task)
  | fresh pool _ slot _ _ _ found =>
    obtain ⟨e, b, he⟩ := hp.linked (fun _ h => h) hq
    have hlive : k.task.live t = true := htask ▸ he.taskLive
    obtain ⟨hseek, hvacant⟩ := found hlive
    by_cases hrun : q ∈ running k.log
    · -- the seat would be that of a thread that runs
      rintro rfl
      have hseat := (h.seat q hrun).2
      rw [htask, slot] at hseat
      exact he.ne hseat.symm
    · rcases hq with hin | ⟨b', p, hb, hreach, rfl⟩
      · exact hexcl pool t hseek j hvacant q hin hrun htask
      · -- its pool would be the empty one
        obtain ⟨l, hl, hpool⟩ := hp.pool b' hb
        have hof := (hpool p (hl.mem_of_reaches hreach)).1.apd
        unfold apdOf at hof
        rw [htask] at hof
        obtain ⟨tasks, htasks, hlinked⟩ := hp.tasks a ha
        have hmem := htasks.seek hseek (h.listed t hlive).1
        rw [(hlinked t hmem).2] at hof
        rw [← hof, pool] at hreach
        exact absurd hreach not_reaches_zero

/-- A creation that fails leaves the seats as they were. -/
theorem Mem.Seating.fumbled (h : k.Seating c) (hp : Placed (handedOut k.log) k)
    (hf : Fumbled c fuel a m t j k k') : k'.Seating c := by
  have hslot : ∀ t' i, i ≠ 0 → k'.slot t' i = k.slot t' i := by
    intro t' i hi
    rcases hf.slot t' i hi with hsame | ⟨ho, rfl, rfl, hzero⟩
    · exact hsame
    · rw [hzero, (h.vacant ho).2]
  have hbelongs : ∀ q ∈ running k.log, k'.Belongs q := fun q hq =>
    belongs_of_running (hf.running.symm ▸ hq)
  refine ⟨hf.listed h.listed, fun q hq => ?_, fun t' i hi hne => ?_, fun q q' hq hq' hne => ?_,
    fun q hq => ?_, fun q hq => ?_⟩
  · rw [hf.running] at hq
    obtain ⟨htask, -, hnumber⟩ := hf.thread q (hbelongs q hq)
    obtain ⟨hlive, hseat⟩ := h.seat q hq
    rw [htask, hnumber, hslot _ _ (h.number q (belongs_of_running hq))]
    exact ⟨hf.live _ hlive, hseat⟩
  · rw [hslot t' i hi] at hne ⊢
    obtain ⟨hx, htask, hnumber⟩ := h.only t' i hi hne
    obtain ⟨htask', -, hnumber'⟩ := hf.thread _ (hbelongs _ hx)
    rw [hf.running, htask', hnumber']
    exact ⟨hx, htask, hnumber⟩
  · obtain ⟨h₁, -, h₂⟩ := hf.thread q hq
    obtain ⟨h₁', -, h₂'⟩ := hf.thread q' hq'
    rw [h₁, h₁', h₂, h₂']
    exact h.apart q q' (hf.belongs q hq) (hf.belongs q' hq') hne
  · rw [(hf.thread q hq).2.2]
    exact h.number q (hf.belongs q hq)
  · obtain ⟨e, b, he⟩ := hp.linked (fun _ h => h) (hf.belongs q hq)
    obtain ⟨h₁, h₂, h₃⟩ := hf.thread q hq
    rw [h₁, h₂, h₃, hf.number _ he.taskLive]
    exact h.id q (hf.belongs q hq)

/-- **A thread that takes a seat of its own** keeps the numbers exclusive. -/
theorem Mem.Seating.joined (h : k.Seating c) (hp : Placed (handedOut k.log) k)
    (hj : Joined c fuel a m t j [m] k k')
    (hfree : ∀ q, k.Belongs q → q ≠ m → (k.mthread.cell q).task = t → k.lthreadOf q ≠ j) :
    k'.Seating c := by
  obtain ⟨hjne, hzero⟩ := h.vacant hj.origin
  obtain ⟨hself, hnumber, hid⟩ := hj.self
  have hmem : ∀ q, k'.Belongs q → q = m ∨ q ≠ m ∧ k.Belongs q := by
    intro q hq
    by_cases hqm : q = m
    · exact Or.inl hqm
    · exact Or.inr ⟨hqm, (hj.belongs q hq).resolve_left (by simpa using hqm)⟩
  have hother : ∀ q, q ∈ running k.log → q ≠ m := by
    rintro q hq rfl
    obtain ⟨e, b, he⟩ := hp.linked (fun _ h => h) (belongs_of_running hq)
    cases hj.origin with
    | pooled _ _ _ idle => exact idle (running_inUse hq)
    | fresh _ dead => exact absurd (he.thread.symm.trans dead) nofun
  have hslot : ∀ q, k.Belongs q → q ≠ m →
      k'.slot (k.mthread.cell q).task (k.lthreadOf q)
        = k.slot (k.mthread.cell q).task (k.lthreadOf q) := by
    intro q hq hne
    rw [hj.slot _ _ (h.number q hq)]
    exact if_neg fun hsame => hfree q hq hne hsame.1 hsame.2
  refine ⟨hj.listed h.listed, fun q hq => ?_, fun t' i hi hne => ?_, fun q q' hq hq' hne => ?_,
    fun q hq => ?_, fun q hq => ?_⟩
  · rw [hj.running] at hq
    rcases List.mem_cons.mp hq with rfl | hq
    · rw [hself, hnumber, hj.slot t j hjne, if_pos ⟨rfl, rfl⟩]
      exact ⟨hj.newLive, rfl⟩
    · have hq' : k.Belongs q := belongs_of_running hq
      obtain ⟨htask, -, hnum⟩ := hj.thread q hq' (hother q hq)
      obtain ⟨hlive, hseat⟩ := h.seat q hq
      rw [htask, hnum, hslot q hq' (hother q hq)]
      exact ⟨hj.live _ hlive, hseat⟩
  · rw [hj.slot t' i hi] at hne ⊢
    rw [hj.running]
    split_ifs at hne ⊢ with hsame
    · rw [hself, hnumber, hsame.1, hsame.2]
      exact ⟨List.mem_cons_self, rfl, rfl⟩
    · obtain ⟨hx, htask, hnum⟩ := h.only t' i hi hne
      obtain ⟨htask', -, hnum'⟩ := hj.thread _ (belongs_of_running hx) (hother _ hx)
      rw [htask', hnum']
      exact ⟨List.mem_cons_of_mem _ hx, htask, hnum⟩
  · rcases hmem q hq with rfl | ⟨hqm, hq⟩
    · rcases hmem q' hq' with rfl | ⟨hqm', hq'⟩
      · exact absurd rfl hne
      · obtain ⟨h₁, -, h₂⟩ := hj.thread q' hq' hqm'
        rw [hself, hnumber, h₁, h₂]
        exact fun htask heq => hfree q' hq' hqm' htask.symm heq.symm
    · obtain ⟨h₁, -, h₂⟩ := hj.thread q hq hqm
      rw [h₁, h₂]
      rcases hmem q' hq' with rfl | ⟨hqm', hq'⟩
      · rw [hself, hnumber]
        exact hfree q hq hqm
      · obtain ⟨h₁', -, h₂'⟩ := hj.thread q' hq' hqm'
        rw [h₁', h₂']
        exact h.apart q q' hq hq' hne
  · rcases hmem q hq with rfl | ⟨hqm, hq⟩
    · rwa [hnumber]
    · rw [(hj.thread q hq hqm).2.2]
      exact h.number q hq
  · rcases hmem q hq with rfl | ⟨hqm, hq⟩
    · rw [hself, hnumber]
      exact hid
    · obtain ⟨e, b, he⟩ := hp.linked (fun _ h => h) hq
      obtain ⟨h₁, h₂, h₃⟩ := hj.thread q hq hqm
      rw [h₁, h₂, h₃, hj.number _ he.taskLive]
      exact h.id q hq

/-! ### Runs -/

/-- **One call keeps the numbers exclusive.** -/
theorem Mem.Seating.step {op : ThreadOp O} (h : k.Seating c) (ho : Owned EnoughUsers k)
    (he : k.Exclusive c op) (hs : threadStep c k op = some k') : k'.Seating c := by
  obtain ⟨hr, hexcl⟩ := he
  rcases hr.seats ho hs with hcalm | ⟨m, k₁, k₂, hstill, hleft, hcalm⟩ | ⟨p, hp, m, t, j, hf | hj⟩
  · exact h.calm hcalm
  · exact ((h.calm hstill.calm).left hleft).calm hcalm
  · exact h.fumbled ho.placed hf
  · refine h.joined ho.placed hj fun q hq hne htask => ?_
    exact h.unclaimed ho.placed (hr.live hp) hj.origin (hexcl p hp) hq hne htask

/-- The threads that a regular call ends run. -/
theorem Mem.Regular.ends {op : ThreadOp O} (h : k.Regular c op) (hm : m ∈ k.ends op) :
    m ∈ running k.log := by
  cases op with
  | sysThreadReturn fuel item status thread => exact List.mem_singleton.mp hm ▸ h.2
  | threadDelete fuel item tid status caller => exact h.2 m (Option.mem_toList.mp hm)
  | _ => cases hm

theorem l4taskThreadAdd_asserted (h : k.l4taskThreadAdd c m = some k') : k'.Asserted m := by
  obtain ⟨j, -, rfl⟩ := Option.map_eq_some_iff.mp h
  have hs := (Still.refl (k.placeThread m j)).threadHashInsert m
  unfold Asserted
  rw [hs.task, hs.threadTask, hs.lthreadOf]
  simp [lthreadOf, placeThread]

/-- **Thread numbers are exclusive** in every run of such calls. -/
theorem numbers_exclusive (c : ThreadConf) (k : Mem) (ops : List (ThreadOp O)) (hboot : k.Booted)
    (htask : ∀ t, k.task.live t = false) (hops : Along (threadStep c) (Mem.Exclusive c) k ops) :
    Along (threadStep c) (Mem.NumberedAfter c) k ops := by
  refine Along.mono (I := fun k => Owned EnoughUsers k ∧ k.Seating c) ?_ ?_ ops k
    ⟨hboot.owned, hboot.seating htask⟩ hops
  · rintro k op ⟨ho, h⟩ he
    refine ⟨fun k' hs => ?_, fun m hm => ?_, fun k₁ k₂ m hadd => l4taskThreadAdd_asserted hadd⟩
    · exact (h.step ho he hs).numbered (ho.step_rightful he.1.1 hs).placed
    · exact (h.numbered ho.placed).seat m (he.1.ends hm)
  · rintro k op k' ⟨ho, h⟩ he hs
    exact ⟨ho.step_rightful he.1.1 hs, h.step ho he hs⟩

/-- A new thread takes the number of one that has exited, which is reaped. -/
def numberTaken : List (ThreadOp Unit) :=
  [.apdPdxMerge 5 0 0 0 ⟨7, 7⟩ (apdAt 100), .threadCreate 5 100 0 0 0 (threadAt 10 30),
    .threadCreate 5 100 10 0 0 (threadAt 12 31), .threadDelete 5 50 2 0 10,
    .threadCreate 5 100 10 0 0 (threadAt 13 32), .threadWait 5 51 0 10]

/-- The thread that was reaped is used again, and has the number of the new one. -/
theorem numbers_not_exclusive :
    ¬ ∀ (c : ThreadConf) (k : Mem) (ops : List (ThreadOp Unit)), k.Booted →
      (∀ t, k.task.live t = false) → Along (threadStep c) (Mem.NumberedAfter c) k ops := by
  intro h
  have hend : (run (threadStep smallConf) Mem.boot
      (numberTaken ++ [.threadCreate 5 100 10 0 0 (threadAt 14 33)])).map (fun k =>
        (running k.log, (k.mthread.cell 12).task, (k.mthread.cell 13).task, k.lthreadOf 12,
          k.lthreadOf 13)) = some ([12, 13, 10], 20, 20, 2, 2) := by
    decide +kernel
  obtain ⟨k', hrun, hk'⟩ := Option.map_eq_some_iff.mp hend
  rw [run_concat] at hrun
  obtain ⟨k, hk, hcreate⟩ := Option.bind_eq_some_iff.mp hrun
  have hafter := (h smallConf Mem.boot
    (numberTaken ++ [.threadCreate 5 100 10 0 0 (threadAt 14 33)]) Mem.boot_booted
    fun _ => rfl).at hk
  simp only [Prod.mk.injEq] at hk'
  obtain ⟨hruns, htask, htask', hnumber, hnumber'⟩ := hk'
  have hsame := (hafter.1 k' hcreate).apart 12 (by simp [hruns]) 13 (by simp [hruns])
    (htask.trans htask'.symm) (hnumber.trans hnumber'.symm)
  exact absurd hsame (by decide)

/-- A thread is reaped before another one is created. -/
def numberLeft : List (ThreadOp Unit) :=
  [.apdPdxMerge 5 0 0 0 ⟨7, 7⟩ (apdAt 100), .threadCreate 5 100 0 0 0 (threadAt 10 30),
    .threadCreate 5 100 10 0 0 (threadAt 12 31), .threadPdxCreate 5 100 10 (threadAt 13 32),
    .threadDelete 5 50 2 0 10, .threadWait 5 51 0 10, .sysThreadReturn 5 52 0 13,
    .threadCreate 5 100 10 0 0 (threadAt 14 33), .threadCreate 5 100 10 0 0 (threadAt 15 34),
    .threadCreate 5 100 10 0 0 (threadAt 16 35)]

theorem numbers_exclusive_numberLeft :
    Along (threadStep smallConf) (Mem.NumberedAfter smallConf) Mem.boot numberLeft :=
  numbers_exclusive smallConf Mem.boot numberLeft Mem.boot_booted (fun _ => rfl)
    (by decide +kernel)

end Mungi
