import Mungi.Threads.Seats

/-!
# Taking a seat

A creation gives its thread a number of the task: a new thread gets the first one that is vacant,
and a thread from the pool the one it had before, without a look at the table.

## Main definitions

* `Mem.Got` — what finding a thread for a creation leaves alone.
* `Mem.Seated` — a thread takes a seat.
* `Mem.Joined`, `Mem.Fumbled` — what a creation does to seats, and one that fails.
* `Mem.Origin` — where the seat comes from.

## Main results

* `threadCreate_creates`, `threadPdxCreate_creates` — **the seat that a creation takes.**
-/

namespace Mungi

open Chain Runs Mem

variable {O : Type} {c : ThreadConf} {k k' k'' : Mem} {fuel a m t j : ℕ} {sup : ThreadSupply}

namespace Mem

/-! ### Finding a thread -/

/-- What was in memory stays as it is, and a new task is empty and in the table of tasks. -/
structure Got (c : ThreadConf) (k k' : Mem) : Prop where
  log : k'.log = k.log
  thread : ∀ q, k.mthread.live q = true → k'.mthread.live q = true ∧
    (k'.mthread.cell q).task = (k.mthread.cell q).task ∧
    (k'.mthread.cell q).l4id = (k.mthread.cell q).l4id ∧
    (k'.mthread.cell q).apdThreadinfo = (k.mthread.cell q).apdThreadinfo
  entry : ∀ e, k.apdThread.live e = true → k'.apdThread.live e = true ∧
    (k'.apdThread.cell e).task = (k.apdThread.cell e).task ∧
    (k'.apdThread.cell e).mthread = (k.apdThread.cell e).mthread ∧
    (k'.apdThread.cell e).next = (k.apdThread.cell e).next ∧
    (k'.apdThread.cell e).lthread = (k.apdThread.cell e).lthread
  task : ∀ t, k.task.live t = true → k'.task.live t = true ∧ k'.task.cell t = k.task.cell t
  fresh : ∀ t, k'.task.live t = true → k.task.live t = true ∨
    (k'.task.cell t).threadFree = c.l4ThreadsPerTask - 1 ∧
      ∀ j, j ≠ 0 → (k'.task.cell t).l4Threads j = 0
  listed : k.Listed c → k'.Listed c

theorem Got.of_eq (hthread : k'.mthread = k.mthread) (hentry : k'.apdThread = k.apdThread)
    (htask : k'.task = k.task) (hl4Tasks : k'.l4Tasks = k.l4Tasks) (hlog : k'.log = k.log) :
    Got c k k' where
  log := hlog
  thread := fun q hq => by
    rw [hthread]
    exact ⟨hq, rfl, rfl, rfl⟩
  entry := fun e he => by
    rw [hentry]
    exact ⟨he, rfl, rfl, rfl, rfl⟩
  task := fun t ht => by
    rw [htask]
    exact ⟨ht, rfl⟩
  fresh := fun t ht => Or.inl (by rwa [htask] at ht)
  listed := fun h t ht => by
    rw [htask] at ht ⊢
    rw [hl4Tasks]
    exact h t ht

theorem Got.trans (h : Got c k k') (h' : Got c k' k'') : Got c k k'' where
  log := h'.log.trans h.log
  thread := fun q hq => by
    obtain ⟨h₁, h₂, h₃, h₄⟩ := h.thread q hq
    obtain ⟨h₁', h₂', h₃', h₄'⟩ := h'.thread q h₁
    exact ⟨h₁', h₂'.trans h₂, h₃'.trans h₃, h₄'.trans h₄⟩
  entry := fun e he => by
    obtain ⟨h₁, h₂, h₃, h₄, h₅⟩ := h.entry e he
    obtain ⟨h₁', h₂', h₃', h₄', h₅'⟩ := h'.entry e h₁
    exact ⟨h₁', h₂'.trans h₂, h₃'.trans h₃, h₄'.trans h₄, h₅'.trans h₅⟩
  task := fun t ht => by
    obtain ⟨h₁, h₂⟩ := h.task t ht
    obtain ⟨h₁', h₂'⟩ := h'.task t h₁
    exact ⟨h₁', h₂'.trans h₂⟩
  fresh := fun t ht => by
    rcases h'.fresh t ht with hmid | hnew
    · rw [(h'.task t hmid).2]
      exact h.fresh t hmid
    · exact Or.inr hnew
  listed := fun hl => h'.listed (h.listed hl)

theorem Got.kept (h : Got c k k') : Kept k k' where
  thread := fun q hq => by
    obtain ⟨h₁, h₂, -, h₃⟩ := h.thread q hq
    exact ⟨h₁, h₂, h₃⟩
  entry := fun e he => by
    obtain ⟨h₁, h₂, h₃, h₄, -⟩ := h.entry e he
    exact ⟨h₁, h₂, h₃, h₄⟩
  task := fun t ht => by
    obtain ⟨h₁, h₂⟩ := h.task t ht
    rw [h₂]
    exact ⟨h₁, rfl, rfl⟩

/-- What is done to a thread structure that was not in use. -/
theorem Got.thread_away (h : Got c k k') {p : ℕ} (hp : k.mthread.live p = false)
    (hlive : ∀ q, q ≠ p → k''.mthread.live q = k'.mthread.live q)
    (hcell : ∀ q, q ≠ p → k''.mthread.cell q = k'.mthread.cell q)
    (hentry : k''.apdThread = k'.apdThread) (htask : k''.task = k'.task)
    (hl4Tasks : k''.l4Tasks = k'.l4Tasks) (hlog : k''.log = k'.log) : Got c k k'' where
  log := hlog.trans h.log
  thread := fun q hq => by
    have hne : q ≠ p := by
      rintro rfl
      rw [hp] at hq
      cases hq
    rw [hlive q hne, hcell q hne]
    exact h.thread q hq
  entry := by
    rw [hentry]
    exact h.entry
  task := by
    rw [htask]
    exact h.task
  fresh := by
    rw [htask]
    exact h.fresh
  listed := fun hl t ht => by
    rw [htask] at ht ⊢
    rw [hl4Tasks]
    exact h.listed hl t ht

theorem taskNew_got (h : k.taskNew c sup = some (t, k')) : Got c k k' := by
  unfold taskNew at h
  by_cases htask : sup.task = 0
  · rw [if_pos htask] at h
    obtain ⟨-, rfl⟩ := Prod.mk.inj (Option.some.inj h)
    exact .of_eq rfl rfl rfl rfl rfl
  · rw [if_neg htask] at h
    obtain ⟨task, halloc, h⟩ := Option.bind_eq_some_iff.mp h
    have hold : ∀ q, k.task.live q = true →
        q ≠ sup.task ∧ task.live q = true ∧ task.cell q = k.task.cell q :=
      fun q hq => Heap.alloc_live halloc hq
    have hlive : ∀ q, q ≠ sup.task → task.live q = k.task.live q :=
      fun q hq => (Heap.live_alloc halloc q).trans (if_neg hq)
    -- a task that is given back leaves the others
    have hback : Got c k { k with task := task.free sup.task } := by
      have htasks : ∀ q, (task.free sup.task).live q = true → k.task.live q = true := by
        intro q hq
        rw [Heap.live_free] at hq
        split_ifs at hq with hne
        rwa [hlive q hne] at hq
      refine ⟨rfl, fun q hq => ⟨hq, rfl, rfl, rfl⟩, fun e he => ⟨he, rfl, rfl, rfl, rfl⟩,
        fun q hq => ?_, fun q hq => Or.inl (htasks q hq), fun hl q hq => ?_⟩
      · obtain ⟨hne, h₁, h₂⟩ := hold q hq
        exact ⟨(Heap.live_free_of_ne hne).trans h₁, h₂⟩
      · have hq' := htasks q hq
        dsimp only [Heap.cell_free]
        rw [(hold q hq').2.2]
        exact hl q hq'
    dsimp only at h
    by_cases hupcall : sup.upcall = 0
    · rw [if_pos hupcall] at h
      obtain ⟨-, rfl⟩ := Prod.mk.inj (Option.some.inj h)
      exact hback
    · rw [if_neg hupcall] at h
      obtain ⟨mthread, hthread, h⟩ := Option.map_eq_some_iff.mp h
      have hdead := (Heap.alloc_eq_some.mp hthread).1
      have hthreadLive : ∀ q, q ≠ sup.upcall → mthread.live q = k.mthread.live q :=
        fun q hq => (Heap.live_alloc hthread q).trans (if_neg hq)
      have hthreadCell : ∀ q, q ≠ sup.upcall → mthread.cell q = k.mthread.cell q :=
        fun q hq => Heap.cell_alloc_of_ne hthread hq
      split at h
      · obtain ⟨-, rfl⟩ := Prod.mk.inj h
        refine hback.thread_away hdead (fun q hq => ?_) hthreadCell rfl rfl rfl rfl
        exact (Heap.live_free_of_ne hq).trans (hthreadLive q hq)
      · next i hfind =>
        obtain ⟨-, rfl⟩ := Prod.mk.inj h
        have hi := List.mem_range.mp (List.mem_of_find?_eq_some hfind)
        have hvacant : k.l4Tasks i = 0 := by simpa using List.find?_some hfind
        have hself := Heap.cell_alloc_self halloc
        suffices hgot : Got c k { k with
            l4Tasks := Function.update k.l4Tasks i sup.task
            task := task.modify sup.task fun t => { t with
              task := { t.task with task := i + c.l4TaskStart }
              l4Threads := Function.update t.l4Threads 0 sup.upcall
              threadFree := c.l4ThreadsPerTask - 1 } } from
          hgot.thread_away hdead hthreadLive hthreadCell rfl rfl rfl rfl
        refine ⟨rfl, fun q hq => ⟨hq, rfl, rfl, rfl⟩, fun e he => ⟨he, rfl, rfl, rfl, rfl⟩,
          fun q hq => ?_, fun q hq => ?_, fun hl q hq => ?_⟩
        · obtain ⟨hne, h₁, h₂⟩ := hold q hq
          dsimp only
          rw [Heap.cell_modify_of_ne hne]
          exact ⟨h₁, h₂⟩
        · dsimp only
          by_cases hne : q = sup.task
          · rw [hne, Heap.cell_modify_self, hself]
            exact Or.inr ⟨rfl, fun j hj => Function.update_of_ne hj ..⟩
          · exact Or.inl ((hlive q hne).symm.trans hq)
        · dsimp only
          by_cases hne : q = sup.task
          · rw [hne, Heap.cell_modify_self]
            dsimp only
            rw [Nat.add_sub_cancel, Function.update_self]
            exact ⟨htask, Nat.le_add_left .., by omega, rfl⟩
          · have hq' : k.task.live q = true := (hlive q hne).symm.trans hq
            obtain ⟨h₀, h₁, h₂, h₃⟩ := hl q hq'
            rw [Heap.cell_modify_of_ne hne, (hold q hq').2.2]
            refine ⟨h₀, h₁, h₂, ?_⟩
            rw [Function.update_of_ne, h₃]
            rintro rfl
            exact h₀ (h₃.symm.trans hvacant)

theorem findTask_got {isNew : Bool} (h : k.findTask c fuel a sup = some ((t, isNew), k')) :
    Got c k k' ∧ (t ≠ 0 → k.task.live t = false ∨
      seek k.taskNext (fun t => (k.task.cell t).threadFree ≠ 0) fuel (k.apd.cell a).tasks = some t ∧
        k' = k) := by
  obtain ⟨t₀, hseek, h⟩ := Option.bind_eq_some_iff.mp h
  split_ifs at h with ht
  · obtain ⟨heq, rfl⟩ := Prod.mk.inj (Option.some.inj h)
    obtain ⟨rfl, -⟩ := Prod.mk.inj heq
    exact ⟨.of_eq rfl rfl rfl rfl rfl, fun _ => Or.inr ⟨hseek, rfl⟩⟩
  · obtain ⟨⟨r, k₁⟩, hnew, h⟩ := Option.map_eq_some_iff.mp h
    have hgot := taskNew_got hnew
    have hmade := taskNew_made hnew
    dsimp only at h
    split_ifs at h with hr
    · obtain ⟨heq, rfl⟩ := Prod.mk.inj h
      obtain ⟨rfl, -⟩ := Prod.mk.inj heq
      exact ⟨hgot, fun h => absurd rfl h⟩
    · obtain ⟨heq, rfl⟩ := Prod.mk.inj h
      obtain ⟨rfl, -⟩ := Prod.mk.inj heq
      have hdead := hmade.free hr
      refine ⟨⟨hgot.log, hgot.thread, hgot.entry, fun q hq => ?_, fun q hq => ?_,
        fun hl q hq => ?_⟩, fun _ => Or.inl hdead⟩
      · obtain ⟨h₁, h₂⟩ := hgot.task q hq
        have hne : q ≠ r := by
          rintro rfl
          rw [hdead] at hq
          cases hq
        dsimp only
        rw [Heap.cell_modify_of_ne hne]
        exact ⟨h₁, h₂⟩
      · rcases hgot.fresh q hq with hold | hfresh
        · exact Or.inl hold
        · refine Or.inr ?_
          dsimp only
          rw [Heap.cell_modify]
          split_ifs with hne
          · rw [← hne]
            exact hfresh
          · exact hfresh
      · have hlisted := hgot.listed hl q hq
        dsimp only
        rw [Heap.cell_modify]
        split_ifs with hne
        · rw [← hne]
          exact hlisted
        · exact hlisted

/-- The search for a task in which a number is left. -/
def seekTask (k : Mem) (fuel a : ℕ) : Option ℕ :=
  seek k.taskNext (fun t => (k.task.cell t).threadFree ≠ 0) fuel (k.apd.cell a).tasks

/-- A new thread has no number yet, and a task that was found or is new. -/
theorem makeMthread_got {busy : List (ℕ × ℕ)} {parent : ℕ} {isNew : Bool} (hp : Placed busy k)
    (ha : k.apd.live a = true)
    (h : k.makeMthread c fuel a parent sup = some ((m, isNew), k')) :
    Got c k k' ∧ (∀ b, (k'.apd.cell b).threads = (k.apd.cell b).threads) ∧
      (m ≠ 0 → k.mthread.live m = false ∧ k'.lthreadOf m = 0 ∧ (k'.mthread.cell m).task ≠ 0 ∧
        (k.task.live (k'.mthread.cell m).task = false ∨
          k.seekTask fuel a = some (k'.mthread.cell m).task)) := by
  unfold makeMthread at h
  by_cases hm : sup.mthread = 0
  · rw [if_pos hm] at h
    obtain ⟨heq, rfl⟩ := Prod.mk.inj (Option.some.inj h)
    obtain ⟨rfl, -⟩ := Prod.mk.inj heq
    exact ⟨.of_eq rfl rfl rfl rfl rfl, fun _ => rfl, fun h => absurd rfl h⟩
  · rw [if_neg hm] at h
    obtain ⟨mthread, halloc, h⟩ := Option.bind_eq_some_iff.mp h
    obtain ⟨⟨⟨t, isNew'⟩, k₂⟩, hfind, h⟩ := Option.bind_eq_some_iff.mp h
    have hdead := (Heap.alloc_eq_some.mp halloc).1
    generalize hk₁ : ({ k with mthread } : Mem).clearQueues sup.mthread = k₁ at hfind
    have hmthread : k₁.mthread = mthread := by rw [← hk₁]; rfl
    have hapd : k₁.apd = k.apd := by rw [← hk₁]; rfl
    have htask : k₁.task = k.task := by rw [← hk₁]; rfl
    have hlive : ∀ q, q ≠ sup.mthread → k₁.mthread.live q = k.mthread.live q := fun q hq => by
      rw [hmthread]
      exact (Heap.live_alloc halloc q).trans (if_neg hq)
    have hcell : ∀ q, q ≠ sup.mthread → k₁.mthread.cell q = k.mthread.cell q := fun q hq => by
      rw [hmthread]
      exact Heap.cell_alloc_of_ne halloc hq
    have hgot₁ : Got c k k₁ := by
      refine Got.thread_away (.of_eq rfl rfl rfl rfl rfl) hdead hlive hcell ?_ ?_ ?_ ?_
      all_goals rw [← hk₁]; rfl
    have hkept₁ : Kept k k₁ := by
      refine Kept.thread_away (.of_eq rfl rfl rfl) hdead hlive hcell htask ?_
      rw [← hk₁]
      rfl
    have hp₁ : Placed busy k₁ := hp.kept (by rw [hapd]) (fun _ _ => by rw [hapd])
      (fun _ _ => by rw [hapd]) hkept₁
    have hthreads : ∀ b, (k₂.apd.cell b).threads = (k.apd.cell b).threads := fun b => by
      rw [(findTask_found hp₁ (by rw [hapd]; exact ha) hfind).threads, hapd]
    obtain ⟨hgot₂, hfound⟩ := findTask_got hfind
    have hgot := hgot₁.trans hgot₂
    have hout : Got c k { k₂ with mthread := k₂.mthread.free sup.mthread } :=
      hgot.thread_away hdead (fun q hq => Heap.live_free_of_ne hq) (fun _ _ => rfl) rfl rfl rfl rfl
    dsimp only at h
    split_ifs at h with ht he
    · obtain ⟨heq, rfl⟩ := Prod.mk.inj (Option.some.inj h)
      obtain ⟨rfl, -⟩ := Prod.mk.inj heq
      exact ⟨hout, hthreads, fun h => absurd rfl h⟩
    · obtain ⟨heq, rfl⟩ := Prod.mk.inj (Option.some.inj h)
      obtain ⟨rfl, -⟩ := Prod.mk.inj heq
      exact ⟨hout, hthreads, fun h => absurd rfl h⟩
    · obtain ⟨apdThread, hentry, h⟩ := Option.map_eq_some_iff.mp h
      obtain ⟨heq, hk'⟩ := Prod.mk.inj h
      obtain ⟨rfl, -⟩ := Prod.mk.inj heq
      have hmthread' : k'.mthread = k₂.mthread.modify sup.mthread fun x =>
          { x with apdThreadinfo := sup.apdThread, task := t } := by rw [← hk']
      have hinfo : (k'.mthread.cell sup.mthread).apdThreadinfo = sup.apdThread ∧
          (k'.mthread.cell sup.mthread).task = t := by
        rw [hmthread', Heap.cell_modify_self]
        exact ⟨rfl, rfl⟩
      have halloced : Got c k { k₂ with apdThread } := by
        refine ⟨hgot.log, hgot.thread, fun e he => ?_, hgot.task, hgot.fresh, hgot.listed⟩
        obtain ⟨h₁, h₂⟩ := hgot.entry e he
        obtain ⟨-, h₃, h₄⟩ := Heap.alloc_live hentry h₁
        dsimp only
        rw [h₄]
        exact ⟨h₃, h₂⟩
      refine ⟨?_, fun b => ?_, fun _ => ⟨hdead, ?_, hinfo.2 ▸ ht, ?_⟩⟩
      · refine halloced.thread_away hdead (fun q hq => ?_) (fun q hq => ?_) ?_ ?_ ?_ ?_
        · rw [hmthread']
          rfl
        · rw [hmthread', Heap.cell_modify_of_ne hq]
        all_goals rw [← hk']
      · rw [← hk']
        exact hthreads b
      · unfold Mem.lthreadOf
        rw [hinfo.1, ← hk']
        exact congrArg ApdThread.lthread (Heap.cell_alloc_self hentry)
      · rw [hinfo.2]
        unfold seekTask
        rw [← htask, ← hapd]
        rcases hfound ht with hnew | ⟨hseek, -⟩
        · exact Or.inl hnew
        · refine Or.inr (Eq.trans ?_ hseek)
          unfold taskNext
          rw [htask]

/-- Where the thread of a creation in the APD `a` comes from: from the pool, or it is new. -/
inductive Source (c : ThreadConf) (fuel : ℕ) (k : Mem) (a m : ℕ) (k' : Mem) : Prop where
  | pooled (pool : (k.apd.cell a).threads ≠ 0)
      (head : m = (k.apdThread.cell (k.apd.cell a).threads).mthread) (belongs : k.Belongs m)
      (idle : ¬ InUse k.log m)
  | fresh (pool : (k.apd.cell a).threads = 0) (dead : k.mthread.live m = false)
      (lthread : k'.lthreadOf m = 0) (ne : (k'.mthread.cell m).task ≠ 0)
      (task : k.task.live (k'.mthread.cell m).task = false ∨
        k.seekTask fuel a = some (k'.mthread.cell m).task)

/-- What `thread_get_mthread` does. -/
structure GotThread (c : ThreadConf) (fuel : ℕ) (k : Mem) (a m : ℕ) (k' : Mem) : Prop where
  got : Got c k k'
  belongs : ∀ q, k'.Belongs q → k.Belongs q
  source : m ≠ 0 → Source c fuel k a m k'

/-- A thread from the pool keeps its task, its id and its number. -/
theorem takePooled_got (k : Mem) (a parent : ℕ) :
    Got c k (k.takePooled a parent).2 ∧
      (k.takePooled a parent).1 = (k.apdThread.cell (k.apd.cell a).threads).mthread ∧
      ∀ b, ((k.takePooled a parent).2.apd.cell b).threads
        = if b = a then k.poolNext (k.apd.cell a).threads else (k.apd.cell b).threads := by
  generalize hm : (k.takePooled a parent).1 = m
  generalize hk' : (k.takePooled a parent).2 = k'
  have hthread : k'.mthread = k.mthread.modify m fun t =>
      { t with
        parent
        children := 0
        state := .ok
        lasterror := 0
        waiting := 0
        PDX := 0
        kill := 0
        detached := false } := by
    rw [← hk', ← hm]
    rfl
  have hapd : k'.apd = k.apd.modify a fun x =>
      { x with threads := k.poolNext (k.apd.cell a).threads } := by
    rw [← hk']
    rfl
  have hrest : k'.apdThread = k.apdThread ∧ k'.task = k.task ∧ k'.l4Tasks = k.l4Tasks ∧
      k'.log = k.log := by
    rw [← hk']
    exact ⟨rfl, rfl, rfl, rfl⟩
  refine ⟨⟨hrest.2.2.2, fun q hq => ?_, fun e he => ?_, fun t ht => ?_, fun t ht => ?_,
    fun hl t ht => ?_⟩, ?_, fun b => ?_⟩
  · rw [hthread]
    refine ⟨hq, Heap.modify_field (g := Mthread.task) ?_ q,
      Heap.modify_field (g := Mthread.l4id) ?_ q,
      Heap.modify_field (g := Mthread.apdThreadinfo) ?_ q⟩
    all_goals exact fun _ => rfl
  · rw [hrest.1]
    exact ⟨he, rfl, rfl, rfl, rfl⟩
  · rw [hrest.2.1]
    exact ⟨ht, rfl⟩
  · rw [hrest.2.1] at ht
    exact Or.inl ht
  · rw [hrest.2.1] at ht ⊢
    rw [hrest.2.2.1]
    exact hl t ht
  · rw [← hm]
    rfl
  · rw [hapd, Heap.cell_modify]
    split_ifs <;> rfl

theorem threadGetMthread_got {parent : ℕ} {got : GotMthread} (hp : Placed (handedOut k.log) k)
    (ha : k.apd.live a = true) (h : k.threadGetMthread c fuel a parent sup = some (got, k')) :
    GotThread c fuel k a got.new k' := by
  have hcreated := threadGetMthread_created hp ha h
  have hlive : k'.apd.live = k.apd.live := (threadGetMthread_apart h).1.live
  have hp' : Placed (handedOut k.log) (k.modApd a fun x => { x with users := x.users + 1 }) :=
    hp.modApd a fun _ => ⟨rfl, rfl⟩
  have hcell : ∀ b, ((k.modApd a fun x => { x with users := x.users + 1 }).apd.cell b).threads
      = (k.apd.cell b).threads := by
    intro b
    dsimp only
    refine Heap.modify_field (g := Apd.threads) ?_ b
    exact fun _ => rfl
  have hseek : (k.modApd a fun x => { x with users := x.users + 1 }).seekTask fuel a
      = k.seekTask fuel a := by
    unfold seekTask
    dsimp only
    rw [Heap.cell_modify_self]
    rfl
  have hcount : Got c k (k.modApd a fun x => { x with users := x.users + 1 }) :=
    .of_eq rfl rfl rfl rfl rfl
  have hsame : (k.modApd a fun x => { x with users := x.users + 1 }).poolNext = k.poolNext ∧
      (k.modApd a fun x => { x with users := x.users + 1 }).apdThread = k.apdThread ∧
      (k.modApd a fun x => { x with users := x.users + 1 }).apd.live = k.apd.live ∧
      (k.modApd a fun x => { x with users := x.users + 1 }).mthread = k.mthread ∧
      (k.modApd a fun x => { x with users := x.users + 1 }).task = k.task :=
    ⟨rfl, rfl, rfl, rfl, rfl⟩
  unfold threadGetMthread at h
  generalize (k.modApd a fun x => { x with users := x.users + 1 }) = k₁ at *
  obtain ⟨hnext, hentry, halive, hmthread, htask⟩ := hsame
  dsimp only at h
  rw [hcell] at h
  split_ifs at h with hpool
  · obtain ⟨rfl, rfl⟩ := Prod.mk.inj (Option.some.inj h)
    obtain ⟨hgot, hm, hthreads⟩ := takePooled_got (c := c) k₁ a parent
    rw [hcell, hentry] at hm
    have hgot := hcount.trans hgot
    refine ⟨hgot, fun q hq => ?_, fun hne => .pooled hpool hm ?_ ?_⟩
    · refine hp.belongs hgot.kept hq hgot.log fun b hb => ?_
      rw [hlive] at hb
      refine ⟨hb, ?_⟩
      rw [hthreads, hcell, hcell, hnext]
      split_ifs with hba
      · rw [hba]
        exact Or.inr ⟨hpool, rfl⟩
      · exact Or.inl rfl
    · exact Or.inr ⟨a, _, ha, .here hpool, hm.symm⟩
    · exact (List.nodup_cons.mp (hcreated.placed hne).nodup).1
  · obtain ⟨⟨⟨m, isNew⟩, k₂⟩, hmake, heq⟩ := Option.map_eq_some_iff.mp h
    obtain ⟨rfl, rfl⟩ := Prod.mk.inj heq
    obtain ⟨hgot, hthreads, hnew⟩ := makeMthread_got hp' (halive ▸ ha) hmake
    have hgot := hcount.trans hgot
    refine ⟨hgot, fun q hq => ?_, fun hne => ?_⟩
    · refine hp.belongs hgot.kept hq hgot.log fun b hb => ⟨hlive ▸ hb, Or.inl ?_⟩
      rw [hthreads, hcell]
    · obtain ⟨hdead, hzero, htne, htask'⟩ := hnew hne
      rw [hmthread] at hdead
      rw [hseek, htask] at htask'
      exact .fresh (not_not.mp hpool) hdead hzero htne htask'

/-- What leaves seats alone may follow. -/
theorem GotThread.after (h : GotThread c fuel k a m k') (hg : Got c k' k'')
    (hbelongs : ∀ q, k''.Belongs q → k'.Belongs q)
    (hm : (k''.mthread.cell m).task = (k'.mthread.cell m).task ∧ k''.lthreadOf m = k'.lthreadOf m) :
    GotThread c fuel k a m k'' where
  got := h.got.trans hg
  belongs := fun q hq => h.belongs q (hbelongs q hq)
  source := fun hne => by
    cases h.source hne with
    | pooled pool head belongs idle => exact .pooled pool head belongs idle
    | fresh pool dead lthread ne task =>
      rw [← hm.1] at ne task
      exact .fresh pool dead (hm.2.trans lthread) ne task

theorem Still.got (h : Still k k') : Got c k k' where
  log := h.log
  thread := fun q hq => ⟨by rw [h.threadLive, hq], h.threadTask q, h.threadL4id q, h.threadInfo q⟩
  entry := fun e he =>
    ⟨by rw [h.entryLive, he], h.entryTask e, h.entryThread e, h.entryNext e, h.lthread e⟩
  task := fun t ht => by
    rw [h.task]
    exact ⟨ht, rfl⟩
  fresh := fun t ht => Or.inl (by rwa [h.task] at ht)
  listed := h.calm.listed

/-! ### Taking the seat -/

/-- The first vacant number of a task. -/
def vacant (c : ThreadConf) (k : Mem) (t : ℕ) : Option ℕ :=
  (List.range' 1 (c.l4ThreadsPerTask - 1)).find? fun i => (k.task.cell t).l4Threads i = 0

/-- The thread `m` becomes the thread number `j` of its task. -/
structure Seated (m j : ℕ) (k k' : Mem) : Prop where
  log : k'.log = k.log
  belongs : ∀ q, k'.Belongs q → k.Belongs q
  thread : ∀ q, q ≠ m → (k'.mthread.cell q).task = (k.mthread.cell q).task ∧
    (k'.mthread.cell q).l4id = (k.mthread.cell q).l4id
  lthreadOf : ∀ q e a, k.Linked q e a → q ≠ m → k'.lthreadOf q = k.lthreadOf q
  selfTask : (k'.mthread.cell m).task = (k.mthread.cell m).task
  selfNumber : k'.lthreadOf m = j
  selfId : (k'.mthread.cell m).l4id
    = { (k.task.cell (k.mthread.cell m).task).task with lthread := j }
  live : k'.task.live = k.task.live
  number : ∀ t, (k'.task.cell t).task = (k.task.cell t).task
  l4Threads : ∀ t, (k'.task.cell t).l4Threads = if t = (k.mthread.cell m).task then
    Function.update (k.task.cell t).l4Threads j m else (k.task.cell t).l4Threads
  threadFree : ∀ t, (k'.task.cell t).threadFree = if t = (k.mthread.cell m).task then
    (k.task.cell t).threadFree - 1 else (k.task.cell t).threadFree
  l4Tasks : k'.l4Tasks = k.l4Tasks

theorem placeThread_seated {e : ℕ} (hm : k.Linked m e a) (j : ℕ) :
    Seated m j k (k.placeThread m j) := by
  generalize hk' : k.placeThread m j = k'
  have hthread : k'.mthread = k.mthread.modify m fun t => { t with
      task := (k.mthread.cell m).task
      l4id := { (k.task.cell (k.mthread.cell m).task).task with lthread := j }
      tid := k.nextTid } := by
    rw [← hk', ← hm.task, ← hm.info]
    rfl
  have hentry : k'.apdThread = k.apdThread.modify e fun x => { x with lthread := j } := by
    rw [← hk', ← hm.info]
    rfl
  have htask : k'.task = k.task.modify (k.mthread.cell m).task fun t => { t with
      l4Threads := Function.update t.l4Threads j m
      threadFree := t.threadFree - 1 } := by
    rw [← hk', ← hm.task, ← hm.info]
    rfl
  have hrest : k'.log = k.log ∧ k'.apd = k.apd ∧ k'.l4Tasks = k.l4Tasks := by
    rw [← hk']
    exact ⟨rfl, rfl, rfl⟩
  have hinfo : ∀ q, (k'.mthread.cell q).apdThreadinfo = (k.mthread.cell q).apdThreadinfo := by
    intro q
    rw [hthread]
    refine Heap.modify_field (g := Mthread.apdThreadinfo) ?_ q
    exact fun _ => rfl
  refine ⟨hrest.1, fun q hq => ?_, fun q hq => ?_, fun q e' a' hq hne => ?_, ?_, ?_, ?_, ?_,
    fun t => ?_, fun t => ?_, fun t => ?_, hrest.2.2⟩
  · refine hq.of_pools (fun q hq => ?_) (fun b hb => ?_) (funext fun p => ?_) fun p => ?_
    · rwa [hrest.1] at hq
    · rw [hrest.2.1] at hb ⊢
      exact Or.inl ⟨hb, rfl⟩
    · unfold poolNext
      rw [hentry]
      refine Heap.modify_field (g := ApdThread.next) ?_ p
      exact fun _ => rfl
    · rw [hentry]
      refine Heap.modify_field (g := ApdThread.mthread) ?_ p
      exact fun _ => rfl
  · rw [hthread, Heap.cell_modify_of_ne hq]
    exact ⟨rfl, rfl⟩
  · unfold Mem.lthreadOf
    rw [hinfo, hentry, hq.info, Heap.cell_modify_of_ne]
    rintro rfl
    exact hne (hq.mthread.symm.trans hm.mthread)
  · rw [hthread, Heap.cell_modify_self]
  · unfold Mem.lthreadOf
    rw [hinfo, hentry, hm.info, Heap.cell_modify_self]
  · rw [hthread, Heap.cell_modify_self]
  · rw [htask]
    rfl
  · rw [htask]
    refine Heap.modify_field (g := L4Task.task) ?_ t
    exact fun _ => rfl
  · rw [htask, Heap.cell_modify]
    split_ifs with ht
    · rw [ht]
    · rfl
  · rw [htask, Heap.cell_modify]
    split_ifs with ht
    · rw [ht]
    · rfl

/-- What keeps the seats as they are may follow. -/
theorem Seated.still (h : Seated m j k k') (hs : Still k' k'') : Seated m j k k'' where
  log := hs.log.trans h.log
  belongs := fun q hq => h.belongs q (hs.belongs hq)
  thread := fun q hq => by
    rw [hs.threadTask, hs.threadL4id]
    exact h.thread q hq
  lthreadOf := fun q e a hq hne => (hs.lthreadOf q).trans (h.lthreadOf q e a hq hne)
  selfTask := (hs.threadTask m).trans h.selfTask
  selfNumber := (hs.lthreadOf m).trans h.selfNumber
  selfId := (hs.threadL4id m).trans h.selfId
  live := by rw [hs.task, h.live]
  number := by
    rw [hs.task]
    exact h.number
  l4Threads := by
    rw [hs.task]
    exact h.l4Threads
  threadFree := by
    rw [hs.task]
    exact h.threadFree
  l4Tasks := hs.l4Tasks.trans h.l4Tasks

/-- **`l4task_thread_add`** gives the thread the number in its pool entry, or a vacant one. -/
theorem l4taskThreadAdd_seated {e : ℕ} (hm : k.Linked m e a)
    (h : k.l4taskThreadAdd c m = some k') : ∃ j, Seated m j k k' ∧
      (if k.lthreadOf m = 0 then k.vacant c (k.mthread.cell m).task = some j
        else j = k.lthreadOf m) := by
  obtain ⟨j, hj, rfl⟩ := Option.map_eq_some_iff.mp h
  refine ⟨j, (placeThread_seated hm j).still ((Still.refl _).threadHashInsert m), ?_⟩
  unfold Mem.lthreadOf
  rw [hm.info] at hj ⊢
  rw [hm.task] at hj
  split_ifs at hj ⊢ with hzero
  · exact hj
  · exact (Option.some.inj hj).symm

theorem vacant_spec (h : k.vacant c t = some j) :
    (k.task.cell t).l4Threads j = 0 ∧ 1 ≤ j ∧ j < c.l4ThreadsPerTask := by
  have hj := List.mem_range'_1.mp (List.mem_of_find?_eq_some h)
  have hzero : (k.task.cell t).l4Threads j = 0 := by simpa using List.find?_some h
  exact ⟨hzero, hj.1, by omega⟩

/-! ### Creations -/

theorem Got.slot (h : Got c k k') (t : ℕ) {i : ℕ} (hi : i ≠ 0) : k'.slot t i = k.slot t i := by
  unfold Mem.slot
  cases hold : k.task.live t with
  | true =>
    obtain ⟨hlive, hcell⟩ := h.task t hold
    rw [hlive, hcell]
  | false =>
    rw [if_neg Bool.false_ne_true]
    split_ifs with hlive
    · rcases h.fresh t hlive with hold' | ⟨-, hzero⟩
      · exact absurd (hold'.symm.trans hold) nofun
      · exact hzero i hi
    · rfl

theorem Got.free (h : Got c k k') (t : ℕ) : k'.free c t = k.free c t := by
  unfold Mem.free
  cases hold : k.task.live t with
  | true =>
    obtain ⟨hlive, hcell⟩ := h.task t hold
    rw [hlive, hcell]
  | false =>
    rw [if_neg Bool.false_ne_true]
    split_ifs with hlive
    · rcases h.fresh t hlive with hold' | ⟨hfull, -⟩
      · exact absurd (hold'.symm.trans hold) nofun
      · exact hfull
    · rfl

/-- Where the seat of a creation in the APD `a` comes from: the thread had it before, as the pool
entry says, or it is vacant, and the pool is empty. -/
inductive Origin (c : ThreadConf) (fuel : ℕ) (k : Mem) (a m t j : ℕ) : Prop where
  | pooled (pool : (k.apd.cell a).threads ≠ 0)
      (head : m = (k.apdThread.cell (k.apd.cell a).threads).mthread) (belongs : k.Belongs m)
      (idle : ¬ InUse k.log m) (task : t = (k.mthread.cell m).task) (live : k.task.live t = true)
      (number : if k.lthreadOf m = 0 then k.vacant c t = some j else j = k.lthreadOf m)
  | fresh (pool : (k.apd.cell a).threads = 0) (dead : k.mthread.live m = false)
      (slot : k.slot t j = 0) (pos : 1 ≤ j) (lt : j < c.l4ThreadsPerTask) (room : k.free c t ≠ 0)
      (found : k.task.live t = true → k.seekTask fuel a = some t ∧ k.vacant c t = some j)

/-- A creation in the APD `a` has given the seat `j` of the task `t` to the thread `m`; the threads
in `news` were not running before. -/
structure Joined (c : ThreadConf) (fuel a m t j : ℕ) (news : List ℕ) (k k' : Mem) : Prop where
  origin : Origin c fuel k a m t j
  running : Mungi.running k'.log = news ++ Mungi.running k.log
  belongs : ∀ q, k'.Belongs q → q ∈ news ∨ k.Belongs q
  thread : ∀ q, k.Belongs q → q ≠ m → (k'.mthread.cell q).task = (k.mthread.cell q).task ∧
    (k'.mthread.cell q).l4id = (k.mthread.cell q).l4id ∧ k'.lthreadOf q = k.lthreadOf q
  self : (k'.mthread.cell m).task = t ∧ k'.lthreadOf m = j ∧
    (k'.mthread.cell m).l4id.lthread = j ∧
    (k'.mthread.cell m).l4id.task = (k'.task.cell t).task.task
  newLive : k'.task.live t = true
  live : ∀ t', k.task.live t' = true → k'.task.live t' = true
  number : ∀ t', k.task.live t' = true →
    (k'.task.cell t').task.task = (k.task.cell t').task.task
  slot : ∀ t' i, i ≠ 0 → k'.slot t' i = if t' = t ∧ i = j then m else k.slot t' i
  free : ∀ t', k'.free c t' = if t' = t then k.free c t' - 1 else k.free c t'
  listed : k.Listed c → k'.Listed c

/-- The thread that was found takes its seat. -/
theorem Seated.joined {e : ℕ} {k₂ : Mem} (hp : Placed (handedOut k.log) k)
    (hgot : GotThread c fuel k a m k₂) (hm : k₂.Linked m e a) (hs : Seated m j k₂ k')
    (hj : if k₂.lthreadOf m = 0 then k₂.vacant c (k₂.mthread.cell m).task = some j
      else j = k₂.lthreadOf m) :
    Joined c fuel a m (k₂.mthread.cell m).task j [] k k' := by
  have hall := hgot.got
  have hlinked : ∀ q, k.Belongs q → ∃ e a, k.Linked q e a ∧ k₂.Linked q e a := by
    intro q hq
    obtain ⟨e, a, he⟩ := hp.linked (fun _ h => h) hq
    exact ⟨e, a, he, he.kept hall.kept⟩
  have hnumber : ∀ q, k.Belongs q → k₂.lthreadOf q = k.lthreadOf q := by
    intro q hq
    obtain ⟨e, a, he, he'⟩ := hlinked q hq
    unfold Mem.lthreadOf
    rw [he.info, he'.info, (hall.entry e he.entry).2.2.2.2]
  have hlive : k₂.task.live (k₂.mthread.cell m).task = true := hm.taskLive
  generalize ht : (k₂.mthread.cell m).task = t at *
  have hvacant : k.task.live t = true → k₂.vacant c t = k.vacant c t := by
    intro hold
    unfold vacant
    rw [(hall.task t hold).2]
  have horigin : Origin c fuel k a m t j := by
    cases hgot.source hm.ne with
    | pooled pool head belongs idle =>
      obtain ⟨e, b, he, he'⟩ := hlinked m belongs
      have hof : t = (k.mthread.cell m).task := by
        rw [← ht, (hall.thread m he.thread).2.1]
      have hold : k.task.live t = true := hof ▸ he.taskLive
      rw [hvacant hold, hnumber m belongs] at hj
      exact .pooled pool head belongs idle hof hold hj
    | fresh pool dead lthread ne task =>
      rw [lthread, if_pos rfl] at hj
      obtain ⟨hslot, hpos, hlt⟩ := vacant_spec hj
      have hslot' : k.slot t j = 0 := by
        rw [← hall.slot t (Nat.ne_of_gt hpos)]
        unfold Mem.slot
        rw [hlive]
        exact hslot
      rw [ht] at task ne
      refine .fresh pool dead hslot' hpos hlt ?_ fun hold => ?_
      · unfold Mem.free
        split_ifs with hold
        · rcases task with hnew | hseek
          · exact absurd (hnew.symm.trans hold) nofun
          · simpa using seek_test hseek ne
        · omega
      · rcases task with hnew | hseek
        · exact absurd (hnew.symm.trans hold) nofun
        · exact ⟨hseek, hvacant hold ▸ hj⟩
  have hjne : j ≠ 0 := by
    split_ifs at hj with hzero
    · exact Nat.ne_of_gt (vacant_spec hj).2.1
    · rwa [hj]
  refine ⟨horigin, by rw [hs.log, hall.log]; rfl, fun q hq => ?_, fun q hq hne => ?_, ?_, ?_,
    fun q hq => ?_, fun q hq => ?_, fun q i hi => ?_, fun q => ?_, fun hl q hq => ?_⟩
  · exact Or.inr (hgot.belongs q (hs.belongs q hq))
  · obtain ⟨e', b, he, he'⟩ := hlinked q hq
    obtain ⟨h₁, h₂⟩ := hs.thread q hne
    obtain ⟨-, h₃, h₄, -⟩ := hall.thread q he.thread
    exact ⟨h₁.trans h₃, h₂.trans h₄, (hs.lthreadOf q e' b he' hne).trans (hnumber q hq)⟩
  · rw [hs.selfTask, hs.selfNumber, hs.selfId, hs.number, ht]
    exact ⟨rfl, rfl, rfl, rfl⟩
  · rw [hs.live, hlive]
  · rw [hs.live]
    exact (hall.task q hq).1
  · rw [hs.number, (hall.task q hq).2]
  · have hold := hall.slot q hi
    unfold Mem.slot at hold ⊢
    rw [← hold, hs.live, hs.l4Threads, ht]
    by_cases hqt : q = t
    · rw [hqt, hlive, if_pos rfl, if_pos rfl, if_pos rfl, Function.update_apply]
      simp
    · rw [if_neg hqt, if_neg (show ¬ (q = t ∧ i = j) from fun h => hqt h.1)]
  · have hold := hall.free q
    unfold Mem.free at hold ⊢
    rw [← hold, hs.live, hs.threadFree, ht]
    by_cases hqt : q = t
    · rw [hqt, hlive, if_pos rfl, if_pos rfl, if_pos rfl]
      simp
    · rw [if_neg hqt, if_neg hqt]
  · rw [hs.live] at hq
    rw [hs.number, hs.l4Tasks]
    exact hall.listed hl q hq

/-- What `l4_task_new` answers leaves the number of the task as it is. -/
theorem Joined.start {news : List ℕ} (h : Joined c fuel a m t j news k k') {ret : L4Id}
    (hret : ret.lthread = 0 ∧ ret.task = (k'.task.cell t).task.task) :
    Joined c fuel a m t j news k (k'.startTask m ret) := by
  obtain ⟨hself, hnumber, hid⟩ := h.self
  generalize hk'' : k'.startTask m ret = k''
  have hthread : k''.mthread = k'.mthread.modify m fun t => { t with l4id := t.l4id.or ret } := by
    rw [← hk'']
    rfl
  have htask : k''.task = k'.task.modify t fun t => { t with task := ret } := by
    rw [← hk'', ← hself]
    rfl
  have hrest : k''.log = k'.log ∧ k''.apd = k'.apd ∧ k''.apdThread = k'.apdThread ∧
      k''.l4Tasks = k'.l4Tasks := by
    rw [← hk'']
    exact ⟨rfl, rfl, rfl, rfl⟩
  obtain ⟨hlog, hapd, hentry, htable⟩ := hrest
  have hlthread : ∀ q, k''.lthreadOf q = k'.lthreadOf q := by
    intro q
    unfold Mem.lthreadOf
    rw [hentry, hthread]
    congr 2
    refine Heap.modify_field (g := Mthread.apdThreadinfo) ?_ q
    exact fun _ => rfl
  have htaskOf : ∀ q, (k''.mthread.cell q).task = (k'.mthread.cell q).task := by
    intro q
    rw [hthread]
    refine Heap.modify_field (g := Mthread.task) ?_ q
    exact fun _ => rfl
  have hnum : ∀ q, (k''.task.cell q).task.task = (k'.task.cell q).task.task := by
    intro q
    rw [htask, Heap.cell_modify]
    split_ifs with hq
    · rw [hq]
      exact hret.2
    · rfl
  have hslots : ∀ q, (k''.task.cell q).l4Threads = (k'.task.cell q).l4Threads ∧
      (k''.task.cell q).threadFree = (k'.task.cell q).threadFree := by
    intro q
    rw [htask]
    refine ⟨Heap.modify_field (g := L4Task.l4Threads) ?_ q,
      Heap.modify_field (g := L4Task.threadFree) ?_ q⟩
    all_goals exact fun _ => rfl
  have hlive : k''.task.live = k'.task.live := by
    rw [htask]
    rfl
  refine ⟨h.origin, by rw [hlog, h.running], fun q hq => h.belongs q ?_, fun q hq hne => ?_, ?_,
    by rw [hlive, h.newLive], fun q hq => by rw [hlive, h.live q hq],
    fun q hq => (hnum q).trans (h.number q hq), fun q i hi => ?_, fun q => ?_, fun hl q hq => ?_⟩
  · refine hq.of_pools (fun q hq => ?_) (fun b hb => ?_) ?_ fun e => ?_
    · rwa [hlog] at hq
    · rw [hapd] at hb ⊢
      exact Or.inl ⟨hb, rfl⟩
    · unfold poolNext
      rw [hentry]
    · rw [hentry]
  · obtain ⟨h₁, h₂, h₃⟩ := h.thread q hq hne
    refine ⟨(htaskOf q).trans h₁, ?_, (hlthread q).trans h₃⟩
    rw [hthread, Heap.cell_modify_of_ne hne, h₂]
  · refine ⟨(htaskOf m).trans hself, (hlthread m).trans hnumber, ?_, ?_⟩
    · rw [hthread, Heap.cell_modify_self]
      dsimp only [L4Id.or]
      rw [hid.1, hret.1, Nat.or_zero]
    · rw [hnum, hthread, Heap.cell_modify_self]
      dsimp only [L4Id.or]
      rw [hid.2, hret.2, Nat.or_self]
  · rw [← h.slot q i hi]
    unfold Mem.slot
    rw [hlive, (hslots q).1]
  · rw [← h.free q]
    unfold Mem.free
    rw [hlive, (hslots q).2]
  · rw [hlive] at hq
    rw [hnum, htable]
    exact h.listed hl q hq

/-- From now on the thread is in use. -/
theorem Joined.created (h : Joined c fuel a m t j [] k k') {log : List Event}
    (hrunning : Mungi.running log = m :: Mungi.running k'.log)
    (hout : handedOut log = (m, a) :: handedOut k'.log) :
    Joined c fuel a m t j [m] k { k' with log } := by
  refine ⟨h.origin, ?_, fun q hq => ?_, h.thread, h.self, h.newLive, h.live, h.number, h.slot,
    h.free, h.listed⟩
  · rw [h.running] at hrunning
    exact hrunning
  · by_cases hqm : q = m
    · exact Or.inl (List.mem_singleton.mpr hqm)
    · have hq' : k'.Belongs q := by
        rcases hq with hq | ⟨b, e, hb, hreach, hqe⟩
        · refine Or.inl ?_
          unfold InUse at hq ⊢
          rw [show ({ k' with log } : Mem).log = log from rfl, hout] at hq
          exact (List.mem_cons.mp hq).resolve_left hqm
        · exact Or.inr ⟨b, e, hb, hreach, hqe⟩
      exact Or.inr ((h.belongs q hq').resolve_left (by simp))

/-- What a creation in the APD `a` does that fails; it may have given the seat `j` of the task
`t` to `m` for a while. -/
structure Fumbled (c : ThreadConf) (fuel a m t j : ℕ) (k k' : Mem) : Prop where
  running : Mungi.running k'.log = Mungi.running k.log
  belongs : ∀ q, k'.Belongs q → k.Belongs q
  thread : ∀ q, k'.Belongs q → (k'.mthread.cell q).task = (k.mthread.cell q).task ∧
    (k'.mthread.cell q).l4id = (k.mthread.cell q).l4id ∧ k'.lthreadOf q = k.lthreadOf q
  live : ∀ t', k.task.live t' = true → k'.task.live t' = true
  number : ∀ t', k.task.live t' = true →
    (k'.task.cell t').task.task = (k.task.cell t').task.task
  slot : ∀ t' i, i ≠ 0 → k'.slot t' i = k.slot t' i ∨
    Origin c fuel k a m t j ∧ t' = t ∧ i = j ∧ k'.slot t' i = 0
  free : ∀ t', k'.free c t' = k.free c t'
  listed : k.Listed c → k'.Listed c

theorem GotThread.fumbled (hp : Placed (handedOut k.log) k) (h : GotThread c fuel k a m k') :
    Fumbled c fuel a m t j k k' where
  running := by rw [h.got.log]
  belongs := h.belongs
  thread := fun q hq => by
    obtain ⟨e, b, he⟩ := hp.linked (fun _ h => h) (h.belongs q hq)
    obtain ⟨-, h₁, h₂, -⟩ := h.got.thread q he.thread
    refine ⟨h₁, h₂, ?_⟩
    unfold Mem.lthreadOf
    rw [he.info, (he.kept h.got.kept).info, (h.got.entry e he.entry).2.2.2.2]
  live := fun t ht => (h.got.task t ht).1
  number := fun t ht => by rw [(h.got.task t ht).2]
  slot := fun t i hi => Or.inl (h.got.slot t hi)
  free := h.got.free
  listed := h.got.listed

/-- The thread is given up, and its seat is vacant again. -/
theorem Joined.undo (h : Joined c fuel a m t j [] k k')
    (hp : Placed (handedOut (k'.undoThread m).log) (k'.undoThread m)) :
    Fumbled c fuel a m t j k (k'.undoThread m) := by
  obtain ⟨hself, hnumber, -⟩ := h.self
  generalize hk'' : k'.undoThread m = k'' at hp ⊢
  have htask : k''.task = k'.task.modify t fun x =>
      { x with l4Threads := Function.update x.l4Threads j 0, threadFree := x.threadFree + 1 } := by
    rw [← hk'', ← hself, ← hnumber]
    rfl
  have hrest : k''.log = k'.log ∧ k''.apd = k'.apd ∧ k''.apdThread = k'.apdThread ∧
      k''.mthread.cell = k'.mthread.cell ∧ k''.l4Tasks = k'.l4Tasks := by
    rw [← hk'']
    exact ⟨rfl, rfl, rfl, rfl, rfl⟩
  obtain ⟨hlog, hapd, hentry, hthread, htable⟩ := hrest
  have hlive : k''.task.live = k'.task.live := by
    rw [htask]
    rfl
  have hnum : ∀ q, (k''.task.cell q).task = (k'.task.cell q).task := by
    intro q
    rw [htask]
    refine Heap.modify_field (g := L4Task.task) ?_ q
    exact fun _ => rfl
  have hbelongs : ∀ q, k''.Belongs q → k.Belongs q ∧ q ≠ m := by
    intro q hq
    have hq' : k'.Belongs q := by
      refine hq.of_pools (fun q hq => ?_) (fun b hb => ?_) ?_ fun e => ?_
      · rwa [hlog] at hq
      · rw [hapd] at hb ⊢
        exact Or.inl ⟨hb, rfl⟩
      · unfold poolNext
        rw [hentry]
      · rw [hentry]
    refine ⟨(h.belongs q hq').resolve_left (by simp), ?_⟩
    rintro rfl
    obtain ⟨e, b, he⟩ := hp.linked (fun _ h => h) hq
    have hdead := he.thread
    rw [← hk''] at hdead
    exact absurd (hdead.symm.trans Heap.live_free_self) nofun
  refine ⟨by rw [hlog, h.running]; rfl, fun q hq => (hbelongs q hq).1, fun q hq => ?_,
    fun q hq => by rw [hlive, h.live q hq], fun q hq => by rw [hnum, h.number q hq],
    fun q i hi => ?_, fun q => ?_, fun hl q hq => ?_⟩
  · obtain ⟨hq, hne⟩ := hbelongs q hq
    unfold Mem.lthreadOf
    rw [hthread, hentry]
    exact h.thread q hq hne
  · have hslot := h.slot q i hi
    unfold Mem.slot at hslot ⊢
    rw [hlive, htask, Heap.cell_modify]
    by_cases hqt : q = t ∧ i = j
    · obtain ⟨rfl, rfl⟩ := hqt
      refine Or.inr ⟨h.origin, rfl, rfl, ?_⟩
      rw [if_pos h.newLive, if_pos rfl]
      exact Function.update_self ..
    · rw [if_neg hqt] at hslot
      rw [← hslot]
      refine Or.inl ?_
      by_cases hq : q = t
      · rw [if_pos hq, ← hq]
        dsimp only
        rw [Function.update_of_ne fun hi => hqt ⟨hq, hi⟩]
      · rw [if_neg hq]
  · have hfree := h.free q
    unfold Mem.free at hfree ⊢
    rw [hlive, htask, Heap.cell_modify]
    by_cases hq : q = t
    · rw [if_pos hq, hq, h.newLive, if_pos rfl] at hfree
      rw [if_pos hq, hq, h.newLive, if_pos rfl, hfree]
      exact sub_add_cancel _ _
    · rw [if_neg hq] at hfree ⊢
      exact hfree
  · rw [hlive] at hq
    rw [hnum, htable]
    exact h.listed hl q hq

/-- What `l4_task_new` answers to a creation in the APD is the id of the task that was to be
started, with its version. -/
def Answered (c : ThreadConf) (k : Mem) (fuel apd parent : ℕ) (sup : ThreadSupply) : Prop :=
  ∀ r ∈ k.threadGetMthread c fuel apd parent sup, ∀ ret ∈ sup.started, ret.lthread = 0 ∧
    ret.task = (r.2.task.cell (r.2.mthread.cell r.1.new).task).task.task

instance (c : ThreadConf) (k : Mem) (fuel apd parent : ℕ) (sup : ThreadSupply) :
    Decidable (k.Answered c fuel apd parent sup) :=
  inferInstanceAs (Decidable (∀ r ∈ k.threadGetMthread c fuel apd parent sup,
    ∀ ret ∈ sup.started, ret.lthread = 0 ∧
      ret.task = (r.2.task.cell (r.2.mthread.cell r.1.new).task).task.task))

/-- What a creation in the APD `a` does to seats. -/
def Creates (c : ThreadConf) (fuel a : ℕ) (k k' : Mem) : Prop :=
  ∃ m t j, Fumbled c fuel a m t j k k' ∨ Joined c fuel a m t j [m] k k'

/-- The thread of a creation has its seat, and it is not in use yet. -/
structure Ready (c : ThreadConf) (fuel a m : ℕ) (sup : ThreadSupply) (k k' : Mem) : Prop where
  joined : ∃ t j, Joined c fuel a m t j [] k k' ∧
    ∀ ret ∈ sup.started, ret.lthread = 0 ∧ ret.task = (k'.task.cell t).task.task
  placed : Placed ((m, a) :: handedOut k.log) k'
  log : k'.log = k.log

/-- The thread that was found gets its stack and its seat. -/
theorem setup_ready {supplied size : ℕ} {newTask : Bool} {k₁ : Mem}
    (hp : Placed (handedOut k.log) k) (hgot : GotThread c fuel k a m k₁)
    (hp₁ : Placed ((m, a) :: handedOut k.log) k₁)
    (hans : ∀ ret ∈ sup.started, ret.lthread = 0 ∧
      ret.task = (k₁.task.cell (k₁.mthread.cell m).task).task.task)
    (h : (k₁.threadSetupStack m supplied size newTask sup).2.l4taskThreadAdd c m = some k') :
    Ready c fuel a m sup k k' := by
  have hs := still_threadSetupStack k₁ m supplied size newTask sup
  have hgot₂ := hgot.after hs.got (fun _ => hs.belongs) ⟨hs.threadTask m, hs.lthreadOf m⟩
  obtain ⟨-, e, he⟩ := (hp₁.frame hs.toFrame).home m a List.mem_cons_self
  obtain ⟨j, hseated, hj⟩ := l4taskThreadAdd_seated he h
  have hjoined := hseated.joined hp hgot₂ he hj
  rw [hs.threadTask] at hjoined
  refine ⟨⟨_, j, hjoined, fun ret hret => ?_⟩, setupAdd_placed hp₁ h, ?_⟩
  · rw [hseated.number, hs.task]
    exact hans ret hret
  · rw [hseated.log, hs.log, hgot.got.log]

theorem Ready.undo (h : Ready c fuel a m sup k k') : Creates c fuel a k (k'.undoThread m) := by
  obtain ⟨t, j, hjoined, -⟩ := h.joined
  refine ⟨m, t, j, Or.inl (hjoined.undo ?_)⟩
  rw [show (k'.undoThread m).log = k.log from h.log]
  exact undoThread_placed h.placed

theorem Ready.created (h : Ready c fuel a m sup k k') (log : List Event)
    (hrunning : Mungi.running log = m :: Mungi.running k'.log)
    (hout : handedOut log = (m, a) :: handedOut k'.log) :
    Creates c fuel a k { k' with log } ∧
      ∀ ret ∈ sup.started, Creates c fuel a k { k'.startTask m ret with log } := by
  obtain ⟨t, j, hjoined, hans⟩ := h.joined
  refine ⟨⟨m, t, j, Or.inr (hjoined.created hrunning hout)⟩, fun ret hret => ?_⟩
  exact ⟨m, t, j, Or.inr ((hjoined.start (hans ret hret)).created hrunning hout)⟩

/-- **The seat that `thread_create` takes.** -/
theorem threadCreate_creates {parent supplied size : ℕ} {r : ℕ × Option (L4Id × ℕ)}
    (hp : Placed (handedOut k.log) k) (ha : k.apd.live a = true)
    (hans : k.Answered c fuel a parent sup)
    (h : k.threadCreate c fuel a parent supplied size sup = some (r, k')) :
    Creates c fuel a k k' := by
  obtain ⟨⟨got, k₁⟩, hget, h⟩ := Option.bind_eq_some_iff.mp h
  have hgot := threadGetMthread_got hp ha hget
  have hcreated := threadGetMthread_created hp ha hget
  have hans := hans _ hget
  dsimp only at h hans
  by_cases hnew : got.new = 0
  · rw [if_pos hnew] at h
    obtain ⟨-, rfl⟩ := Prod.mk.inj (Option.some.inj h)
    exact ⟨got.new, 0, 0, Or.inl (hgot.fumbled hp)⟩
  · rw [if_neg hnew] at h
    obtain ⟨k₂, hadd, h⟩ := Option.map_eq_some_iff.mp h
    have hready := setup_ready hp hgot (hcreated.placed hnew) hans hadd
    obtain ⟨hplain, hstart⟩ := hready.created (.created got.new a :: k₂.log) rfl rfl
    split_ifs at h
    · cases hstarted : sup.started with
      | none =>
        rw [hstarted] at h
        rw [← (Prod.mk.inj h).2]
        exact hready.undo
      | some ret =>
        rw [hstarted] at h
        rw [← (Prod.mk.inj h).2]
        exact hstart ret hstarted
    · rw [← (Prod.mk.inj h).2]
      exact hplain
    · rw [← (Prod.mk.inj h).2]
      exact hready.undo
    · rw [← (Prod.mk.inj h).2]
      exact hplain

/-- **The seat that `thread_pdx_create` takes.** -/
theorem threadPdxCreate_creates {caller r : ℕ} (hp : Placed (handedOut k.log) k)
    (ha : k.apd.live a = true) (hans : k.Answered c fuel a caller sup)
    (h : k.threadPdxCreate c fuel a caller sup = some (r, k')) : Creates c fuel a k k' := by
  obtain ⟨⟨got, k₁⟩, hget, h⟩ := Option.bind_eq_some_iff.mp h
  have hgot := threadGetMthread_got hp ha hget
  have hcreated := threadGetMthread_created hp ha hget
  have hans := hans _ hget
  dsimp only at h hans
  by_cases hnew : got.new = 0
  · rw [if_pos hnew] at h
    obtain ⟨-, rfl⟩ := Prod.mk.inj (Option.some.inj h)
    exact ⟨got.new, 0, 0, Or.inl (hgot.fumbled hp)⟩
  · rw [if_neg hnew] at h
    obtain ⟨k₂, hadd, h⟩ := Option.map_eq_some_iff.mp h
    have hfields : ∀ q,
        ((k₁.modThread got.new fun t => { t with PDX := caller }).mthread.cell q).task
          = (k₁.mthread.cell q).task ∧
        ((k₁.modThread got.new fun t => { t with PDX := caller }).mthread.cell q).l4id
          = (k₁.mthread.cell q).l4id ∧
        ((k₁.modThread got.new fun t => { t with PDX := caller }).mthread.cell q).apdThreadinfo
          = (k₁.mthread.cell q).apdThreadinfo := by
      intro q
      dsimp only
      refine ⟨Heap.modify_field (g := Mthread.task) ?_ q,
        Heap.modify_field (g := Mthread.l4id) ?_ q,
        Heap.modify_field (g := Mthread.apdThreadinfo) ?_ q⟩
      all_goals exact fun _ => rfl
    have hcaller : Got c k₁ (k₁.modThread got.new fun t => { t with PDX := caller }) :=
      ⟨rfl, fun q hq => ⟨hq, hfields q⟩, fun e he => ⟨he, rfl, rfl, rfl, rfl⟩,
        fun t ht => ⟨ht, rfl⟩, fun t ht => Or.inl ht, fun hl => hl⟩
    have hnumber : (k₁.modThread got.new fun t => { t with PDX := caller }).lthreadOf got.new
        = k₁.lthreadOf got.new := by
      unfold Mem.lthreadOf
      rw [(hfields _).2.2]
    have hgot₁ := hgot.after hcaller (fun _ hq => hq) ⟨(hfields _).1, hnumber⟩
    have hp₁ : Placed ((got.new, a) :: handedOut k.log)
        (k₁.modThread got.new fun t => { t with PDX := caller }) :=
      (hcreated.placed hnew).kept rfl (fun _ _ => rfl) (fun _ _ => rfl) hcaller.kept
    rw [← (hfields got.new).1] at hans
    have hready := setup_ready hp hgot₁ hp₁ hans hadd
    have hdone := fun id => hready.created
      (.called got.new caller id :: .created got.new a :: k₂.log) rfl rfl
    split_ifs at h
    · cases hstarted : sup.started with
      | none =>
        rw [hstarted] at h
        rw [← (Prod.mk.inj h).2]
        exact hready.undo
      | some ret =>
        rw [hstarted] at h
        rw [← (Prod.mk.inj h).2]
        exact (hdone _).2 ret hstarted
    · rw [← (Prod.mk.inj h).2]
      exact hready.undo
    · rw [← (Prod.mk.inj h).2]
      exact (hdone _).1

end Mem

/-! ### Calls -/

/-- The APD of a creation, with the fuel for its searches. -/
def ThreadOp.createsIn : ThreadOp O → Option (ℕ × ℕ)
  | .threadCreate fuel apd _ _ _ _ => some (fuel, apd)
  | .threadPdxCreate fuel apd _ _ => some (fuel, apd)
  | _ => none

/-- The call is rightful, the threads that are ended or return are running, and those that are
reaped are not.  No thread dies of a fault. -/
def Mem.Regular (c : ThreadConf) (k : Mem) (op : ThreadOp O) : Prop :=
  k.Rightful c op ∧ match op with
    | .threadCreate fuel apd parent _ _ sup => k.Answered c fuel apd parent sup
    | .threadPdxCreate fuel apd caller sup => k.Answered c fuel apd caller sup
    | .sysThreadReturn _ _ _ thread => thread ∈ running k.log
    | .threadDelete fuel _ tid _ caller => ∀ m ∈ k.deleteTarget fuel tid caller, m ∈ running k.log
    | .threadWait fuel _ tid caller => ∀ m ∈ k.waitTarget fuel tid caller, m ∉ running k.log
    | .threadDie _ _ _ => False
    | .excptReg _ _ | .apdFromTemplate _ _ _ | .apdFindOrCreate _ _ _ _ _
    | .apdPdxMerge _ _ _ _ _ _ | .apdClose _ _ => True

instance (c : ThreadConf) (k : Mem) : ∀ op : ThreadOp O, Decidable (k.Regular c op)
  | .threadCreate .. | .threadPdxCreate .. | .sysThreadReturn .. | .threadDelete ..
  | .threadWait .. | .threadDie .. | .excptReg .. | .apdFromTemplate .. | .apdFindOrCreate ..
  | .apdPdxMerge .. | .apdClose .. => by
    unfold Mem.Regular
    infer_instance

/-- The APD of a creation is in memory. -/
theorem Mem.Regular.live {op : ThreadOp O} (h : k.Regular c op) {p : ℕ × ℕ}
    (hp : p ∈ op.createsIn) : k.apd.live p.2 = true := by
  cases op with
  | threadCreate | threadPdxCreate =>
    obtain rfl := Option.some.inj hp
    exact h.1
  | _ => cases hp

/-- **What one call does to seats.** -/
theorem Mem.Regular.seats {op : ThreadOp O} (hr : k.Regular c op) (h : Owned EnoughUsers k)
    (hs : threadStep c k op = some k') : Calm c k k' ∨ Departed c k k' ∨
      ∃ p ∈ op.createsIn, Creates c p.1 p.2 k k' := by
  have ht := enoughUsers_tally
  obtain ⟨hr, hseats⟩ := hr
  cases op with
  | threadCreate fuel apd parent supplied size sup =>
    obtain ⟨⟨r, k₁⟩, hc, rfl⟩ := Option.map_eq_some_iff.mp hs
    exact Or.inr (Or.inr ⟨_, rfl, threadCreate_creates h.placed hr hseats hc⟩)
  | threadPdxCreate fuel apd caller sup =>
    obtain ⟨⟨r, k₁⟩, hc, rfl⟩ := Option.map_eq_some_iff.mp hs
    exact Or.inr (Or.inr ⟨_, rfl, threadPdxCreate_creates h.placed hr hseats hc⟩)
  | sysThreadReturn fuel item status thread =>
    exact (sysThreadReturn_seats ht h hseats hs).imp_right Or.inl
  | threadDelete fuel item tid status caller =>
    obtain ⟨⟨goes, k₁⟩, hd, rfl⟩ := Option.map_eq_some_iff.mp hs
    exact (threadDelete_seats ht h hseats hd).imp_right Or.inl
  | threadWait fuel item tid caller =>
    obtain ⟨⟨ret, k₁⟩, hw, rfl⟩ := Option.map_eq_some_iff.mp hs
    exact Or.inl (threadWait_calm ht h (fun m hm => ⟨hr m hm, hseats m hm⟩) hw)
  | threadDie fuel item thread => exact hseats.elim
  | excptReg thread handler =>
    obtain rfl := Option.some.inj hs
    exact Or.inl (excptReg_calm k thread handler)
  | apdFromTemplate os pd sup =>
    obtain ⟨⟨a, k₁⟩, hm, rfl⟩ := Option.map_eq_some_iff.mp hs
    exact Or.inl (apdFromTemplate_calm hm)
  | apdFindOrCreate os fuel addr pd sup =>
    obtain ⟨⟨a, k₁⟩, hm, rfl⟩ := Option.map_eq_some_iff.mp hs
    exact Or.inl (apdFindOrCreate_calm hm)
  | apdPdxMerge fuel now now' orig clist sup =>
    obtain ⟨⟨r, k₁⟩, hm, rfl⟩ := Option.map_eq_some_iff.mp hs
    exact Or.inl (apdPdxMerge_calm ht h (fun k₂ hlook hne h₂ => h₂.copied hr hlook hm hne) hm)
  | apdClose fuel apd =>
    obtain ⟨⟨freed, k₁⟩, hc, rfl⟩ := Option.map_eq_some_iff.mp hs
    exact Or.inl (close_calm ht h hr hc)

end Mungi
