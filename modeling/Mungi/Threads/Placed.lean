import Mungi.Threads.Steps

/-!
# Which thread is where

A thread is in use, or waits in the pool of one APD for its next use, with a task of that APD
either way.  The functions that move threads are shown to keep it so.

## Main definitions

* `Mem.Linked` — a thread, its pool entry and its task belong together and to an APD.
* `Placed` — the threads in use and those in the pools are linked, and kept apart.

## Main results

* `Placed.release` — a thread goes back to the pool.
* `Placed.take` — a thread is taken from the pool.
* `Placed.freed` — an APD without threads in use is freed.
-/

namespace Mungi

open Chain

variable {c : ThreadConf}

namespace Mem

variable {k k' : Mem} {m e a : ℕ}

/-- The thread `m`, its pool entry `e` and its task belong together, and to the APD `a`. -/
structure Linked (k : Mem) (m e a : ℕ) : Prop where
  ne : m ≠ 0
  entryNe : e ≠ 0
  thread : k.mthread.live m = true
  info : (k.mthread.cell m).apdThreadinfo = e
  entry : k.apdThread.live e = true
  mthread : (k.apdThread.cell e).mthread = m
  task : (k.apdThread.cell e).task = (k.mthread.cell m).task
  taskLive : k.task.live (k.mthread.cell m).task = true
  apd : k.apdOf m = a

/-- What is in use stays as it is, as far as the links go. -/
structure Kept (k k' : Mem) : Prop where
  thread : ∀ m, k.mthread.live m = true → k'.mthread.live m = true ∧
    (k'.mthread.cell m).task = (k.mthread.cell m).task ∧
    (k'.mthread.cell m).apdThreadinfo = (k.mthread.cell m).apdThreadinfo
  entry : ∀ e, k.apdThread.live e = true → k'.apdThread.live e = true ∧
    (k'.apdThread.cell e).task = (k.apdThread.cell e).task ∧
    (k'.apdThread.cell e).mthread = (k.apdThread.cell e).mthread ∧
    (k'.apdThread.cell e).next = (k.apdThread.cell e).next
  task : ∀ t, k.task.live t = true → k'.task.live t = true ∧
    (k'.task.cell t).apd = (k.task.cell t).apd ∧ (k'.task.cell t).next = (k.task.cell t).next

theorem SameThreads.kept (h : SameThreads k k') : Kept k k' where
  thread := fun m hm => ⟨by rw [h.threadLive, hm], h.threadTask m, h.threadInfo m⟩
  entry := fun e he =>
    ⟨by rw [h.entryLive, he], h.entryTask e, h.entryThread e, h.entryNext e⟩
  task := fun t ht => ⟨by rw [h.taskLive, ht], h.taskApd t, h.taskNext t⟩

theorem Kept.of_eq (htask : k'.task = k.task) (hthread : k'.mthread = k.mthread)
    (hentry : k'.apdThread = k.apdThread) : Kept k k' :=
  (SameThreads.of_eq htask hthread hentry).kept

theorem Kept.trans {k'' : Mem} (h : Kept k k') (h' : Kept k' k'') : Kept k k'' where
  thread := fun m hm => by
    obtain ⟨h₁, h₂, h₃⟩ := h.thread m hm
    obtain ⟨h₁', h₂', h₃'⟩ := h'.thread m h₁
    exact ⟨h₁', h₂'.trans h₂, h₃'.trans h₃⟩
  entry := fun e he => by
    obtain ⟨h₁, h₂, h₃, h₄⟩ := h.entry e he
    obtain ⟨h₁', h₂', h₃', h₄'⟩ := h'.entry e h₁
    exact ⟨h₁', h₂'.trans h₂, h₃'.trans h₃, h₄'.trans h₄⟩
  task := fun t ht => by
    obtain ⟨h₁, h₂, h₃⟩ := h.task t ht
    obtain ⟨h₁', h₂', h₃'⟩ := h'.task t h₁
    exact ⟨h₁', h₂'.trans h₂, h₃'.trans h₃⟩

/-- Other fields of a thread. -/
theorem kept_modThread {p : ℕ} {f : Mthread → Mthread} (hthread : k'.mthread = k.mthread.modify p f)
    (hf : ∀ t, (f t).task = t.task ∧ (f t).apdThreadinfo = t.apdThreadinfo)
    (htask : k'.task = k.task) (hentry : k'.apdThread = k.apdThread) : Kept k k' where
  thread := fun m hm => by
    rw [hthread]
    exact ⟨hm, Heap.modify_field (fun t => (hf t).1) m, Heap.modify_field (fun t => (hf t).2) m⟩
  entry := fun e he => by
    rw [hentry]
    exact ⟨he, rfl, rfl, rfl⟩
  task := fun t ht => by
    rw [htask]
    exact ⟨ht, rfl, rfl⟩

/-- What is done to a thread structure that was not in use. -/
theorem Kept.thread_away (h : Kept k k') {k'' : Mem} {p : ℕ} (hp : k.mthread.live p = false)
    (hlive : ∀ m, m ≠ p → k''.mthread.live m = k'.mthread.live m)
    (hcell : ∀ m, m ≠ p → k''.mthread.cell m = k'.mthread.cell m) (htask : k''.task = k'.task)
    (hentry : k''.apdThread = k'.apdThread) : Kept k k'' where
  thread := fun m hm => by
    have hne : m ≠ p := by
      rintro rfl
      rw [hp] at hm
      cases hm
    rw [hlive m hne, hcell m hne]
    exact h.thread m hm
  entry := by
    rw [hentry]
    exact h.entry
  task := by
    rw [htask]
    exact h.task

/-- What is done to a task that was not in use. -/
theorem Kept.task_away (h : Kept k k') {k'' : Mem} {p : ℕ} (hp : k.task.live p = false)
    (hlive : ∀ t, t ≠ p → k''.task.live t = k'.task.live t)
    (hcell : ∀ t, t ≠ p → k''.task.cell t = k'.task.cell t) (hthread : k''.mthread = k'.mthread)
    (hentry : k''.apdThread = k'.apdThread) : Kept k k'' where
  thread := by
    rw [hthread]
    exact h.thread
  entry := by
    rw [hentry]
    exact h.entry
  task := fun t ht => by
    have hne : t ≠ p := by
      rintro rfl
      rw [hp] at ht
      cases ht
    rw [hlive t hne, hcell t hne]
    exact h.task t ht

/-- A new pool entry. -/
theorem Kept.allocEntry (h : Kept k k') {apdThread : Heap ApdThread} {t : ApdThread}
    (halloc : k'.apdThread.alloc e t = some apdThread) : Kept k { k' with apdThread } where
  thread := h.thread
  entry := fun p hp => by
    obtain ⟨hp', h₁, h₂, h₃⟩ := h.entry p hp
    obtain ⟨-, hlive, hcell⟩ := Heap.alloc_live halloc hp'
    dsimp only
    rw [hcell]
    exact ⟨hlive, h₁, h₂, h₃⟩
  task := h.task

theorem Linked.kept (h : k.Linked m e a) (hk : Kept k k') : k'.Linked m e a := by
  obtain ⟨hm, htask, hinfo⟩ := hk.thread m h.thread
  obtain ⟨he, hetask, hmthread, -⟩ := hk.entry e h.entry
  obtain ⟨ht, hapd, -⟩ := hk.task _ h.taskLive
  refine ⟨h.ne, h.entryNe, hm, hinfo.trans h.info, he, hmthread.trans h.mthread, ?_, ?_, ?_⟩
  · rw [hetask, htask, h.task]
  · rw [htask, ht]
  · have hof := h.apd
    unfold apdOf at hof ⊢
    rw [htask, hapd, hof]

/-- Another next entry. -/
theorem Linked.setNext (h : k.Linked m e a) (p next : ℕ) :
    (k.modApdThread p fun e => { e with next }).Linked m e a := by
  have hfield : ∀ {β : Type} (g : ApdThread → β), (∀ e : ApdThread, g { e with next } = g e) →
      ∀ q, g ((k.modApdThread p fun e => { e with next }).apdThread.cell q)
        = g (k.apdThread.cell q) := fun g hg q => Heap.modify_field hg q
  refine ⟨h.ne, h.entryNe, h.thread, h.info, h.entry, ?_, ?_, h.taskLive, h.apd⟩
  · rw [hfield ApdThread.mthread fun _ => rfl, h.mthread]
  · rw [hfield ApdThread.task fun _ => rfl]
    exact h.task

/-- A pool entry has one thread, and a thread has one entry and one APD. -/
theorem Linked.unique {e' b : ℕ} (h : k.Linked m e a) (h' : k.Linked m e' b) : e = e' ∧ a = b :=
  ⟨h.info.symm.trans h'.info, h.apd.symm.trans h'.apd⟩

end Mem

open Mem

/-- The threads in use, each with its APD, and those in the pools are where they should be. -/
structure Placed (busy : List (ℕ × ℕ)) (k : Mem) : Prop where
  nodup : (busy.map Prod.fst).Nodup
  home : ∀ m a, (m, a) ∈ busy → k.apd.live a = true ∧ ∃ e, k.Linked m e a
  pool : ∀ a, k.apd.live a = true → ∃ l, IsChain k.poolNext (k.apd.cell a).threads l ∧
    ∀ e ∈ l, k.Linked (k.apdThread.cell e).mthread e a ∧
      (k.apdThread.cell e).mthread ∉ busy.map Prod.fst
  tasks : ∀ a, k.apd.live a = true → ∃ l, IsChain k.taskNext (k.apd.cell a).tasks l ∧
    ∀ t ∈ l, k.task.live t = true ∧ (k.task.cell t).apd = a

namespace Placed

variable {k k' : Mem} {busy busy' : List (ℕ × ℕ)} {m e a b : ℕ}

theorem perm (h : Placed busy k) (hp : busy.Perm busy') : Placed busy' k where
  nodup := ((hp.map Prod.fst).nodup_iff).mp h.nodup
  home := fun m a hm => h.home m a (hp.mem_iff.mpr hm)
  pool := fun a ha => by
    obtain ⟨l, hl, hlinked⟩ := h.pool a ha
    exact ⟨l, hl, fun e he => ⟨(hlinked e he).1, fun hm =>
      (hlinked e he).2 ((hp.map Prod.fst).mem_iff.mpr hm)⟩⟩
  tasks := h.tasks

/-- The APDs keep their pools, and what is in use stays. -/
theorem kept_tasks (h : Placed busy k) (hlive : k'.apd.live = k.apd.live)
    (hthreads : ∀ a, k.apd.live a = true → (k'.apd.cell a).threads = (k.apd.cell a).threads)
    (htasks : ∀ a, k.apd.live a = true → ∃ l, IsChain k'.taskNext (k'.apd.cell a).tasks l ∧
      ∀ t ∈ l, k'.task.live t = true ∧ (k'.task.cell t).apd = a)
    (hk : Kept k k') : Placed busy k' := by
  refine ⟨h.nodup, fun m a hm => ?_, fun a ha => ?_, fun a ha => htasks a (hlive ▸ ha)⟩
  · obtain ⟨ha, e, he⟩ := h.home m a hm
    exact ⟨hlive ▸ ha, e, he.kept hk⟩
  · rw [hlive] at ha
    obtain ⟨l, hl, hpool⟩ := h.pool a ha
    refine ⟨l, ?_, fun e he => ?_⟩
    · rw [hthreads a ha]
      exact hl.congr fun e he => (hk.entry e (hpool e he).1.entry).2.2.2
    · rw [(hk.entry e (hpool e he).1.entry).2.2.1]
      exact ⟨(hpool e he).1.kept hk, (hpool e he).2⟩

/-- The APDs keep their lists, and what is in use stays. -/
theorem kept (h : Placed busy k) (hlive : k'.apd.live = k.apd.live)
    (hthreads : ∀ a, k.apd.live a = true → (k'.apd.cell a).threads = (k.apd.cell a).threads)
    (htasks : ∀ a, k.apd.live a = true → (k'.apd.cell a).tasks = (k.apd.cell a).tasks)
    (hk : Kept k k') : Placed busy k' := by
  refine h.kept_tasks hlive hthreads (fun a ha => ?_) hk
  obtain ⟨l, hl, htask⟩ := h.tasks a ha
  refine ⟨l, ?_, fun t ht => ?_⟩
  · rw [htasks a ha]
    exact hl.congr fun t ht => (hk.task t (htask t ht).1).2.2
  · obtain ⟨hlive', hapd, -⟩ := hk.task t (htask t ht).1
    exact ⟨hlive', hapd.trans (htask t ht).2⟩

/-- A thread is added that was not in use. -/
theorem add (h : Placed busy k) (hlive : k'.apd.live = k.apd.live)
    (hthreads : ∀ a, k.apd.live a = true → (k'.apd.cell a).threads = (k.apd.cell a).threads)
    (htasks : ∀ a, k.apd.live a = true → ∃ l, IsChain k'.taskNext (k'.apd.cell a).tasks l ∧
      ∀ t ∈ l, k'.task.live t = true ∧ (k'.task.cell t).apd = a)
    (hk : Kept k k') (hm : k.mthread.live m = false) (ha : k.apd.live a = true)
    (hlinked : k'.Linked m e a) : Placed ((m, a) :: busy) k' := by
  have hk' := h.kept_tasks hlive hthreads htasks hk
  have hnew : m ∉ busy.map Prod.fst := by
    intro hmem
    obtain ⟨⟨m', b⟩, hb, rfl⟩ := List.mem_map.mp hmem
    obtain ⟨-, e', he'⟩ := h.home m' b hb
    rw [he'.thread] at hm
    cases hm
  refine ⟨List.nodup_cons.mpr ⟨hnew, h.nodup⟩, fun m' b hm' => ?_, fun b hb => ?_, hk'.tasks⟩
  · rcases List.mem_cons.mp hm' with heq | hm'
    · obtain ⟨rfl, rfl⟩ := Prod.mk.inj heq
      exact ⟨hlive ▸ ha, e, hlinked⟩
    · exact hk'.home m' b hm'
  · have hb' : k.apd.live b = true := hlive ▸ hb
    obtain ⟨l, hl, hpool⟩ := h.pool b hb'
    obtain ⟨l', hl', hpool'⟩ := hk'.pool b hb
    refine ⟨l', hl', fun e' he' => ⟨(hpool' e' he').1, fun hmem => ?_⟩⟩
    rcases List.mem_cons.mp hmem with heq | hmem
    · -- the pool is the old one, whose threads were in use
      have hsame : IsChain k'.poolNext (k'.apd.cell b).threads l := by
        rw [hthreads b hb']
        exact hl.congr fun e he => (hk.entry e (hpool e he).1.entry).2.2.2
      have he := hpool e' (hsame.unique hl' ▸ he')
      rw [(hk.entry e' he.1.entry).2.2.1] at heq
      have hdead := he.1.thread
      rw [heq, hm] at hdead
      cases hdead
    · exact (hpool' e' he').2 hmem

/-- A thread is given back to the allocator. -/
theorem drop (h : Placed ((m, a) :: busy) k) :
    Placed busy { k with mthread := k.mthread.free m } := by
  obtain ⟨hm, hbusy⟩ := List.nodup_cons.mp h.nodup
  have hlinked : ∀ m' e b, k.Linked m' e b → m' ≠ m →
      ({ k with mthread := k.mthread.free m } : Mem).Linked m' e b := fun m' e b h' hne =>
    ⟨h'.ne, h'.entryNe, (Heap.live_free_of_ne hne).trans h'.thread, h'.info, h'.entry, h'.mthread,
      h'.task, h'.taskLive, h'.apd⟩
  refine ⟨hbusy, fun m' b hm' => ?_, fun b hb => ?_, h.tasks⟩
  · obtain ⟨hb, e, he⟩ := h.home m' b (List.mem_cons_of_mem _ hm')
    refine ⟨hb, e, hlinked m' e b he ?_⟩
    rintro rfl
    exact hm (List.mem_map.mpr ⟨(m', b), hm', rfl⟩)
  · obtain ⟨l, hl, hpool⟩ := h.pool b hb
    refine ⟨l, hl, fun e he => ?_⟩
    obtain ⟨he', hnot⟩ := hpool e he
    refine ⟨hlinked _ e b he' fun heq => hnot ?_, fun hmem => hnot (List.mem_cons_of_mem _ hmem)⟩
    rw [heq]
    exact List.mem_cons_self

theorem frame (h : Placed busy k) (hf : Frame k k') : Placed busy k' := by
  refine h.kept ?_ (fun a _ => ?_) (fun a _ => ?_) hf.toSameThreads.kept
  all_goals rw [hf.apd]

/-- The log has no say. -/
theorem withLog (h : Placed busy k) (log : List Event) : Placed busy { k with log } :=
  h.kept rfl (fun _ _ => rfl) (fun _ _ => rfl) (.of_eq rfl rfl rfl)

/-- Other fields of an APD. -/
theorem modApd (h : Placed busy k) (p : ℕ) {f : Apd → Apd}
    (hf : ∀ a, (f a).threads = a.threads ∧ (f a).tasks = a.tasks) : Placed busy (k.modApd p f) :=
  h.kept rfl (fun _ _ => Heap.modify_field (fun a => (hf a).1) _)
    (fun _ _ => Heap.modify_field (fun a => (hf a).2) _) (.of_eq rfl rfl rfl)

/-! ### The pool -/

/-- No entry of a pool belongs to a thread in use. -/
theorem not_mem_pool (h : Placed busy k) (hm : (m, a) ∈ busy) (he : k.Linked m e a)
    (hb : k.apd.live b = true) {l : List ℕ} (hl : IsChain k.poolNext (k.apd.cell b).threads l) :
    e ∉ l := by
  intro hmem
  obtain ⟨l', hl', hpool⟩ := h.pool b hb
  rw [hl.unique hl'] at hmem
  refine (hpool e hmem).2 ?_
  rw [he.mthread]
  exact List.mem_map_of_mem (f := Prod.fst) hm

/-- **A thread goes back to the pool** of its APD. -/
theorem release (h : Placed ((m, a) :: busy) k) {f : Apd → Apd}
    (hf : ∀ x, (f x).threads = (k.mthread.cell m).apdThreadinfo ∧ (f x).tasks = x.tasks) :
    Placed busy ((k.modApd a f).modApdThread (k.mthread.cell m).apdThreadinfo
      fun e => { e with next := (k.apd.cell a).threads }) := by
  obtain ⟨ha, e, he⟩ := h.home m a List.mem_cons_self
  obtain ⟨hm, hbusy⟩ := List.nodup_cons.mp h.nodup
  rw [he.info] at hf ⊢
  generalize hk' : (k.modApd a f).modApdThread e
    (fun e => { e with next := (k.apd.cell a).threads }) = k'
  -- the links of threads stay, and so do those of the other entries
  have hlinked : ∀ m' e' b, k.Linked m' e' b → k'.Linked m' e' b := fun m' e' b h' => by
    rw [← hk']
    exact Linked.setNext (k := k.modApd a f) (h'.kept (.of_eq rfl rfl rfl)) e _
  have hapd : k'.apd = k.apd.modify a f := by rw [← hk']
  have htask : k'.task = k.task := by rw [← hk']
  have hentry : k'.apdThread
      = k.apdThread.modify e fun e => { e with next := (k.apd.cell a).threads } := by rw [← hk']
  have hmthread : ∀ e', (k'.apdThread.cell e').mthread = (k.apdThread.cell e').mthread := by
    intro e'
    rw [hentry]
    refine Heap.modify_field (g := ApdThread.mthread) ?_ e'
    exact fun _ => rfl
  have hnext : ∀ e', e' ≠ e → k'.poolNext e' = k.poolNext e' := by
    intro e' hne
    unfold poolNext
    rw [hentry, Heap.cell_modify_of_ne hne]
  have hhead : k'.poolNext e = (k.apd.cell a).threads := by
    unfold poolNext
    rw [hentry, Heap.cell_modify_self]
  refine ⟨hbusy, fun m' b hm' => ?_, fun b hb => ?_, fun b hb => ?_⟩
  · obtain ⟨hb, e', he'⟩ := h.home m' b (List.mem_cons_of_mem _ hm')
    exact ⟨by rw [hapd]; exact hb, e', hlinked m' e' b he'⟩
  · rw [hapd] at hb ⊢
    obtain ⟨l, hl, hpool⟩ := h.pool b hb
    have hnot := h.not_mem_pool List.mem_cons_self he hb hl
    have hl' : IsChain k'.poolNext (k.apd.cell b).threads l :=
      hl.congr fun e' he' => hnext e' fun heq => hnot (heq ▸ he')
    have hrest : ∀ e' ∈ l, k'.Linked (k.apdThread.cell e').mthread e' b ∧
        (k.apdThread.cell e').mthread ∉ busy.map Prod.fst := fun e' he' =>
      ⟨hlinked _ _ _ (hpool e' he').1, fun hm' => (hpool e' he').2 (List.mem_cons_of_mem _ hm')⟩
    by_cases hba : b = a
    · subst hba
      refine ⟨e :: l, ⟨?_, he.entryNe, ?_⟩, fun e' he' => ?_⟩
      · rw [Heap.cell_modify_self, (hf _).1]
      · rw [hhead]
        exact hl'
      · rw [hmthread]
        rcases List.mem_cons.mp he' with rfl | he'
        · rw [he.mthread]
          exact ⟨hlinked _ _ _ he, hm⟩
        · exact hrest e' he'
    · refine ⟨l, ?_, fun e' he' => ?_⟩
      · rw [Heap.cell_modify_of_ne hba]
        exact hl'
      · rw [hmthread]
        exact hrest e' he'
  · rw [hapd] at hb ⊢
    obtain ⟨l, hl, ht⟩ := h.tasks b hb
    refine ⟨l, ?_, ?_⟩
    · rw [Heap.modify_field (g := Apd.tasks) fun x => (hf x).2]
      exact hl.congr fun t _ => by unfold taskNext; rw [htask]
    · rw [htask]
      exact ht

/-- **A thread is taken from the pool.** -/
theorem take (h : Placed busy k) (ha : k.apd.live a = true) (hne : (k.apd.cell a).threads ≠ 0)
    (parent : ℕ) : Placed (((k.takePooled a parent).1, a) :: busy) (k.takePooled a parent).2 := by
  obtain ⟨l, hl, hpool⟩ := h.pool a ha
  cases l with
  | nil => exact absurd hl hne
  | cons e l =>
    obtain ⟨hhead, -, htail⟩ := id hl
    obtain ⟨he, hnew⟩ := hpool e List.mem_cons_self
    have hnodup := List.nodup_cons.mp hl.nodup
    generalize hnew' : (k.takePooled a parent).1 = new
    generalize hk' : (k.takePooled a parent).2 = k'
    have hfst : new = (k.apdThread.cell e).mthread := by
      rw [← hhead, ← hnew']
      rfl
    have hapd : k'.apd = k.apd.modify a fun x => { x with threads := k.poolNext e } := by
      rw [← hhead, ← hk']
      rfl
    have htasks : ∀ b, (k'.apd.cell b).tasks = (k.apd.cell b).tasks := by
      intro b
      rw [hapd]
      refine Heap.modify_field (g := Apd.tasks) ?_ b
      exact fun _ => rfl
    have hthread : k'.mthread = k.mthread.modify new fun t =>
        { t with
          parent
          children := 0
          state := .ok
          lasterror := 0
          waiting := 0
          PDX := 0
          kill := 0
          detached := false } := by
      rw [← hk', ← hnew']
      rfl
    have hk : Kept k k' := by
      refine kept_modThread hthread (fun _ => ⟨rfl, rfl⟩) ?_ ?_
      all_goals rw [← hk']; rfl
    have hentry : ∀ e', (k'.apdThread.cell e').mthread = (k.apdThread.cell e').mthread := by
      intro e'
      rw [← hk']
      rfl
    rw [← hfst] at he hnew
    -- an entry of another thread
    have hother : ∀ b e', k.Linked (k.apdThread.cell e').mthread e' b → e' ≠ e →
        (k.apdThread.cell e').mthread ∉ busy.map Prod.fst →
        (k'.apdThread.cell e').mthread ∉ ((new, a) :: busy).map Prod.fst := by
      intro b e' he' hee' hbusy hmem
      rw [hentry] at hmem
      rcases List.mem_cons.mp hmem with heq | hmem
      · rw [heq] at he'
        exact hee' (he'.unique he).1
      · exact hbusy hmem
    refine ⟨List.nodup_cons.mpr ⟨hnew, h.nodup⟩, fun m' b hm' => ?_, fun b hb => ?_, fun b hb => ?_⟩
    · rw [hapd]
      rcases List.mem_cons.mp hm' with heq | hm'
      · obtain ⟨rfl, rfl⟩ := Prod.mk.inj heq
        exact ⟨ha, e, he.kept hk⟩
      · obtain ⟨hb, e', he'⟩ := h.home m' b hm'
        exact ⟨hb, e', he'.kept hk⟩
    · rw [hapd] at hb ⊢
      by_cases hba : b = a
      · subst hba
        refine ⟨l, ?_, fun e' he' => ?_⟩
        · rw [Heap.cell_modify_self]
          exact htail.congr fun e' he' =>
            (hk.entry e' (hpool e' (List.mem_cons_of_mem _ he')).1.entry).2.2.2
        · obtain ⟨he'', hbusy⟩ := hpool e' (List.mem_cons_of_mem _ he')
          have hee' : e' ≠ e := by
            rintro rfl
            exact hnodup.1 he'
          refine ⟨?_, hother b e' he'' hee' hbusy⟩
          rw [hentry]
          exact he''.kept hk
      · obtain ⟨l', hl', hpool'⟩ := h.pool b hb
        refine ⟨l', ?_, fun e' he' => ?_⟩
        · rw [Heap.cell_modify_of_ne hba]
          exact hl'.congr fun e' he' => (hk.entry e' (hpool' e' he').1.entry).2.2.2
        · obtain ⟨he'', hbusy⟩ := hpool' e' he'
          have hee' : e' ≠ e := by
            rintro rfl
            rw [← hfst] at he''
            exact hba (he''.unique he).2
          refine ⟨?_, hother b e' he'' hee' hbusy⟩
          rw [hentry]
          exact he''.kept hk
    · rw [hapd] at hb
      obtain ⟨l', hl', ht⟩ := h.tasks b hb
      refine ⟨l', ?_, fun t htl => ?_⟩
      · rw [htasks]
        exact hl'.congr fun t htl => (hk.task t (ht t htl).1).2.2
      · obtain ⟨hlive, hof, -⟩ := hk.task t (ht t htl).1
        exact ⟨hlive, hof.trans (ht t htl).2⟩

end Placed

end Mungi
