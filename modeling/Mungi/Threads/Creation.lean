import Mungi.Threads.Apart
import Mungi.Threads.Placed

/-!
# Creating threads

A creation counts a user of the APD, and then takes a thread from the pool or makes one, which
may fail at several points.

## Main results

* `threadGetMthread_created` — the thread that `thread_get_mthread` finds is the APD's.
* `threadCreate_created`, `threadPdxCreate_created` — **what a creation does.**
-/

namespace Mungi

open Chain

variable {c : ThreadConf} {k k' k'' : Mem} {fuel a m t : ℕ} {sup : ThreadSupply}

namespace Mem

/-! ### A new task -/

/-- What `task_new` does: what was in use stays, and the new task was not in use. -/
structure TaskMade (k : Mem) (t : ℕ) (k' : Mem) : Prop where
  kept : Kept k k'
  apd : k'.apd = k.apd
  free : t ≠ 0 → k.task.live t = false
  live : t ≠ 0 → k'.task.live t = true

theorem taskNew_made (h : k.taskNew c sup = some (t, k')) : TaskMade k t k' := by
  have hself : TaskMade k 0 k :=
    ⟨.of_eq rfl rfl rfl, rfl, fun h => absurd rfl h, fun h => absurd rfl h⟩
  unfold taskNew at h
  by_cases htask : sup.task = 0
  · rw [if_pos htask] at h
    obtain ⟨rfl, rfl⟩ := Prod.mk.inj (Option.some.inj h)
    exact hself
  · rw [if_neg htask] at h
    obtain ⟨task, halloc, h⟩ := Option.bind_eq_some_iff.mp h
    have hdead := (Heap.alloc_eq_some.mp halloc).1
    have hkept : Kept k { k with task } := by
      refine Kept.task_away (.of_eq rfl rfl rfl) hdead (fun q hq => ?_) (fun q hq => ?_) rfl rfl
      · exact (Heap.live_alloc halloc q).trans (if_neg hq)
      · exact Heap.cell_alloc_of_ne halloc hq
    dsimp only at h
    by_cases hnone : sup.upcall = 0
    · rw [if_pos hnone] at h
      obtain ⟨rfl, rfl⟩ := Prod.mk.inj (Option.some.inj h)
      refine ⟨?_, rfl, fun h => absurd rfl h, fun h => absurd rfl h⟩
      refine hkept.task_away hdead (fun q hq => ?_) (fun q hq => rfl) rfl rfl
      exact Heap.live_free_of_ne hq
    · rw [if_neg hnone] at h
      obtain ⟨mthread, hupcall, h⟩ := Option.map_eq_some_iff.mp h
      have hdead' := (Heap.alloc_eq_some.mp hupcall).1
      have hkept' : Kept k { k with task, mthread } := by
        refine hkept.thread_away hdead' (fun q hq => ?_) (fun q hq => ?_) rfl rfl
        · exact (Heap.live_alloc hupcall q).trans (if_neg hq)
        · exact Heap.cell_alloc_of_ne hupcall hq
      split at h
      · obtain ⟨rfl, rfl⟩ := Prod.mk.inj h
        refine ⟨?_, rfl, fun h => absurd rfl h, fun h => absurd rfl h⟩
        have hfreed : Kept k { k with task, mthread := mthread.free sup.upcall } := by
          refine hkept'.thread_away hdead' (fun q hq => ?_) (fun q hq => rfl) rfl rfl
          exact Heap.live_free_of_ne hq
        refine hfreed.task_away hdead (fun q hq => ?_) (fun q hq => rfl) rfl rfl
        exact Heap.live_free_of_ne hq
      · obtain ⟨rfl, rfl⟩ := Prod.mk.inj h
        refine ⟨?_, rfl, fun _ => hdead, fun _ => ?_⟩
        · refine hkept'.task_away hdead (fun q hq => rfl) (fun q hq => ?_) rfl rfl
          dsimp only [modTask]
          exact Heap.cell_modify_of_ne hq
        · dsimp only [modTask]
          rw [Heap.live_modify]
          exact Heap.live_alloc_self halloc

/-- What `find_task` does. -/
structure TaskFound (busy : List (ℕ × ℕ)) (k : Mem) (a t : ℕ) (k' : Mem) : Prop where
  kept : Kept k k'
  threads : ∀ b, (k'.apd.cell b).threads = (k.apd.cell b).threads
  placed : Placed busy k'
  task : t ≠ 0 → k'.task.live t = true ∧ (k'.task.cell t).apd = a

theorem findTask_found {busy : List (ℕ × ℕ)} (hp : Placed busy k) (ha : k.apd.live a = true)
    {isNew : Bool} (h : k.findTask c fuel a sup = some ((t, isNew), k')) :
    TaskFound busy k a t k' := by
  have hsame := (findTask_apart (List.mem_singleton_self sup.upcall) h).1.toSameApds
  obtain ⟨t₀, hseek, h⟩ := Option.bind_eq_some_iff.mp h
  split_ifs at h with ht
  · obtain ⟨heq, rfl⟩ := Prod.mk.inj (Option.some.inj h)
    obtain ⟨rfl, -⟩ := Prod.mk.inj heq
    obtain ⟨l, hl, htasks⟩ := hp.tasks a ha
    exact ⟨.of_eq rfl rfl rfl, fun _ => rfl, hp, fun _ => htasks t₀ (hl.seek hseek ht)⟩
  · obtain ⟨⟨r, k₁⟩, hnew, h⟩ := Option.map_eq_some_iff.mp h
    have hmade := taskNew_made hnew
    have hplaced : Placed busy k₁ := hp.kept (by rw [hmade.apd]) (fun _ _ => by rw [hmade.apd])
      (fun _ _ => by rw [hmade.apd]) hmade.kept
    dsimp only at h
    split_ifs at h with hr
    · obtain ⟨heq, rfl⟩ := Prod.mk.inj h
      obtain ⟨rfl, -⟩ := Prod.mk.inj heq
      exact ⟨hmade.kept, fun _ => by rw [hmade.apd], hplaced, fun h => absurd rfl h⟩
    · obtain ⟨heq, hk'⟩ := Prod.mk.inj h
      obtain ⟨rfl, -⟩ := Prod.mk.inj heq
      have hdead := hmade.free hr
      have htask : k'.task = k₁.task.modify r fun x =>
          { x with apd := a, next := (k₁.apd.cell a).tasks } := by rw [← hk']
      have hapd : k'.apd = k.apd.modify a fun x => { x with tasks := r } := by
        rw [← hk', ← hmade.apd]
      have hkept : Kept k k' := by
        refine hmade.kept.task_away hdead (fun q hq => ?_) (fun q hq => ?_) ?_ ?_
        · rw [htask]
          rfl
        · rw [htask, Heap.cell_modify_of_ne hq]
        all_goals rw [← hk']
      have hself : k'.task.cell r = { k₁.task.cell r with apd := a, next := (k.apd.cell a).tasks } := by
        rw [htask, Heap.cell_modify_self, hmade.apd]
      have hlive : k'.task.live r = true := by
        rw [htask]
        exact hmade.live hr
      have hthreads : ∀ b, (k'.apd.cell b).threads = (k.apd.cell b).threads := by
        intro b
        rw [hapd]
        refine Heap.modify_field (g := Apd.threads) ?_ b
        exact fun _ => rfl
      refine ⟨hkept, hthreads, ?_, fun _ => ⟨hlive, by rw [hself]⟩⟩
      refine hp.kept_tasks hsame.live (fun b _ => hthreads b) (fun b hb => ?_) hkept
      obtain ⟨l, hl, htasks⟩ := hp.tasks b hb
      have hl' : IsChain k'.taskNext (k.apd.cell b).tasks l :=
        hl.congr fun q hq => (hkept.task q (htasks q hq).1).2.2
      have hold : ∀ q ∈ l, k'.task.live q = true ∧ (k'.task.cell q).apd = b := fun q hq => by
        obtain ⟨h₁, h₂, -⟩ := hkept.task q (htasks q hq).1
        exact ⟨h₁, h₂.trans (htasks q hq).2⟩
      by_cases hba : b = a
      · subst hba
        refine ⟨r :: l, ⟨?_, hr, ?_⟩, fun q hq => ?_⟩
        · rw [hapd, Heap.cell_modify_self]
        · unfold taskNext
          rw [hself]
          exact hl'
        · rcases List.mem_cons.mp hq with rfl | hq
          · exact ⟨hlive, by rw [hself]⟩
          · exact hold q hq
      · refine ⟨l, ?_, hold⟩
        rw [hapd, Heap.cell_modify_of_ne hba]
        exact hl'

/-! ### A thread -/

/-- What a creation in the APD `a` does, when the threads `busy` are in use and `m` is the new
one, 0 for failure. -/
structure Created (busy : List (ℕ × ℕ)) (a m : ℕ) (k' : Mem) : Prop where
  failed : m = 0 → Placed busy k'
  placed : m ≠ 0 → Placed ((m, a) :: busy) k'

theorem makeMthread_created {busy : List (ℕ × ℕ)} {parent : ℕ} {isNew : Bool} (hp : Placed busy k)
    (ha : k.apd.live a = true) (h : k.makeMthread c fuel a parent sup = some ((m, isNew), k')) :
    Created busy a m k' := by
  unfold makeMthread at h
  by_cases hm : sup.mthread = 0
  · rw [if_pos hm] at h
    obtain ⟨heq, rfl⟩ := Prod.mk.inj (Option.some.inj h)
    obtain ⟨rfl, -⟩ := Prod.mk.inj heq
    exact ⟨fun _ => hp, fun h => absurd rfl h⟩
  · rw [if_neg hm] at h
    obtain ⟨mthread, halloc, h⟩ := Option.bind_eq_some_iff.mp h
    obtain ⟨⟨⟨t, isNew'⟩, k₂⟩, hfind, h⟩ := Option.bind_eq_some_iff.mp h
    have hdead := (Heap.alloc_eq_some.mp halloc).1
    generalize hk₁ : ({ k with mthread } : Mem).clearQueues sup.mthread = k₁ at hfind
    have hapd₁ : k₁.apd = k.apd := by rw [← hk₁]; rfl
    have hmthread₁ : k₁.mthread = mthread := by rw [← hk₁]; rfl
    have hkept₁ : Kept k k₁ := by
      refine Kept.thread_away (.of_eq rfl rfl rfl) hdead (fun q hq => ?_) (fun q hq => ?_) ?_ ?_
      · rw [hmthread₁]
        exact (Heap.live_alloc halloc q).trans (if_neg hq)
      · rw [hmthread₁]
        exact Heap.cell_alloc_of_ne halloc hq
      all_goals rw [← hk₁]; rfl
    have hp₁ : Placed busy k₁ := hp.kept (by rw [hapd₁]) (fun _ _ => by rw [hapd₁])
      (fun _ _ => by rw [hapd₁]) hkept₁
    have hfound := findTask_found hp₁ (by rw [hapd₁]; exact ha) hfind
    have hlive₂ : k₂.apd.live = k.apd.live := by
      rw [(findTask_apart (List.mem_singleton_self sup.upcall) hfind).1.live, hapd₁]
    have hkept := hkept₁.trans hfound.kept
    -- giving the structure back leaves what was in use before
    have hout : Placed busy { k₂ with mthread := k₂.mthread.free sup.mthread } := by
      refine hp.kept_tasks hlive₂ (fun b _ => ?_) (fun b hb => ?_) ?_
      · exact (hfound.threads b).trans (by rw [hapd₁])
      · exact hfound.placed.tasks b (hlive₂ ▸ hb)
      · exact hkept.thread_away hdead (fun q hq => Heap.live_free_of_ne hq) (fun _ _ => rfl) rfl rfl
    dsimp only at h
    by_cases ht : t = 0
    · rw [if_pos ht] at h
      obtain ⟨heq, rfl⟩ := Prod.mk.inj (Option.some.inj h)
      obtain ⟨rfl, -⟩ := Prod.mk.inj heq
      exact ⟨fun _ => hout, fun h => absurd rfl h⟩
    · rw [if_neg ht] at h
      by_cases he : sup.apdThread = 0
      · rw [if_pos he] at h
        obtain ⟨heq, rfl⟩ := Prod.mk.inj (Option.some.inj h)
        obtain ⟨rfl, -⟩ := Prod.mk.inj heq
        exact ⟨fun _ => hout, fun h => absurd rfl h⟩
      · rw [if_neg he] at h
        obtain ⟨apdThread, hentry, h⟩ := Option.map_eq_some_iff.mp h
        obtain ⟨heq, hk'⟩ := Prod.mk.inj h
        obtain ⟨rfl, -⟩ := Prod.mk.inj heq
        have hmthread : k'.mthread = k₂.mthread.modify sup.mthread fun x =>
            { x with apdThreadinfo := sup.apdThread, task := t } := by rw [← hk']
        have hapd : k'.apd = k₂.apd := by rw [← hk']
        have htask : k'.task = k₂.task := by rw [← hk']
        have hapdThread : k'.apdThread = apdThread := by rw [← hk']
        have hkept' : Kept k k' := by
          refine (hkept.allocEntry hentry).thread_away hdead (fun q hq => ?_) (fun q hq => ?_) ?_ ?_
          · rw [hmthread]
            rfl
          · rw [hmthread, Heap.cell_modify_of_ne hq]
          all_goals rw [← hk']
        have hlive : k'.mthread.live sup.mthread = true := by
          rw [hmthread, Heap.live_modify]
          refine (hfound.kept.thread _ ?_).1
          rw [hmthread₁]
          exact Heap.live_alloc_self halloc
        have hself : k'.mthread.cell sup.mthread = { k₂.mthread.cell sup.mthread with
            apdThreadinfo := sup.apdThread, task := t } := by
          rw [hmthread, Heap.cell_modify_self]
        have hcell : k'.apdThread.cell sup.apdThread = ⟨t, 0, 0, 0, sup.mthread, 0⟩ := by
          rw [hapdThread]
          exact Heap.cell_alloc_self hentry
        obtain ⟨htlive, htapd⟩ := hfound.task ht
        have hlinked : k'.Linked sup.mthread sup.apdThread a := by
          refine ⟨hm, he, hlive, by rw [hself], ?_, by rw [hcell], by rw [hcell, hself], ?_, ?_⟩
          · rw [hapdThread]
            exact Heap.live_alloc_self hentry
          · rw [hself, htask]
            exact htlive
          · unfold apdOf
            rw [hself, htask]
            exact htapd
        refine ⟨fun h => absurd h hm, fun _ => ?_⟩
        refine hp.add (by rw [hapd, hlive₂]) (fun b _ => ?_) (fun b hb => ?_) hkept' hdead ha hlinked
        · rw [hapd, hfound.threads, hapd₁]
        · rw [hapd]
          obtain ⟨l, hl, htasks⟩ := hfound.placed.tasks b (hlive₂ ▸ hb)
          refine ⟨l, hl.congr fun q _ => ?_, ?_⟩
          · unfold taskNext
            rw [htask]
          · rw [htask]
            exact htasks

theorem threadGetMthread_created {busy : List (ℕ × ℕ)} {parent : ℕ} {got : GotMthread}
    (hp : Placed busy k) (ha : k.apd.live a = true)
    (h : k.threadGetMthread c fuel a parent sup = some (got, k')) :
    Created busy a got.new k' := by
  have hp' : Placed busy (k.modApd a fun x => { x with users := x.users + 1 }) :=
    hp.modApd a fun _ => ⟨rfl, rfl⟩
  unfold threadGetMthread at h
  generalize hk₁ : k.modApd a (fun x => { x with users := x.users + 1 }) = k₁ at h hp'
  have ha' : k₁.apd.live a = true := by
    rw [← hk₁]
    exact ha
  dsimp only at h
  split_ifs at h with hpool
  · obtain ⟨rfl, rfl⟩ := Prod.mk.inj (Option.some.inj h)
    have htaken := hp'.take ha' hpool parent
    refine ⟨fun hm => ?_, fun _ => htaken⟩
    obtain ⟨-, e, he⟩ := htaken.home _ a List.mem_cons_self
    exact absurd hm he.ne
  · obtain ⟨⟨⟨m, isNew⟩, k₂⟩, hmake, heq⟩ := Option.map_eq_some_iff.mp h
    obtain ⟨rfl, rfl⟩ := Prod.mk.inj heq
    exact makeMthread_created hp' ha' hmake

/-! ### Starting it -/

theorem placeThread_kept {e : ℕ} (hm : k.Linked m e a) (lthread : ℕ) :
    Kept k (k.placeThread m lthread) := by
  generalize hk' : k.placeThread m lthread = k'
  have hthread : ∀ q, (k'.mthread.cell q).task = (k.mthread.cell q).task ∧
      (k'.mthread.cell q).apdThreadinfo = (k.mthread.cell q).apdThreadinfo := by
    intro q
    rw [← hk']
    unfold placeThread
    dsimp only
    rw [hm.info, hm.task, Heap.cell_modify]
    split_ifs with hq
    · rw [hq]
      exact ⟨rfl, rfl⟩
    · exact ⟨rfl, rfl⟩
  have hentry : ∀ q, (k'.apdThread.cell q).task = (k.apdThread.cell q).task ∧
      (k'.apdThread.cell q).mthread = (k.apdThread.cell q).mthread ∧
      (k'.apdThread.cell q).next = (k.apdThread.cell q).next := by
    intro q
    rw [← hk']
    unfold placeThread
    dsimp only
    rw [Heap.cell_modify]
    split_ifs with hq
    · rw [hq]
      exact ⟨rfl, rfl, rfl⟩
    · exact ⟨rfl, rfl, rfl⟩
  have htask : ∀ q, (k'.task.cell q).apd = (k.task.cell q).apd ∧
      (k'.task.cell q).next = (k.task.cell q).next := by
    intro q
    rw [← hk']
    unfold placeThread
    dsimp only
    rw [Heap.cell_modify]
    split_ifs with hq
    · rw [hq]
      exact ⟨rfl, rfl⟩
    · exact ⟨rfl, rfl⟩
  refine ⟨fun q hq => ⟨?_, hthread q⟩, fun q hq => ⟨?_, hentry q⟩, fun q hq => ⟨?_, htask q⟩⟩
  all_goals
    rw [← hk']
    exact hq

/-- What `l4task_thread_add` does keeps the links, for a thread that is linked. -/
theorem l4taskThreadAdd_kept {e : ℕ} (hm : k.Linked m e a) (h : k.l4taskThreadAdd c m = some k') :
    Kept k k' ∧ k'.apd = k.apd := by
  obtain ⟨lthread, -, rfl⟩ := Option.map_eq_some_iff.mp h
  have hf := (Frame.refl (k.placeThread m lthread)).threadHashInsert m
  exact ⟨(placeThread_kept hm lthread).trans hf.toSameThreads.kept, hf.apd⟩

/-- A thread that could not be started is given up. -/
theorem undoThread_placed {busy : List (ℕ × ℕ)} (hp : Placed ((m, a) :: busy) k) :
    Placed busy (k.undoThread m) :=
  (hp.frame ((Frame.refl k).l4taskThreadRemove m)).drop

theorem startTask_kept (k : Mem) (ret : L4Id) : Kept k (k.startTask m ret) := by
  have hf : Frame k (k.modTask (k.mthread.cell m).task fun t => { t with task := ret }) :=
    (Frame.refl k).modTask _ fun _ => ⟨rfl, rfl⟩
  have hl4id : Kept (k.modTask (k.mthread.cell m).task fun t => { t with task := ret })
      (k.startTask m ret) := by
    refine kept_modThread (f := fun t => { t with l4id := t.l4id.or ret }) rfl ?_ rfl rfl
    exact fun _ => ⟨rfl, rfl⟩
  exact hf.toSameThreads.kept.trans hl4id

/-- The thread is given its place. -/
theorem setupAdd_placed {busy : List (ℕ × ℕ)} {supplied size : ℕ} {newTask : Bool}
    (hp : Placed ((m, a) :: busy) k)
    (h : (k.threadSetupStack m supplied size newTask sup).2.l4taskThreadAdd c m = some k') :
    Placed ((m, a) :: busy) k' := by
  have hp' := hp.frame ((Frame.refl k).threadSetupStack m supplied size newTask sup)
  obtain ⟨-, e, he⟩ := hp'.home m a List.mem_cons_self
  obtain ⟨hkept, hapd⟩ := l4taskThreadAdd_kept he h
  exact hp'.kept (by rw [hapd]) (fun _ _ => by rw [hapd]) (fun _ _ => by rw [hapd]) hkept

/-! ### The calls -/

/-- **What `thread_create` does.** -/
theorem threadCreate_created {busy : List (ℕ × ℕ)} {parent supplied size : ℕ}
    {start : Option (L4Id × ℕ)} (hp : Placed busy k) (ha : k.apd.live a = true)
    (h : k.threadCreate c fuel a parent supplied size sup = some ((m, start), k')) :
    Created busy a m k' := by
  obtain ⟨⟨got, k₁⟩, hget, h⟩ := Option.bind_eq_some_iff.mp h
  have hgot := threadGetMthread_created hp ha hget
  dsimp only at h
  by_cases hnew : got.new = 0
  · rw [if_pos hnew] at h
    obtain ⟨heq, rfl⟩ := Prod.mk.inj (Option.some.inj h)
    obtain ⟨rfl, -⟩ := Prod.mk.inj heq
    exact ⟨fun _ => hgot.failed hnew, fun h => absurd rfl h⟩
  · rw [if_neg hnew] at h
    obtain ⟨k₂, hadd, h⟩ := Option.map_eq_some_iff.mp h
    have hp₂ := setupAdd_placed (hgot.placed hnew) hadd
    have hfail : Created busy a 0 (k₂.undoThread got.new) :=
      ⟨fun _ => undoThread_placed hp₂, fun h => absurd rfl h⟩
    have hok : ∀ k₃, Placed ((got.new, a) :: busy) k₃ →
        Created busy a got.new (k₃.emit (.created got.new a)) := fun k₃ h₃ =>
      ⟨fun h => absurd h hnew, fun _ => h₃.withLog _⟩
    split_ifs at h
    · cases hstarted : sup.started with
      | none =>
        rw [hstarted] at h
        obtain ⟨heq, rfl⟩ := Prod.mk.inj h
        obtain ⟨rfl, -⟩ := Prod.mk.inj heq
        exact hfail
      | some ret =>
        rw [hstarted] at h
        obtain ⟨heq, rfl⟩ := Prod.mk.inj h
        obtain ⟨rfl, -⟩ := Prod.mk.inj heq
        exact hok _ (hp₂.kept rfl (fun _ _ => rfl) (fun _ _ => rfl) (startTask_kept k₂ ret))
    · obtain ⟨heq, rfl⟩ := Prod.mk.inj h
      obtain ⟨rfl, -⟩ := Prod.mk.inj heq
      exact hok _ hp₂
    · obtain ⟨heq, rfl⟩ := Prod.mk.inj h
      obtain ⟨rfl, -⟩ := Prod.mk.inj heq
      exact hfail
    · obtain ⟨heq, rfl⟩ := Prod.mk.inj h
      obtain ⟨rfl, -⟩ := Prod.mk.inj heq
      exact hok _ hp₂

/-- **What `thread_pdx_create` does.** -/
theorem threadPdxCreate_created {busy : List (ℕ × ℕ)} {caller : ℕ} (hp : Placed busy k)
    (ha : k.apd.live a = true) (h : k.threadPdxCreate c fuel a caller sup = some (m, k')) :
    Created busy a m k' := by
  obtain ⟨⟨got, k₁⟩, hget, h⟩ := Option.bind_eq_some_iff.mp h
  have hgot := threadGetMthread_created hp ha hget
  dsimp only at h
  by_cases hnew : got.new = 0
  · rw [if_pos hnew] at h
    obtain ⟨rfl, rfl⟩ := Prod.mk.inj (Option.some.inj h)
    exact ⟨fun _ => hgot.failed hnew, fun h => absurd rfl h⟩
  · rw [if_neg hnew] at h
    obtain ⟨k₂, hadd, h⟩ := Option.map_eq_some_iff.mp h
    have hpdx : Placed ((got.new, a) :: busy)
        (k₁.modThread got.new fun t => { t with PDX := caller }) := by
      refine (hgot.placed hnew).kept rfl (fun _ _ => rfl) (fun _ _ => rfl) ?_
      refine kept_modThread (f := fun t => { t with PDX := caller }) rfl ?_ rfl rfl
      exact fun _ => ⟨rfl, rfl⟩
    have hp₂ := setupAdd_placed hpdx hadd
    have hfail : Created busy a 0 (k₂.undoThread got.new) :=
      ⟨fun _ => undoThread_placed hp₂, fun h => absurd rfl h⟩
    have hok : ∀ k₃ log, Placed ((got.new, a) :: busy) k₃ →
        Created busy a got.new { k₃ with log } := fun k₃ log h₃ =>
      ⟨fun h => absurd h hnew, fun _ => h₃.withLog _⟩
    split_ifs at h
    · cases hstarted : sup.started with
      | none =>
        rw [hstarted] at h
        obtain ⟨rfl, rfl⟩ := Prod.mk.inj h
        exact hfail
      | some ret =>
        rw [hstarted] at h
        obtain ⟨rfl, rfl⟩ := Prod.mk.inj h
        exact hok _ _ (hp₂.kept rfl (fun _ _ => rfl) (fun _ _ => rfl) (startTask_kept k₂ ret))
    · obtain ⟨rfl, rfl⟩ := Prod.mk.inj h
      exact hfail
    · obtain ⟨rfl, rfl⟩ := Prod.mk.inj h
      exact hok _ _ hp₂

end Mem

end Mungi
