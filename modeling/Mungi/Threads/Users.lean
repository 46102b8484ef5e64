import Mungi.Threads.Homes

/-!
# APDs count their threads

The count of users of an APD is the number of its threads in use, as long as no creation fails
after the user is counted, and no APD is made as a copy of one with users: the copy has the same
count.

## Main definitions

* `Mem.UsersCounted` — the counts are right, and APDs are freed at the right time.
* `Mem.Granted` — a creation gets what it asks for.
* `Mem.Countable` — the condition on calls.

## Main results

* `Mem.threadGetMthread_granted` — a creation that gets what it asks for does not fail.
* `users_counted` — **APDs count their threads** in all runs of such calls.
-/

namespace Mungi

open Chain Runs Mem

variable {O : Type} {c : ThreadConf} {k k' : Mem} {fuel a m : ℕ} {sup : ThreadSupply}

/-- The count of users is the number of threads that were created in the APD and not released
yet; an APD is freed only when there are none, and one that is marked, as soon as there are
none. -/
structure Mem.UsersCounted (k : Mem) : Prop where
  users : ∀ a, k.apd.live a = true → (k.apd.cell a).users = threadsOf (handedOut k.log) a
  closing : ∀ a, k.apd.live a = true → (k.apd.cell a).closing = true →
    0 < threadsOf (handedOut k.log) a
  live : ∀ m a, (m, a) ∈ handedOut k.log → k.apd.live a = true
  closed : Each ClosedRightly k.log

/-- `kmalloc`, `l4_task_new` and `upcall_create` do what the creation of a thread asks for, and
there is an L4 task left, if one is needed. -/
def Mem.Granted (c : ThreadConf) (k : Mem) (fuel apd : ℕ) (sup : ThreadSupply) : Prop :=
  (sup.mthread ≠ 0 ∧ sup.task ≠ 0 ∧ sup.upcall ≠ 0 ∧ sup.apdThread ≠ 0) ∧
    sup.started.isSome ∧ sup.upcallCreate = false ∧
    ((k.apd.cell apd).threads = 0 →
      seek k.taskNext (fun t => (k.task.cell t).threadFree ≠ 0) fuel (k.apd.cell apd).tasks
        = some 0 → ∃ i < c.taskCount, k.l4Tasks i = 0)

instance (c : ThreadConf) (k : Mem) (fuel apd : ℕ) (sup : ThreadSupply) :
    Decidable (k.Granted c fuel apd sup) := by
  unfold Mem.Granted
  infer_instance

/-- The call is as before, a creation gets what it asks for, and an APD that is copied has no
users. -/
def Mem.Countable (c : ThreadConf) (k : Mem) (op : ThreadOp O) : Prop :=
  k.Rightful c op ∧
    match op with
    | .threadCreate fuel apd _ _ _ sup => k.Granted c fuel apd sup
    | .threadPdxCreate fuel apd _ sup => k.Granted c fuel apd sup
    | .apdPdxMerge fuel now now' orig clist sup =>
      ∀ looked ∈ k.apdPdxCacheLookup c fuel now orig clist, looked.1.isNone →
        ∀ merged ∈ k.apdPdxMerge c fuel now now' orig clist sup, merged.1.isSome →
          orig = 0 ∨ (looked.2.apd.cell orig).users = 0
    | _ => True

instance (c : ThreadConf) (k : Mem) : ∀ op : ThreadOp O, Decidable (k.Countable c op)
  | .threadCreate .. | .threadPdxCreate .. | .sysThreadReturn .. | .threadDelete ..
  | .threadWait .. | .threadDie .. | .excptReg .. | .apdFromTemplate .. | .apdFindOrCreate ..
  | .apdPdxMerge .. | .apdClose .. => by
    unfold Mem.Countable
    infer_instance

/-! ### Creations that do not fail -/

theorem Mem.taskNew_granted (htask : sup.task ≠ 0) (hupcall : sup.upcall ≠ 0)
    (hroom : ∃ i < c.taskCount, k.l4Tasks i = 0) {t : ℕ} (h : k.taskNew c sup = some (t, k')) :
    t ≠ 0 := by
  unfold taskNew at h
  rw [if_neg htask] at h
  obtain ⟨task, -, h⟩ := Option.bind_eq_some_iff.mp h
  dsimp only at h
  rw [if_neg hupcall] at h
  obtain ⟨mthread, -, h⟩ := Option.map_eq_some_iff.mp h
  split at h
  · next hnone =>
    obtain ⟨i, hi, hfree⟩ := hroom
    have := List.find?_eq_none.mp hnone i (List.mem_range.mpr hi)
    exact absurd (decide_eq_true hfree) this
  · obtain ⟨rfl, -⟩ := Prod.mk.inj h
    exact htask

theorem Mem.findTask_granted (htask : sup.task ≠ 0) (hupcall : sup.upcall ≠ 0)
    (hroom : seek k.taskNext (fun t => (k.task.cell t).threadFree ≠ 0) fuel (k.apd.cell a).tasks
      = some 0 → ∃ i < c.taskCount, k.l4Tasks i = 0) {t : ℕ} {isNew : Bool}
    (h : k.findTask c fuel a sup = some ((t, isNew), k')) : t ≠ 0 := by
  obtain ⟨t₀, hseek, h⟩ := Option.bind_eq_some_iff.mp h
  split_ifs at h with ht
  · obtain ⟨heq, -⟩ := Prod.mk.inj (Option.some.inj h)
    obtain ⟨rfl, -⟩ := Prod.mk.inj heq
    exact ht
  · obtain ⟨⟨r, k₁⟩, hnew, h⟩ := Option.map_eq_some_iff.mp h
    rw [not_not.mp ht] at hseek
    have hr := taskNew_granted htask hupcall (hroom hseek) hnew
    dsimp only at h
    rw [if_neg hr] at h
    obtain ⟨heq, -⟩ := Prod.mk.inj h
    obtain ⟨rfl, -⟩ := Prod.mk.inj heq
    exact hr

/-- **A creation that gets what it asks for finds a thread.** -/
theorem Mem.threadGetMthread_granted {busy : List (ℕ × ℕ)} {parent : ℕ} {got : GotMthread}
    (hp : Placed busy k) (ha : k.apd.live a = true) (hg : k.Granted c fuel a sup)
    (h : k.threadGetMthread c fuel a parent sup = some (got, k')) : got.new ≠ 0 := by
  obtain ⟨⟨hm, htask, hupcall, hentry⟩, -, -, hroom⟩ := hg
  unfold threadGetMthread at h
  have hthreads : ((k.modApd a fun x => { x with users := x.users + 1 }).apd.cell a).threads
      = (k.apd.cell a).threads := by
    dsimp only
    rw [Heap.cell_modify_self]
  by_cases hpool : (k.apd.cell a).threads = 0
  · rw [if_neg (not_not.mpr (hthreads.trans hpool))] at h
    obtain ⟨⟨⟨m, isNew⟩, k₁⟩, hmake, heq⟩ := Option.map_eq_some_iff.mp h
    obtain ⟨rfl, -⟩ := Prod.mk.inj heq
    unfold makeMthread at hmake
    rw [if_neg hm] at hmake
    obtain ⟨mthread, -, hmake⟩ := Option.bind_eq_some_iff.mp hmake
    obtain ⟨⟨⟨t, isNew'⟩, k₂⟩, hfind, hmake⟩ := Option.bind_eq_some_iff.mp hmake
    have ht : t ≠ 0 := by
      refine findTask_granted htask hupcall ?_ hfind
      intro hseek
      refine hroom hpool ?_
      unfold clearQueues at hseek
      dsimp only at hseek
      rw [Heap.cell_modify_self] at hseek
      exact hseek
    dsimp only at hmake
    rw [if_neg ht, if_neg hentry] at hmake
    obtain ⟨apdThread, -, hmake⟩ := Option.map_eq_some_iff.mp hmake
    obtain ⟨heq, -⟩ := Prod.mk.inj hmake
    obtain ⟨rfl, -⟩ := Prod.mk.inj heq
    exact hm
  · rw [if_pos (fun h0 => hpool (hthreads.symm.trans h0))] at h
    obtain ⟨l, hl, hlinked⟩ := hp.pool a ha
    cases l with
    | nil => exact absurd hl hpool
    | cons e l =>
      obtain ⟨rfl, -⟩ := Prod.mk.inj (Option.some.inj h)
      have he := (hlinked e List.mem_cons_self).1.ne
      rw [← hl.1] at he
      dsimp only [takePooled]
      rw [Heap.cell_modify_self]
      exact he

theorem Mem.threadCreate_granted {busy : List (ℕ × ℕ)} {parent supplied size : ℕ}
    {start : Option (L4Id × ℕ)} (hp : Placed busy k) (ha : k.apd.live a = true)
    (hg : k.Granted c fuel a sup)
    (h : k.threadCreate c fuel a parent supplied size sup = some ((m, start), k')) : m ≠ 0 := by
  obtain ⟨⟨got, k₁⟩, hget, h⟩ := Option.bind_eq_some_iff.mp h
  have hnew := threadGetMthread_granted hp ha hg hget
  obtain ⟨-, hstarted, hupcall, -⟩ := hg
  obtain ⟨ret, hret⟩ := Option.isSome_iff_exists.mp hstarted
  dsimp only at h
  rw [if_neg hnew] at h
  obtain ⟨k₂, -, h⟩ := Option.map_eq_some_iff.mp h
  rw [hret, hupcall] at h
  split_ifs at h with hnewTask htask hfail
  · obtain ⟨heq, -⟩ := Prod.mk.inj h
    obtain ⟨rfl, -⟩ := Prod.mk.inj heq
    exact hnew
  · obtain ⟨heq, -⟩ := Prod.mk.inj h
    obtain ⟨rfl, -⟩ := Prod.mk.inj heq
    exact hnew
  · exact absurd hfail (by decide)
  · obtain ⟨heq, -⟩ := Prod.mk.inj h
    obtain ⟨rfl, -⟩ := Prod.mk.inj heq
    exact hnew

theorem Mem.threadPdxCreate_granted {busy : List (ℕ × ℕ)} {caller : ℕ} (hp : Placed busy k)
    (ha : k.apd.live a = true) (hg : k.Granted c fuel a sup)
    (h : k.threadPdxCreate c fuel a caller sup = some (m, k')) : m ≠ 0 := by
  obtain ⟨⟨got, k₁⟩, hget, h⟩ := Option.bind_eq_some_iff.mp h
  have hnew := threadGetMthread_granted hp ha hg hget
  obtain ⟨-, hstarted, hupcall, -⟩ := hg
  obtain ⟨ret, hret⟩ := Option.isSome_iff_exists.mp hstarted
  dsimp only at h
  rw [if_neg hnew] at h
  obtain ⟨k₂, -, h⟩ := Option.map_eq_some_iff.mp h
  rw [hret, hupcall] at h
  split_ifs at h with h₁ h₂
  · obtain ⟨rfl, -⟩ := Prod.mk.inj h
    exact hnew
  · exact absurd h₂.2 (by decide)
  · obtain ⟨rfl, -⟩ := Prod.mk.inj h
    exact hnew

/-! ### The count -/

/-- The users of an APD are its threads, and a marked one has some. -/
def ExactUsers (n : ℕ) (users : ℤ) (closing : Bool) : Prop :=
  users = n ∧ (closing = true → 0 < n)

theorem exactUsers_tally : Tally ExactUsers where
  le := fun h => h.1.ge
  closing := fun {n users} h => by
    have := h.1
    have := h.2 rfl
    omega
  fresh := ⟨rfl, nofun⟩
  create := fun {n users closing} h => by
    have := h.1
    exact ⟨by push_cast; omega, fun _ => by omega⟩
  release := fun {n users closing} h hne => by
    have := h.1
    push_cast at this
    refine ⟨by omega, fun hcl => ?_⟩
    have := hne hcl
    omega
  close := fun {n users closing} h hne => by
    have := h.1
    exact ⟨this, fun _ => by omega⟩

theorem Owned.usersCounted (h : Owned ExactUsers k) : k.UsersCounted where
  users := fun a ha => (h.tally a ha).1
  closing := fun a ha => (h.tally a ha).2
  live := fun m a hm => (h.placed.home m a hm).1
  closed := h.closed

/-- **One call keeps the count.** -/
theorem Owned.step_countable {op : ThreadOp O} (h : Owned ExactUsers k) (hc : k.Countable c op)
    (hs : threadStep c k op = some k') : Owned ExactUsers k' := by
  have ht := exactUsers_tally
  obtain ⟨hr, hc⟩ := hc
  cases op with
  | threadCreate fuel apd parent supplied size sup =>
    obtain ⟨⟨⟨m, start⟩, k₁⟩, hcreate, rfl⟩ := Option.map_eq_some_iff.mp hs
    have hm := threadCreate_granted h.placed hr hc hcreate
    exact h.threadCreate ht hr (fun h0 => absurd h0 hm) hcreate
  | threadPdxCreate fuel apd caller sup =>
    obtain ⟨⟨m, k₁⟩, hcreate, rfl⟩ := Option.map_eq_some_iff.mp hs
    have hm := threadPdxCreate_granted h.placed hr hc hcreate
    exact h.threadPdxCreate ht hr (fun h0 => absurd h0 hm) hcreate
  | sysThreadReturn fuel item status thread => exact h.sysThreadReturn ht hr hs
  | threadDelete fuel item tid status caller =>
    obtain ⟨⟨goes, k₁⟩, hd, rfl⟩ := Option.map_eq_some_iff.mp hs
    exact h.threadDelete ht hr hd
  | threadWait fuel item tid caller =>
    obtain ⟨⟨ret, k₁⟩, hw, rfl⟩ := Option.map_eq_some_iff.mp hs
    exact h.threadWait ht hr hw
  | threadDie fuel item thread => exact h.threadDie ht hr hs
  | excptReg thread handler =>
    obtain rfl := Option.some.inj hs
    exact h.excptReg handler
  | apdFromTemplate os pd sup =>
    obtain ⟨⟨a, k₁⟩, hm, rfl⟩ := Option.map_eq_some_iff.mp hs
    exact h.apdFromTemplate ht hm
  | apdFindOrCreate os fuel addr pd sup =>
    obtain ⟨⟨a, k₁⟩, hm, rfl⟩ := Option.map_eq_some_iff.mp hs
    exact h.apdFindOrCreate ht hm
  | apdPdxMerge fuel now now' orig clist sup =>
    obtain ⟨⟨r, k₁⟩, hm, rfl⟩ := Option.map_eq_some_iff.mp hs
    refine h.apdPdxMerge ht (fun k₂ hlook hne h₂ => ?_) hm
    have hsome : r.isSome := Option.isSome_iff_ne_none.mpr hne
    rcases hr _ hlook rfl _ hm hsome with h0 | ⟨hlive, hthreads⟩
    · exact Or.inl h0
    · rcases hc _ hlook rfl _ hm hsome with h0 | husers
      · exact Or.inl h0
      · obtain ⟨hcount, hcl⟩ := h₂.tally orig hlive
        refine Or.inr ⟨hlive, hthreads, husers, fun hclosing => ?_⟩
        have := hcl hclosing
        dsimp only at husers
        omega
  | apdClose fuel apd =>
    obtain ⟨⟨freed, k₁⟩, hclose, rfl⟩ := Option.map_eq_some_iff.mp hs
    exact h.apdClose ht hr hclose

/-- **APDs count their threads**, in every run of such calls. -/
theorem users_counted (c : ThreadConf) (k k' : Mem) (ops : List (ThreadOp O)) (hboot : k.Booted)
    (hops : Along (threadStep c) (Mem.Countable c) k ops)
    (hrun : run (threadStep c) k ops = some k') : k'.UsersCounted :=
  (run_invariant_along (fun _ _ _ h hc hs => h.step_countable hc hs) ops k k' hboot.owned hops
    hrun).usersCounted

/-! ### Runs -/

/-- An APD with a thread is copied. -/
def usersCopied : List (ThreadOp Unit) :=
  [.apdPdxMerge 5 0 0 0 ⟨7, 7⟩ (apdAt 100), .threadCreate 5 100 0 0 0 (threadAt 10 30),
    .apdPdxMerge 5 0 0 100 ⟨8, 8⟩ (apdAt 101)]

/-- The copy has no thread, and a user. -/
theorem users_not_counted :
    ¬ ∀ (c : ThreadConf) (k k' : Mem) (ops : List (ThreadOp Unit)), k.Booted →
      run (threadStep c) k ops = some k' → k'.UsersCounted := by
  intro h
  have hend : (run (threadStep smallConf) Mem.boot usersCopied).map (fun k =>
      (k.apd.live 101, (k.apd.cell 101).users, threadsOf (handedOut k.log) 101))
        = some (true, 1, 0) := by
    decide +kernel
  obtain ⟨k', hrun, hk'⟩ := Option.map_eq_some_iff.mp hend
  obtain ⟨hlive, hk'⟩ := Prod.mk.inj hk'
  obtain ⟨husers, hcount⟩ := Prod.mk.inj hk'
  have h101 := (h smallConf Mem.boot k' usersCopied Mem.boot_booted hrun).users 101 hlive
  rw [husers, hcount] at h101
  revert h101
  decide

/-- The APD is copied before there are threads, closed with a thread, and freed with it. -/
def usersNotCopied : List (ThreadOp Unit) :=
  [.apdPdxMerge 5 0 0 0 ⟨7, 7⟩ (apdAt 100), .apdPdxMerge 5 0 0 100 ⟨8, 8⟩ (apdAt 101),
    .threadCreate 5 100 0 0 0 (threadAt 10 30), .apdClose 5 100,
    .threadPdxCreate 5 101 10 ⟨12, 22, 23, 31, 4096, 8192, some ⟨1, 0, 0⟩, false⟩,
    .sysThreadReturn 5 0 0 12, .excptReg 10 0, .threadDie 5 0 10]

theorem users_counted_usersNotCopied : ∃ k',
    run (threadStep smallConf) Mem.boot usersNotCopied = some k' ∧ k'.UsersCounted := by
  have hrun : (run (threadStep smallConf) Mem.boot usersNotCopied).isSome = true := by
    decide +kernel
  obtain ⟨k', hk'⟩ := Option.isSome_iff_exists.mp hrun
  exact ⟨k', hk', users_counted smallConf Mem.boot k' usersNotCopied Mem.boot_booted
    (by decide +kernel) hk'⟩

end Mungi
