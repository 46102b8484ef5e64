import Mungi.Threads.Steps

/-!
# What a creation leaves alone

A creation takes one thread structure, or two when it needs a new task, and of the APDs it
changes the count of one and lists.  The rest stays as it is, whether it succeeds or fails.

## Main definitions

* `Mem.SameApds` — nothing happens to APDs but to their lists.
* `Mem.takes` — the thread structures that a creation takes.
* `Mem.Apart` — nothing else happens to other threads.

## Main results

* `Mem.threadCreate_begun`, `Mem.threadPdxCreate_begun` — **what a creation leaves alone.**
-/

namespace Mungi

open Chain

variable {c : ThreadConf} {k k' k'' : Mem} {fuel a m t : ℕ} {sup : ThreadSupply}

namespace Mem

/-- The APDs are the same, except for their lists of threads and tasks and other data. -/
structure SameApds (k k' : Mem) : Prop where
  live : k'.apd.live = k.apd.live
  users : ∀ a, (k'.apd.cell a).users = (k.apd.cell a).users
  closing : ∀ a, (k'.apd.cell a).closing = (k.apd.cell a).closing
  serial : ∀ a, (k'.apd.cell a).serial = (k.apd.cell a).serial
  apdPdxCache : k'.apdPdxCache = k.apdPdxCache
  pdxCache : k'.pdxCache = k.pdxCache
  apdSerial : k'.apdSerial = k.apdSerial
  log : k'.log = k.log

theorem SameApds.trans (h : SameApds k k') (h' : SameApds k' k'') : SameApds k k'' where
  live := h'.live.trans h.live
  users := fun a => (h'.users a).trans (h.users a)
  closing := fun a => (h'.closing a).trans (h.closing a)
  serial := fun a => (h'.serial a).trans (h.serial a)
  apdPdxCache := h'.apdPdxCache.trans h.apdPdxCache
  pdxCache := h'.pdxCache.trans h.pdxCache
  apdSerial := h'.apdSerial.trans h.apdSerial
  log := h'.log.trans h.log

/-- Nothing happens to APDs. -/
theorem SameApds.of_eq (hapd : k'.apd = k.apd) (hcache : k'.apdPdxCache = k.apdPdxCache)
    (hpdx : k'.pdxCache = k.pdxCache) (hserial : k'.apdSerial = k.apdSerial)
    (hlog : k'.log = k.log) : SameApds k k' := by
  refine ⟨?_, fun _ => ?_, fun _ => ?_, fun _ => ?_, hcache, hpdx, hserial, hlog⟩
  all_goals rw [hapd]

/-- A change of the lists of an APD. -/
theorem SameApds.modApd {p : ℕ} {f : Apd → Apd} (hapd : k'.apd = k.apd.modify p f)
    (hf : ∀ x, (f x).users = x.users ∧ (f x).closing = x.closing ∧ (f x).serial = x.serial)
    (hcache : k'.apdPdxCache = k.apdPdxCache) (hpdx : k'.pdxCache = k.pdxCache)
    (hserial : k'.apdSerial = k.apdSerial) (hlog : k'.log = k.log) : SameApds k k' := by
  refine ⟨?_, fun _ => ?_, fun _ => ?_, fun _ => ?_, hcache, hpdx, hserial, hlog⟩
  all_goals rw [hapd]
  · rfl
  · exact Heap.modify_field (fun x => (hf x).1) _
  · exact Heap.modify_field (fun x => (hf x).2.1) _
  · exact Heap.modify_field (fun x => (hf x).2.2) _

theorem Frame.sameApds (h : Frame k k') : SameApds k k' :=
  .of_eq h.apd h.apdPdxCache h.pdxCache h.apdSerial h.log

/-! ### Other threads -/

/-- Of the thread structures only those in `ps` change their callers and L4 ids, and nothing
happens to APDs. -/
structure Apart (ps : List ℕ) (k k' : Mem) : Prop extends SameApds k k' where
  threadPDX : ∀ q, q ∉ ps → (k'.mthread.cell q).PDX = (k.mthread.cell q).PDX
  threadL4id : ∀ q, q ∉ ps → (k'.mthread.cell q).l4id = (k.mthread.cell q).l4id

variable {ps : List ℕ}

theorem Apart.trans (h : Apart ps k k') (h' : Apart ps k' k'') : Apart ps k k'' where
  toSameApds := h.toSameApds.trans h'.toSameApds
  threadPDX := fun q hq => (h'.threadPDX q hq).trans (h.threadPDX q hq)
  threadL4id := fun q hq => (h'.threadL4id q hq).trans (h.threadL4id q hq)

theorem Frame.apart (h : Frame k k') : Apart ps k k' :=
  ⟨h.sameApds, fun q _ => h.threadPDX q, fun q _ => h.threadL4id q⟩

/-- A change of one of the structures. -/
theorem SameApds.apart (h : SameApds k k') {p : ℕ} (hp : p ∈ ps)
    (hcell : ∀ q, q ≠ p → k'.mthread.cell q = k.mthread.cell q) : Apart ps k k' := by
  refine ⟨h, fun q hq => ?_, fun q hq => ?_⟩
  all_goals
    rw [hcell q]
    rintro rfl
    exact hq hp

theorem taskNew_apart (hps : sup.upcall ∈ ps) (h : k.taskNew c sup = some (t, k')) :
    Apart ps k k' ∧ k'.apd = k.apd ∧
      ∀ q, k.mthread.live q = true → k'.mthread.cell q = k.mthread.cell q := by
  unfold taskNew at h
  by_cases htask : sup.task = 0
  · rw [if_pos htask] at h
    obtain ⟨-, rfl⟩ := Prod.mk.inj (Option.some.inj h)
    exact ⟨(Frame.refl k).apart, rfl, fun _ _ => rfl⟩
  · rw [if_neg htask] at h
    obtain ⟨task, -, h⟩ := Option.bind_eq_some_iff.mp h
    dsimp only at h
    by_cases hupcall : sup.upcall = 0
    · rw [if_pos hupcall] at h
      obtain ⟨-, rfl⟩ := Prod.mk.inj (Option.some.inj h)
      exact ⟨⟨.of_eq rfl rfl rfl rfl rfl, fun _ _ => rfl, fun _ _ => rfl⟩, rfl, fun _ _ => rfl⟩
    · rw [if_neg hupcall] at h
      obtain ⟨mthread, halloc, h⟩ := Option.map_eq_some_iff.mp h
      have hlive : ∀ q, k.mthread.live q = true → mthread.cell q = k.mthread.cell q :=
        fun q hq => (Heap.alloc_live halloc hq).2.2
      have hother : ∀ q, q ≠ sup.upcall → mthread.cell q = k.mthread.cell q :=
        fun q hq => Heap.cell_alloc_of_ne halloc hq
      split at h
      all_goals
        obtain ⟨-, rfl⟩ := Prod.mk.inj h
        refine ⟨?_, rfl, hlive⟩
        exact SameApds.apart (.of_eq rfl rfl rfl rfl rfl) hps hother

theorem findTask_apart (hps : sup.upcall ∈ ps) {isNew : Bool}
    (h : k.findTask c fuel a sup = some ((t, isNew), k')) :
    Apart ps k k' ∧ ∀ q, k.mthread.live q = true → k'.mthread.cell q = k.mthread.cell q := by
  obtain ⟨t₀, -, h⟩ := Option.bind_eq_some_iff.mp h
  split_ifs at h with ht
  · obtain ⟨-, rfl⟩ := Prod.mk.inj (Option.some.inj h)
    exact ⟨(Frame.refl k).apart, fun _ _ => rfl⟩
  · obtain ⟨⟨r, k₁⟩, hnew, h⟩ := Option.map_eq_some_iff.mp h
    obtain ⟨hapart, -, hlive⟩ := taskNew_apart hps hnew
    dsimp only at h
    split_ifs at h with hr
    · obtain ⟨-, rfl⟩ := Prod.mk.inj h
      exact ⟨hapart, hlive⟩
    · obtain ⟨-, rfl⟩ := Prod.mk.inj h
      refine ⟨hapart.trans ⟨?_, fun _ _ => rfl, fun _ _ => rfl⟩, hlive⟩
      refine .modApd (p := a) (f := fun x => { x with tasks := r }) rfl ?_ rfl rfl rfl rfl
      exact fun _ => ⟨rfl, rfl, rfl⟩

/-! ### The new thread -/

/-- The thread structures that a creation in the APD takes: from the pool, or from `kmalloc`. -/
def takes (k : Mem) (apd : ℕ) (sup : ThreadSupply) : List ℕ :=
  if (k.apd.cell apd).threads ≠ 0 then
    [(k.apdThread.cell (k.apd.cell apd).threads).mthread]
  else [sup.mthread, sup.upcall]

theorem makeMthread_apart {parent : ℕ} {isNew : Bool} (hm : sup.mthread ∈ ps)
    (hps : sup.upcall ∈ ps) (h : k.makeMthread c fuel a parent sup = some ((m, isNew), k')) :
    Apart ps k k' ∧ (m ≠ 0 → m ∈ ps ∧ (k'.mthread.cell m).PDX = 0) := by
  unfold makeMthread at h
  by_cases hnone : sup.mthread = 0
  · rw [if_pos hnone] at h
    obtain ⟨heq, rfl⟩ := Prod.mk.inj (Option.some.inj h)
    obtain ⟨rfl, -⟩ := Prod.mk.inj heq
    exact ⟨(Frame.refl k).apart, fun h => absurd rfl h⟩
  · rw [if_neg hnone] at h
    obtain ⟨mthread, halloc, h⟩ := Option.bind_eq_some_iff.mp h
    obtain ⟨⟨⟨t, isNew'⟩, k₂⟩, hfind, h⟩ := Option.bind_eq_some_iff.mp h
    obtain ⟨hfound, hlive⟩ := findTask_apart hps hfind
    have halloced : Apart ps k (({ k with mthread } : Mem).clearQueues sup.mthread) := by
      refine SameApds.apart (.of_eq rfl rfl rfl rfl rfl) hm fun q hq => ?_
      exact Heap.cell_alloc_of_ne halloc hq
    have hapart := halloced.trans hfound
    have hself : (k₂.mthread.cell sup.mthread).PDX = 0 := by
      rw [hlive sup.mthread (Heap.live_alloc_self halloc)]
      exact congrArg Mthread.PDX (Heap.cell_alloc_self halloc)
    have hout : Apart ps k { k₂ with mthread := k₂.mthread.free sup.mthread } :=
      hapart.trans ⟨.of_eq rfl rfl rfl rfl rfl, fun _ _ => rfl, fun _ _ => rfl⟩
    dsimp only at h
    split_ifs at h with ht he
    · obtain ⟨heq, rfl⟩ := Prod.mk.inj (Option.some.inj h)
      obtain ⟨rfl, -⟩ := Prod.mk.inj heq
      exact ⟨hout, fun h => absurd rfl h⟩
    · obtain ⟨heq, rfl⟩ := Prod.mk.inj (Option.some.inj h)
      obtain ⟨rfl, -⟩ := Prod.mk.inj heq
      exact ⟨hout, fun h => absurd rfl h⟩
    · obtain ⟨apdThread, -, h⟩ := Option.map_eq_some_iff.mp h
      obtain ⟨heq, rfl⟩ := Prod.mk.inj h
      obtain ⟨rfl, -⟩ := Prod.mk.inj heq
      refine ⟨hapart.trans ?_, fun _ => ⟨hm, ?_⟩⟩
      · refine SameApds.apart (.of_eq rfl rfl rfl rfl rfl) hm fun q hq => ?_
        dsimp only [modThread]
        exact Heap.cell_modify_of_ne hq
      · dsimp only [modThread]
        rw [Heap.cell_modify_self]
        exact hself

theorem takePooled_apart (k : Mem) (apd parent : ℕ) :
    Apart [(k.takePooled apd parent).1] k (k.takePooled apd parent).2 ∧
      ((k.takePooled apd parent).2.mthread.cell (k.takePooled apd parent).1).PDX = 0 := by
  generalize hnew : (k.takePooled apd parent).1 = new
  have hthread : (k.takePooled apd parent).2.mthread = k.mthread.modify new fun t =>
      { t with
        parent
        children := 0
        state := .ok
        lasterror := 0
        waiting := 0
        PDX := 0
        kill := 0
        detached := false } := by
    rw [← hnew]
    rfl
  refine ⟨SameApds.apart ?_ List.mem_cons_self fun q hq => ?_, ?_⟩
  · refine .modApd (p := apd) (f := fun x =>
      { x with threads := k.poolNext (k.apd.cell apd).threads }) ?_ ?_ ?_ ?_ ?_ ?_
    exact rfl
    exact fun _ => ⟨rfl, rfl, rfl⟩
    all_goals rfl
  · rw [hthread, Heap.cell_modify_of_ne hq]
  · rw [hthread, Heap.cell_modify_self]

theorem threadGetMthread_apart {parent : ℕ} {got : GotMthread}
    (h : k.threadGetMthread c fuel a parent sup = some (got, k')) :
    Apart (k.takes a sup) (k.modApd a fun x => { x with users := x.users + 1 }) k' ∧
      (got.new ≠ 0 → got.new ∈ k.takes a sup ∧ (k'.mthread.cell got.new).PDX = 0) := by
  unfold threadGetMthread at h
  have hthreads : ((k.modApd a fun x => { x with users := x.users + 1 }).apd.cell a).threads
      = (k.apd.cell a).threads := by
    dsimp only
    rw [Heap.cell_modify_self]
  unfold takes
  dsimp only [] at h
  split_ifs at h ⊢ with hpool hpool' hpool'
  · obtain ⟨rfl, rfl⟩ := Prod.mk.inj (Option.some.inj h)
    have hnew : (takePooled (k.modApd a fun x => { x with users := x.users + 1 }) a parent).1
        = (k.apdThread.cell (k.apd.cell a).threads).mthread := by
      rw [← hthreads]
      rfl
    obtain ⟨hapart, hpdx⟩ :=
      takePooled_apart (k.modApd a fun x => { x with users := x.users + 1 }) a parent
    rw [← hnew]
    exact ⟨hapart, fun _ => ⟨List.mem_cons_self, hpdx⟩⟩
  · exact absurd (hthreads ▸ hpool) hpool'
  · exact absurd (hthreads.symm ▸ hpool') hpool
  · obtain ⟨⟨⟨m, isNew⟩, k₁⟩, hmake, heq⟩ := Option.map_eq_some_iff.mp h
    obtain ⟨rfl, rfl⟩ := Prod.mk.inj heq
    exact makeMthread_apart List.mem_cons_self (List.mem_cons_of_mem _ List.mem_cons_self) hmake

/-! ### The calls -/

theorem l4taskThreadAdd_apart (hm : m ∈ ps) (h : k.l4taskThreadAdd c m = some k') :
    Apart ps k k' ∧ (k'.mthread.cell m).PDX = (k.mthread.cell m).PDX := by
  obtain ⟨lthread, -, rfl⟩ := Option.map_eq_some_iff.mp h
  have hf := (Frame.refl (k.placeThread m lthread)).threadHashInsert m
  have hplaced : Apart ps k (k.placeThread m lthread) := by
    refine SameApds.apart (.of_eq rfl rfl rfl rfl rfl) hm fun q hq => ?_
    dsimp only [placeThread]
    rw [Heap.cell_modify_of_ne hq]
  refine ⟨hplaced.trans hf.apart, ?_⟩
  rw [hf.threadPDX]
  dsimp only [placeThread]
  rw [Heap.cell_modify_self]

theorem startTask_apart (k : Mem) (hm : m ∈ ps) (ret : L4Id) :
    Apart ps k (k.startTask m ret) ∧
      ((k.startTask m ret).mthread.cell m).PDX = (k.mthread.cell m).PDX := by
  refine ⟨SameApds.apart (.of_eq rfl rfl rfl rfl rfl) hm fun q hq => ?_, ?_⟩
  · dsimp only [startTask, modThread]
    rw [Heap.cell_modify_of_ne hq]
  · dsimp only [startTask, modThread]
    rw [Heap.cell_modify_self]

theorem undoThread_apart (k : Mem) (m : ℕ) : Apart ps k (k.undoThread m) :=
  ⟨.of_eq rfl rfl rfl rfl rfl, fun _ _ => rfl, fun _ _ => rfl⟩

/-- What a creation in the APD `a` does, whether it succeeds or not: a user is counted, and the
new thread `m`, 0 for failure, is for a PDX call of `caller`. -/
structure Begun (k : Mem) (a : ℕ) (sup : ThreadSupply) (m caller : ℕ) (events : List Event)
    (k' : Mem) : Prop where
  apart : Apart (k.takes a sup) { k.modApd a fun x => { x with users := x.users + 1 } with
    log := events ++ k.log } k'
  taken : m ≠ 0 → m ∈ k.takes a sup
  pdx : m ≠ 0 → (k'.mthread.cell m).PDX = caller

/-- The same memory with more events. -/
theorem Apart.withEvents {k₀ : Mem} (h : Apart ps k₀ k) (events : List Event) :
    Apart ps { k₀ with log := events ++ k₀.log } { k with log := events ++ k.log } := by
  refine ⟨⟨h.live, h.users, h.closing, h.serial, h.apdPdxCache, h.pdxCache, h.apdSerial, ?_⟩,
    h.threadPDX, h.threadL4id⟩
  dsimp only
  rw [h.log]

/-- **What `thread_create` leaves alone.** -/
theorem threadCreate_begun {parent supplied size : ℕ} {start : Option (L4Id × ℕ)}
    (h : k.threadCreate c fuel a parent supplied size sup = some ((m, start), k')) :
    Begun k a sup m 0 (if m = 0 then [] else [.created m a]) k' := by
  obtain ⟨⟨got, k₁⟩, hget, h⟩ := Option.bind_eq_some_iff.mp h
  obtain ⟨hapart₁, htaken⟩ := threadGetMthread_apart hget
  dsimp only at h
  by_cases hnew : got.new = 0
  · rw [if_pos hnew] at h
    obtain ⟨heq, rfl⟩ := Prod.mk.inj (Option.some.inj h)
    obtain ⟨rfl, -⟩ := Prod.mk.inj heq
    exact ⟨hapart₁, fun h => absurd rfl h, fun h => absurd rfl h⟩
  · rw [if_neg hnew] at h
    obtain ⟨hmem, hpdx⟩ := htaken hnew
    obtain ⟨k₂, hadd, h⟩ := Option.map_eq_some_iff.mp h
    have hf := (Frame.refl k₁).threadSetupStack got.new supplied size got.newTask sup
    obtain ⟨hapart₂, hpdx₂⟩ := l4taskThreadAdd_apart hmem hadd
    have hapart := hapart₁.trans (hf.apart.trans hapart₂)
    rw [hf.threadPDX, hpdx] at hpdx₂
    have hfail : Begun k a sup 0 0 [] (k₂.undoThread got.new) :=
      ⟨hapart.trans (undoThread_apart k₂ _), fun h => absurd rfl h, fun h => absurd rfl h⟩
    have hok : ∀ k₃, Apart (k.takes a sup) k₂ k₃ ∧
        (k₃.mthread.cell got.new).PDX = (k₂.mthread.cell got.new).PDX →
        Begun k a sup got.new 0 (if got.new = 0 then [] else [.created got.new a])
          (k₃.emit (.created got.new a)) := by
      intro k₃ h₃
      rw [if_neg hnew]
      exact ⟨(hapart.trans h₃.1).withEvents [.created got.new a], fun _ => hmem,
        fun _ => h₃.2.trans hpdx₂⟩
    have hself := hok k₂ ⟨(Frame.refl k₂).apart, rfl⟩
    split_ifs at h
    · cases hstarted : sup.started with
      | none =>
        rw [hstarted] at h
        obtain ⟨heq, rfl⟩ := Prod.mk.inj h
        obtain ⟨rfl, -⟩ := Prod.mk.inj heq
        exact hfail
      | some ret =>
        rw [hstarted] at h
        obtain ⟨heq, rfl⟩ := Prod.mk.inj h
        obtain ⟨rfl, -⟩ := Prod.mk.inj heq
        exact hok _ (startTask_apart k₂ hmem ret)
    · obtain ⟨heq, rfl⟩ := Prod.mk.inj h
      obtain ⟨rfl, -⟩ := Prod.mk.inj heq
      exact hself
    · obtain ⟨heq, rfl⟩ := Prod.mk.inj h
      obtain ⟨rfl, -⟩ := Prod.mk.inj heq
      exact hfail
    · obtain ⟨heq, rfl⟩ := Prod.mk.inj h
      obtain ⟨rfl, -⟩ := Prod.mk.inj heq
      exact hself

/-- **What `thread_pdx_create` leaves alone.** -/
theorem threadPdxCreate_begun {caller : ℕ}
    (h : k.threadPdxCreate c fuel a caller sup = some (m, k')) :
    Begun k a sup m caller (if m = 0 then [] else
      [.called m caller (k'.mthread.cell caller).l4id, .created m a]) k' := by
  obtain ⟨⟨got, k₁⟩, hget, h⟩ := Option.bind_eq_some_iff.mp h
  obtain ⟨hapart₁, htaken⟩ := threadGetMthread_apart hget
  dsimp only at h
  by_cases hnew : got.new = 0
  · rw [if_pos hnew] at h
    obtain ⟨rfl, rfl⟩ := Prod.mk.inj (Option.some.inj h)
    exact ⟨hapart₁, fun h => absurd rfl h, fun h => absurd rfl h⟩
  · rw [if_neg hnew] at h
    obtain ⟨hmem, -⟩ := htaken hnew
    obtain ⟨k₂, hadd, h⟩ := Option.map_eq_some_iff.mp h
    have hset : Apart (k.takes a sup) k₁ (k₁.modThread got.new fun t => { t with PDX := caller }) := by
      refine SameApds.apart (.of_eq rfl rfl rfl rfl rfl) hmem fun q hq => ?_
      dsimp only
      rw [Heap.cell_modify_of_ne hq]
    have hpdx : ((k₁.modThread got.new fun t => { t with PDX := caller }).mthread.cell got.new).PDX
        = caller := by
      dsimp only
      rw [Heap.cell_modify_self]
    have hf := (Frame.refl (k₁.modThread got.new fun t => { t with PDX := caller })).threadSetupStack
      got.new 0 mthreadStackSize got.newTask sup
    obtain ⟨hapart₂, hpdx₂⟩ := l4taskThreadAdd_apart hmem hadd
    have hapart := hapart₁.trans (hset.trans (hf.apart.trans hapart₂))
    rw [hf.threadPDX, hpdx] at hpdx₂
    have hfail : Begun k a sup 0 caller [] (k₂.undoThread got.new) :=
      ⟨hapart.trans (undoThread_apart k₂ _), fun h => absurd rfl h, fun h => absurd rfl h⟩
    have hok : ∀ k₃, Apart (k.takes a sup) k₂ k₃ ∧
        (k₃.mthread.cell got.new).PDX = (k₂.mthread.cell got.new).PDX →
        Begun k a sup got.new caller (if got.new = 0 then [] else
          [.called got.new caller (k₃.mthread.cell caller).l4id, .created got.new a])
          { k₃ with log := .called got.new caller (k₃.mthread.cell caller).l4id ::
            .created got.new a :: k₃.log } := by
      intro k₃ h₃
      rw [if_neg hnew]
      exact ⟨(hapart.trans h₃.1).withEvents
        [.called got.new caller (k₃.mthread.cell caller).l4id, .created got.new a], fun _ => hmem,
        fun _ => h₃.2.trans hpdx₂⟩
    split_ifs at h
    · cases hstarted : sup.started with
      | none =>
        rw [hstarted] at h
        obtain ⟨rfl, rfl⟩ := Prod.mk.inj h
        exact hfail
      | some ret =>
        rw [hstarted] at h
        obtain ⟨rfl, rfl⟩ := Prod.mk.inj h
        exact hok _ (startTask_apart k₂ hmem ret)
    · obtain ⟨rfl, rfl⟩ := Prod.mk.inj h
      exact hfail
    · obtain ⟨rfl, rfl⟩ := Prod.mk.inj h
      exact hok k₂ ⟨(Frame.refl k₂).apart, rfl⟩

end Mem

end Mungi
