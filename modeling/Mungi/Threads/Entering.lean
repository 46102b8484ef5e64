import Mungi.Threads.Table

/-!
# New threads in the table

A creation takes a structure for its thread, which names the parent, and puts it into the table of
threads under a new id.

## Main definitions

* `Mem.taken` — the structure that a creation takes.
* `Mem.Fetched`, `Mem.Entered` — what finding it does, and what putting it into the table does.

## Main results

* `Mem.threadCreate_table`, `Mem.threadPdxCreate_table` — **what a creation does to the table.**
-/

namespace Mungi

open Chain Runs Mem

variable {c : ThreadConf} {k k' k'' : Mem} {fuel a m t x parent : ℕ} {sup : ThreadSupply}

namespace Mem

/-! ### Finding a structure -/

/-- The structure that a creation in the APD takes for its thread: from the pool, or from
`kmalloc`. -/
def taken (k : Mem) (apd : ℕ) (sup : ThreadSupply) : ℕ :=
  if (k.apd.cell apd).threads ≠ 0 then (k.apdThread.cell (k.apd.cell apd).threads).mthread
  else sup.mthread

/-- What finding a structure for a thread does to others than `x`: a new task may need one more,
which was not in memory and names no parent. -/
structure Fetched (x : ℕ) (k k' : Mem) : Prop where
  head : k'.mungiThreads = k.mungiThreads
  kin : ∀ q, k.mthread.live q = true → q ≠ x →
    (k'.mthread.cell q).tid = (k.mthread.cell q).tid ∧ k'.buckets.next q = k.buckets.next q ∧
      k'.buckets.pprev q = k.buckets.pprev q
  parents : ∀ q, q ≠ x → k'.parentOf q = k.parentOf q ∨ k'.parentOf q = 0

theorem Fetched.sameKin (h : Fetched x k k') (hk : SameKin k' k'') : Fetched x k k'' where
  head := (congrArg Buckets.head hk.buckets).trans h.head
  kin := fun q hq hne => by
    rw [hk.buckets, hk.tid]
    exact h.kin q hq hne
  parents := fun q hne => by
    unfold parentOf
    rw [hk.parent]
    exact h.parents q hne

/-- Other structures stay as they are. -/
theorem Fetched.of_cell (hhead : k'.mungiThreads = k.mungiThreads)
    (hcell : ∀ q, q ≠ x → k'.mthread.cell q = k.mthread.cell q) : Fetched x k k' where
  head := hhead
  kin := fun q _ hne => by
    unfold buckets
    dsimp only
    rw [hcell q hne]
    exact ⟨rfl, rfl, rfl⟩
  parents := fun q hne => by
    unfold parentOf
    rw [hcell q hne]
    exact Or.inl rfl

theorem taskNew_fetched (h : k.taskNew c sup = some (t, k')) :
    k'.mungiThreads = k.mungiThreads ∧
      ∀ q, k'.mthread.cell q = k.mthread.cell q ∨
        k.mthread.live q = false ∧ (k'.mthread.cell q).parent = 0 := by
  unfold taskNew at h
  by_cases htask : sup.task = 0
  · rw [if_pos htask] at h
    rw [← (Prod.mk.inj (Option.some.inj h)).2]
    exact ⟨rfl, fun _ => Or.inl rfl⟩
  · rw [if_neg htask] at h
    obtain ⟨task, -, h⟩ := Option.bind_eq_some_iff.mp h
    dsimp only at h
    by_cases hupcall : sup.upcall = 0
    · rw [if_pos hupcall] at h
      rw [← (Prod.mk.inj (Option.some.inj h)).2]
      exact ⟨rfl, fun _ => Or.inl rfl⟩
    · rw [if_neg hupcall] at h
      obtain ⟨mthread, halloc, h⟩ := Option.map_eq_some_iff.mp h
      have hcell : ∀ q, mthread.cell q = k.mthread.cell q ∨
          k.mthread.live q = false ∧ (mthread.cell q).parent = 0 := by
        intro q
        by_cases hq : q = sup.upcall
        · rw [hq, Heap.cell_alloc_self halloc]
          exact Or.inr ⟨(Heap.alloc_eq_some.mp halloc).1, rfl⟩
        · exact Or.inl (Heap.cell_alloc_of_ne halloc hq)
      split at h
      all_goals
        rw [← (Prod.mk.inj h).2]
        exact ⟨rfl, hcell⟩

theorem findTask_fetched {isNew : Bool} (h : k.findTask c fuel a sup = some ((t, isNew), k')) :
    k'.mungiThreads = k.mungiThreads ∧
      ∀ q, k'.mthread.cell q = k.mthread.cell q ∨
        k.mthread.live q = false ∧ (k'.mthread.cell q).parent = 0 := by
  obtain ⟨t₀, -, h⟩ := Option.bind_eq_some_iff.mp h
  split_ifs at h with ht
  · rw [← (Prod.mk.inj (Option.some.inj h)).2]
    exact ⟨rfl, fun _ => Or.inl rfl⟩
  · obtain ⟨⟨r, k₁⟩, hnew, h⟩ := Option.map_eq_some_iff.mp h
    have hnew := taskNew_fetched hnew
    dsimp only at h
    split_ifs at h
    all_goals
      rw [← (Prod.mk.inj h).2]
      exact hnew

theorem makeMthread_fetched {isNew : Bool}
    (h : k.makeMthread c fuel a parent sup = some ((m, isNew), k')) :
    Fetched sup.mthread k k' ∧ (m ≠ 0 → m = sup.mthread ∧ k'.parentOf m = parent) := by
  unfold makeMthread at h
  by_cases hnone : sup.mthread = 0
  · rw [if_pos hnone] at h
    obtain ⟨heq, rfl⟩ := Prod.mk.inj (Option.some.inj h)
    obtain ⟨rfl, -⟩ := Prod.mk.inj heq
    exact ⟨.of_cell rfl fun _ _ => rfl, fun h => absurd rfl h⟩
  · rw [if_neg hnone] at h
    obtain ⟨mthread, halloc, h⟩ := Option.bind_eq_some_iff.mp h
    obtain ⟨⟨⟨t, isNew'⟩, k₂⟩, hfind, h⟩ := Option.bind_eq_some_iff.mp h
    obtain ⟨hhead, hcell⟩ := findTask_fetched hfind
    have hother : ∀ q, q ≠ sup.mthread → mthread.cell q = k.mthread.cell q := fun q hq =>
      Heap.cell_alloc_of_ne halloc hq
    have hfetched : Fetched sup.mthread k k₂ := by
      refine ⟨hhead, fun q hlive hq => ?_, fun q hq => ?_⟩
      · rcases hcell q with hsame | ⟨hdead, -⟩
        · unfold buckets
          dsimp only
          rw [hsame]
          dsimp only [clearQueues]
          rw [hother q hq]
          exact ⟨rfl, rfl, rfl⟩
        · -- the structure for a new task is not one in use
          have hmid : mthread.live q = true := by
            rw [Heap.live_alloc halloc, if_neg hq, hlive]
          exact absurd (hmid.symm.trans hdead) nofun
      · unfold parentOf
        rcases hcell q with hsame | ⟨-, hzero⟩
        · rw [hsame]
          dsimp only [clearQueues]
          rw [hother q hq]
          exact Or.inl rfl
        · exact Or.inr hzero
    have hself : k₂.parentOf sup.mthread = parent := by
      unfold parentOf
      rcases hcell sup.mthread with hsame | ⟨hdead, -⟩
      · rw [hsame]
        dsimp only [clearQueues]
        rw [Heap.cell_alloc_self halloc]
      · have hmid : mthread.live sup.mthread = true := Heap.live_alloc_self halloc
        exact absurd (hmid.symm.trans hdead) nofun
    have hout : Fetched sup.mthread k { k₂ with mthread := k₂.mthread.free sup.mthread } :=
      hfetched.sameKin (.of_eq rfl rfl)
    dsimp only at h
    split_ifs at h
    · obtain ⟨heq, rfl⟩ := Prod.mk.inj (Option.some.inj h)
      obtain ⟨rfl, -⟩ := Prod.mk.inj heq
      exact ⟨hout, fun h => absurd rfl h⟩
    · obtain ⟨heq, rfl⟩ := Prod.mk.inj (Option.some.inj h)
      obtain ⟨rfl, -⟩ := Prod.mk.inj heq
      exact ⟨hout, fun h => absurd rfl h⟩
    · obtain ⟨apdThread, -, h⟩ := Option.map_eq_some_iff.mp h
      obtain ⟨heq, rfl⟩ := Prod.mk.inj h
      obtain ⟨rfl, -⟩ := Prod.mk.inj heq
      have hset : SameKin k₂ ({ k₂ with apdThread }.modThread sup.mthread fun s =>
          { s with apdThreadinfo := sup.apdThread, task := t }) := by
        have hentry : SameKin k₂ { k₂ with apdThread } := .of_eq rfl rfl
        refine hentry.modThread _ ?_
        exact fun _ => ⟨rfl, rfl, rfl, rfl⟩
      exact ⟨hfetched.sameKin hset, fun _ => ⟨rfl, (hset.parent _).trans hself⟩⟩

theorem threadGetMthread_fetched {got : GotMthread}
    (h : k.threadGetMthread c fuel a parent sup = some (got, k')) :
    Fetched (k.taken a sup) k k' ∧
      (got.new ≠ 0 → got.new = k.taken a sup ∧ k'.parentOf got.new = parent) := by
  unfold threadGetMthread at h
  have hthreads : ((k.modApd a fun x => { x with users := x.users + 1 }).apd.cell a).threads
      = (k.apd.cell a).threads := by
    dsimp only
    rw [Heap.cell_modify_self]
  unfold taken
  dsimp only [] at h
  by_cases hpool : (k.apd.cell a).threads = 0
  · rw [if_neg (not_not.mpr (hthreads.trans hpool))] at h
    rw [if_neg (not_not.mpr hpool)]
    obtain ⟨⟨⟨m, isNew⟩, k₁⟩, hmake, heq⟩ := Option.map_eq_some_iff.mp h
    obtain ⟨rfl, rfl⟩ := Prod.mk.inj heq
    obtain ⟨hfetched, hnew⟩ := makeMthread_fetched hmake
    exact ⟨⟨hfetched.head, hfetched.kin, hfetched.parents⟩, hnew⟩
  · rw [if_pos (fun h0 => hpool (hthreads.symm.trans h0))] at h
    rw [if_pos hpool]
    obtain ⟨rfl, rfl⟩ := Prod.mk.inj (Option.some.inj h)
    have hnew : (takePooled (k.modApd a fun x => { x with users := x.users + 1 }) a parent).1
        = (k.apdThread.cell (k.apd.cell a).threads).mthread := by
      rw [← hthreads]
      rfl
    refine ⟨.of_cell rfl fun q hq => ?_, fun _ => ⟨hnew, ?_⟩⟩
    · rw [← hnew] at hq
      dsimp only [takePooled, clearQueues] at hq ⊢
      rw [Heap.cell_modify_of_ne hq]
    · unfold parentOf
      dsimp only [takePooled, clearQueues]
      rw [Heap.cell_modify_self]

/-! ### Putting it into the table -/

/-- The thread `m`, with the parent it was created by, is put into the table. -/
structure Entered (m parent : ℕ) (k k' : Mem) : Prop where
  ne : m ≠ 0
  tid : ∀ q, k.mthread.live q = true → q ≠ m → (k'.mthread.cell q).tid = (k.mthread.cell q).tid
  buckets : ∃ t : Buckets ℕ, t.head = k.buckets.head ∧
    (∀ q, k.mthread.live q = true → q ≠ m →
      t.next q = k.buckets.next q ∧ t.pprev q = k.buckets.pprev q) ∧
    k'.buckets = t.insert (k'.bucketOf m) m
  parents : ∀ q, q ≠ m → k'.parentOf q = k.parentOf q ∨ k'.parentOf q = 0
  self : k'.parentOf m = parent

theorem l4taskThreadAdd_table (h : k.l4taskThreadAdd c m = some k') :
    k'.buckets = k.buckets.insert (k'.bucketOf m) m ∧
      (∀ q, q ≠ m → (k'.mthread.cell q).tid = (k.mthread.cell q).tid) ∧
      ∀ q, k'.parentOf q = k.parentOf q := by
  obtain ⟨j, -, rfl⟩ := Option.map_eq_some_iff.mp h
  have hplace : (k.placeThread m j).buckets = k.buckets ∧
      (∀ q, q ≠ m → ((k.placeThread m j).mthread.cell q).tid = (k.mthread.cell q).tid) ∧
      ∀ q, (k.placeThread m j).parentOf q = k.parentOf q := by
    refine ⟨?_, fun q hq => ?_, fun q => ?_⟩
    · refine (k.buckets_modThread m _).trans (Buckets.ext rfl ?_ ?_)
      · exact Function.update_eq_self m k.buckets.next
      · exact Function.update_eq_self m k.buckets.pprev
    · dsimp only [placeThread]
      rw [Heap.cell_modify_of_ne hq]
    · dsimp only [placeThread, parentOf]
      refine Heap.modify_field (g := Mthread.parent) ?_ q
      exact fun _ => rfl
  obtain ⟨hbuckets, htid, hparent⟩ := hplace
  generalize k.placeThread m j = k₁ at hbuckets htid hparent ⊢
  have hnames := k₁.sameNames_threadHashInsert m
  refine ⟨?_, fun q hq => ?_, fun q => ?_⟩
  · rw [buckets_threadHashInsert, hbuckets]
    unfold bucketOf
    rw [hnames.tid]
  · rw [hnames.tid, htid q hq]
  · unfold parentOf at hparent ⊢
    rw [hnames.parent, hparent]

theorem sameKin_threadSetupStack (k : Mem) (thread supplied size : ℕ) (newTask : Bool)
    (sup : ThreadSupply) : SameKin k (k.threadSetupStack thread supplied size newTask sup).2 := by
  unfold threadSetupStack
  dsimp only
  split_ifs
  all_goals exact .of_eq rfl rfl

theorem sameKin_startTask (k : Mem) (thread : ℕ) (ret : L4Id) :
    SameKin k (k.startTask thread ret) := by
  unfold startTask
  have htask : SameKin k (k.modTask (k.mthread.cell thread).task fun t => { t with task := ret }) :=
    .of_eq rfl rfl
  refine htask.modThread thread ?_
  exact fun _ => ⟨rfl, rfl, rfl, rfl⟩

/-- A structure that was found is put into the table. -/
theorem Fetched.entered {k₁ k₂ k₃ : Mem} (hf : Fetched m k k₁) (hne : m ≠ 0)
    (hself : k₁.parentOf m = parent) (hk : SameKin k₁ k₂) (h : k₂.l4taskThreadAdd c m = some k₃)
    (hk' : SameKin k₃ k') : Entered m parent k k' := by
  obtain ⟨hbuckets, htid, hparent⟩ := l4taskThreadAdd_table h
  have hf₂ := hf.sameKin hk
  have hb : k'.bucketOf m = k₃.bucketOf m := by
    unfold bucketOf
    rw [hk'.tid]
  refine ⟨hne, fun q hq hqm => ?_, ⟨k₂.buckets, hf₂.head, fun q hq hqm => (hf₂.kin q hq hqm).2, ?_⟩,
    fun q hqm => ?_, ?_⟩
  · rw [hk'.tid, htid q hqm]
    exact (hf₂.kin q hq hqm).1
  · rw [hk'.buckets, hbuckets, hb]
  · unfold parentOf at hparent ⊢
    rw [hk'.parent, hparent]
    exact hf₂.parents q hqm
  · unfold parentOf at hparent hself ⊢
    rw [hk'.parent, hparent, hk.parent, hself]

/-- The creation got a structure for its thread, and fails nevertheless. -/
def Undone (c : ThreadConf) (k : Mem) (fuel apd parent : ℕ) (sup : ThreadSupply) (m : ℕ) : Prop :=
  m = 0 ∧ ∃ r ∈ k.threadGetMthread c fuel apd parent sup, r.1.new ≠ 0

instance (c : ThreadConf) (k : Mem) (fuel apd parent : ℕ) (sup : ThreadSupply) (m : ℕ) :
    Decidable (k.Undone c fuel apd parent sup m) :=
  inferInstanceAs (Decidable (_ ∧ ∃ r ∈ k.threadGetMthread c fuel apd parent sup, r.1.new ≠ 0))

/-- **What `thread_create` does to the table.** -/
theorem threadCreate_table {supplied size : ℕ} {start : Option (L4Id × ℕ)}
    (h : k.threadCreate c fuel a parent supplied size sup = some ((m, start), k')) :
    k.Undone c fuel a parent sup m ∨ (m = 0 ∧ Fetched (k.taken a sup) k k') ∨
      m = k.taken a sup ∧ Entered m parent k k' := by
  obtain ⟨⟨got, k₁⟩, hget, h⟩ := Option.bind_eq_some_iff.mp h
  obtain ⟨hf, htaken⟩ := threadGetMthread_fetched hget
  dsimp only at h
  by_cases hnew : got.new = 0
  · rw [if_pos hnew] at h
    obtain ⟨heq, rfl⟩ := Prod.mk.inj (Option.some.inj h)
    exact Or.inr (Or.inl ⟨(Prod.mk.inj heq).1.symm, hf⟩)
  · rw [if_neg hnew] at h
    obtain ⟨hm, hself⟩ := htaken hnew
    obtain ⟨k₂, hadd, h⟩ := Option.map_eq_some_iff.mp h
    have hs := k₁.sameKin_threadSetupStack got.new supplied size got.newTask sup
    rw [← hm] at hf ⊢
    have hundone : ∀ k₃, ((0, none), k₃) = ((m, start), k') → k.Undone c fuel a parent sup m := by
      intro k₃ heq
      exact ⟨(Prod.mk.inj (Prod.mk.inj heq).1).1.symm, _, hget, hnew⟩
    have hcreated : ∀ (k₃ : Mem) s, SameKin k₂ k₃ →
        ((got.new, s), k₃.emit (.created got.new a)) = ((m, start), k') →
          m = got.new ∧ Entered m parent k k' := by
      intro k₃ s h₃ hout
      obtain ⟨heq, rfl⟩ := Prod.mk.inj hout
      obtain ⟨rfl, -⟩ := Prod.mk.inj heq
      exact ⟨rfl, hf.entered hnew hself hs hadd (h₃.trans (.of_eq rfl rfl))⟩
    split_ifs at h
    · cases hstarted : sup.started with
      | none =>
        rw [hstarted] at h
        exact Or.inl (hundone _ h)
      | some ret =>
        rw [hstarted] at h
        exact Or.inr (Or.inr (hcreated _ _ (k₂.sameKin_startTask _ ret) h))
    · exact Or.inr (Or.inr (hcreated _ _ (.refl k₂) h))
    · exact Or.inl (hundone _ h)
    · exact Or.inr (Or.inr (hcreated _ _ (.refl k₂) h))

/-- **What `thread_pdx_create` does to the table.** -/
theorem threadPdxCreate_table (h : k.threadPdxCreate c fuel a parent sup = some (m, k')) :
    k.Undone c fuel a parent sup m ∨ (m = 0 ∧ Fetched (k.taken a sup) k k') ∨
      m = k.taken a sup ∧ Entered m parent k k' := by
  obtain ⟨⟨got, k₁⟩, hget, h⟩ := Option.bind_eq_some_iff.mp h
  obtain ⟨hf, htaken⟩ := threadGetMthread_fetched hget
  dsimp only at h
  by_cases hnew : got.new = 0
  · rw [if_pos hnew] at h
    obtain ⟨heq, rfl⟩ := Prod.mk.inj (Option.some.inj h)
    exact Or.inr (Or.inl ⟨heq.symm, hf⟩)
  · rw [if_neg hnew] at h
    obtain ⟨hm, hself⟩ := htaken hnew
    obtain ⟨k₂, hadd, h⟩ := Option.map_eq_some_iff.mp h
    have hs : SameKin k₁ ((k₁.modThread got.new fun t => { t with PDX := parent }).threadSetupStack
        got.new 0 mthreadStackSize got.newTask sup).2 := by
      refine SameKin.trans ?_ (sameKin_threadSetupStack _ _ _ _ _ _)
      refine (SameKin.refl k₁).modThread got.new ?_
      exact fun _ => ⟨rfl, rfl, rfl, rfl⟩
    rw [← hm] at hf ⊢
    have hundone : ∀ k₃, (0, k₃) = (m, k') → k.Undone c fuel a parent sup m := fun k₃ heq =>
      ⟨(Prod.mk.inj heq).1.symm, _, hget, hnew⟩
    have hcreated : ∀ (k₃ : Mem) (log : List Event), SameKin k₂ k₃ →
        (got.new, { k₃ with log }) = (m, k') → m = got.new ∧ Entered m parent k k' := by
      intro k₃ log h₃ heq
      obtain ⟨rfl, rfl⟩ := Prod.mk.inj heq
      exact ⟨rfl, hf.entered hnew hself hs hadd (h₃.trans (.of_eq rfl rfl))⟩
    split_ifs at h
    · cases hstarted : sup.started with
      | none =>
        rw [hstarted] at h
        exact Or.inl (hundone _ h)
      | some ret =>
        rw [hstarted] at h
        exact Or.inr (Or.inr (hcreated _ _ (k₂.sameKin_startTask _ ret) h))
    · exact Or.inl (hundone _ h)
    · exact Or.inr (Or.inr (hcreated k₂ _ (.refl k₂) h))

end Mem

end Mungi
