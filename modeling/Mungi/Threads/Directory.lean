import Mungi.Threads.Entering

/-!
# The directory of threads

`l4task_thread_add` puts a thread into the hash table under the next thread id, and
`thread_hash_remove` takes it out; `thread_find_from_mid` looks for a thread id.  A structure
that is not in the table may be changed at will in between, its links included.  Thread ids are
64 bits wide, and after the last one they begin again, whether or not a thread still has the
first one.

## Main definitions

* `Directory`, `directoryStep` — the memory, with the threads in the table.
* `Directory.Sound` — what a directory is.
* `NewTid` — the calls for which it is one.

## Main results

* `directory_iff` — **when the table is a directory.**
-/

namespace Mungi

open Chain Runs Mem

/-! ### Runs -/

/-- The memory, and the threads in the table. -/
structure Directory where
  mem : Mem
  inTable : List ℕ

/-- What happens. -/
inductive DirectoryAct where
  /-- `l4task_thread_add` -/
  | add (thread : ℕ)
  /-- `thread_hash_remove` -/
  | remove (thread : ℕ)
  /-- Everything else that happens to the memory. -/
  | other (k : Mem)

/-- One action; `l4task_thread_add` needs a number for the thread in its task. -/
def directoryStep (c : ThreadConf) (s : Directory) : DirectoryAct → Option Directory
  | .add thread => (s.mem.l4taskThreadAdd c thread).map fun k => ⟨k, thread :: s.inTable⟩
  | .remove thread => some ⟨s.mem.threadHashRemove thread, s.inTable.erase thread⟩
  | .other k => some ⟨k, s.inTable⟩

/-- A thread is added when it is not in the table and removed when it is, and nothing else has to
do with the table, the ids and links of the threads in it, and the next id. -/
def DirectoryAllowed (s : Directory) : DirectoryAct → Prop
  | .add thread => thread ≠ 0 ∧ thread ∉ s.inTable
  | .remove thread => thread ∈ s.inTable
  | .other k => k.mungiThreads = s.mem.mungiThreads ∧ k.nextTid = s.mem.nextTid ∧
    ∀ m ∈ s.inTable, (k.mthread.cell m).tid = (s.mem.mthread.cell m).tid ∧
      (k.mthread.cell m).next = (s.mem.mthread.cell m).next ∧
      (k.mthread.cell m).pprev = (s.mem.mthread.cell m).pprev

/-- **What a directory is.**  The search for an id ends and finds the thread that is in the table
under it, or `NULL` when there is none; and each bucket leads to a list, which ends, of the threads
in the table with its hash value, each with the place that leads to it. -/
structure Directory.Sound (s : Directory) : Prop where
  found : ∀ tid, ∃ n m, (∀ fuel, n < fuel → s.mem.threadFindFromMid fuel tid = some m) ∧
    ∀ x, x ∈ s.inTable ∧ (s.mem.mthread.cell x).tid = tid ↔ x ≠ 0 ∧ x = m
  linked : s.mem.buckets.Holds (· ∈ s.inTable) s.mem.bucketOf

/-- **The id that a thread gets** is not that of a thread in the table. -/
def NewTid (s : Directory) : DirectoryAct → Prop
  | .add _ => ∀ x ∈ s.inTable, (s.mem.mthread.cell x).tid ≠ s.mem.nextTid
  | _ => True

instance (s : Directory) : ∀ act, Decidable (NewTid s act)
  | .add _ => inferInstanceAs (Decidable (∀ x ∈ s.inTable, _ ≠ _))
  | .remove _ => .isTrue trivial
  | .other _ => .isTrue trivial

/-! ### The invariant -/

section Step
variable {c : ThreadConf} {k k' : Mem} {s s' : Directory} {m : ℕ}

theorem nextTid_threadHashInsert (k : Mem) (m : ℕ) :
    (k.threadHashInsert m).nextTid = k.nextTid := by
  unfold threadHashInsert
  dsimp only
  split_ifs <;> rfl

/-- The id that a thread gets. -/
theorem l4taskThreadAdd_tid (h : k.l4taskThreadAdd c m = some k') :
    (k'.mthread.cell m).tid = k.nextTid ∧ k'.nextTid = (k.nextTid + 1) % 2 ^ 64 := by
  obtain ⟨j, -, rfl⟩ := Option.map_eq_some_iff.mp h
  constructor
  · rw [((k.placeThread m j).sameNames_threadHashInsert m).tid]
    dsimp only [placeThread]
    rw [Heap.cell_modify_self]
  · rw [nextTid_threadHashInsert]
    rfl

/-- The threads in the table have different ids. -/
structure Directory.Kept (s : Directory) : Prop where
  linked : s.mem.buckets.Holds (· ∈ s.inTable) s.mem.bucketOf
  nodup : s.inTable.Nodup
  nonzero : 0 ∉ s.inTable
  distinct : ∀ x ∈ s.inTable, ∀ y ∈ s.inTable,
    (s.mem.mthread.cell x).tid = (s.mem.mthread.cell y).tid → x = y

theorem Directory.Kept.sound (h : s.Kept) : s.Sound := by
  refine ⟨fun tid => ?_, h.linked⟩
  obtain ⟨l, hl, hmem⟩ := h.linked (tid % threadHashsize)
  have hseek : ∀ fuel, l.length < fuel → s.mem.threadFindFromMid fuel tid =
      some ((l.find? fun p => (s.mem.mthread.cell p).tid = tid).getD 0) := fun fuel hfuel =>
    hl.chain.seek_eq _ hfuel
  have hin : ∀ x, x ∈ s.inTable → (s.mem.mthread.cell x).tid = tid → x ∈ l := by
    intro x hx htid
    refine (hmem x).mpr ⟨hx, ?_⟩
    rw [bucketOf, htid]
  refine ⟨l.length, _, hseek, fun x => ?_⟩
  cases hfind : l.find? fun p => (s.mem.mthread.cell p).tid = tid with
  | none =>
    refine iff_of_false ?_ fun h => h.1 h.2
    rintro ⟨hx, htid⟩
    have := List.find?_eq_none.mp hfind x (hin x hx htid)
    simp [htid] at this
  | some y =>
    have hy := ((hmem y).mp (List.mem_of_find?_eq_some hfind)).1
    have htid : (s.mem.mthread.cell y).tid = tid := by simpa using List.find?_some hfind
    constructor
    · rintro ⟨hx, htid'⟩
      exact ⟨fun h0 => h.nonzero (h0 ▸ hx), h.distinct x hx y hy (htid'.trans htid.symm)⟩
    · rintro ⟨-, rfl⟩
      exact ⟨hy, htid⟩

/-- **A thread is added** under a new id. -/
theorem Directory.Kept.add (h : s.Kept) (hm : m ≠ 0) (hnot : m ∉ s.inTable)
    (hnew : NewTid s (.add m)) (hadd : s.mem.l4taskThreadAdd c m = some k') :
    Directory.Kept ⟨k', m :: s.inTable⟩ := by
  obtain ⟨hbuckets, htid, -⟩ := l4taskThreadAdd_table hadd
  obtain ⟨hself, -⟩ := l4taskThreadAdd_tid hadd
  have hold : ∀ x ∈ s.inTable, (k'.mthread.cell x).tid = (s.mem.mthread.cell x).tid :=
    fun x hx => htid x fun heq => hnot (heq ▸ hx)
  refine ⟨?_, List.nodup_cons.mpr ⟨hnot, h.nodup⟩, ?_, ?_⟩
  · dsimp only
    rw [hbuckets]
    have hput := h.linked.insert (f := k'.bucketOf) (b := k'.bucketOf m) hnot hm rfl fun y hy => by
      rw [bucketOf, bucketOf, hold y hy]
    exact hput.congr (fun x => List.mem_cons) rfl fun x _ => ⟨rfl, rfl, rfl⟩
  · rw [List.mem_cons, not_or]
    exact ⟨Ne.symm hm, h.nonzero⟩
  · dsimp only
    intro x hx y hy heq
    rcases List.mem_cons.mp hx with rfl | hxin
    · rcases List.mem_cons.mp hy with rfl | hyin
      · rfl
      · rw [hself, hold y hyin] at heq
        exact absurd heq.symm (hnew y hyin)
    · rcases List.mem_cons.mp hy with rfl | hyin
      · rw [hself, hold x hxin] at heq
        exact absurd heq (hnew x hxin)
      · rw [hold x hxin, hold y hyin] at heq
        exact h.distinct x hxin y hyin heq

/-- **A thread is removed.** -/
theorem Directory.Kept.remove (h : s.Kept) (hm : m ∈ s.inTable) :
    Directory.Kept ⟨s.mem.threadHashRemove m, s.inTable.erase m⟩ := by
  have hnames := s.mem.sameNames_threadHashRemove m
  refine ⟨?_, h.nodup.erase m, fun h0 => h.nonzero (List.mem_of_mem_erase h0), ?_⟩
  · dsimp only
    rw [buckets_threadHashRemove]
    refine (h.linked.remove hm).congr (fun x => ?_) rfl fun x _ => ⟨rfl, rfl, ?_⟩
    · rw [h.nodup.mem_erase_iff]
      exact and_comm
    · rw [bucketOf, bucketOf, hnames.tid]
  · dsimp only
    intro x hx y hy heq
    rw [hnames.tid, hnames.tid] at heq
    exact h.distinct x (List.mem_of_mem_erase hx) y (List.mem_of_mem_erase hy) heq

/-- **What happens to the rest of the memory** does not matter. -/
theorem Directory.Kept.other (h : s.Kept) (hallowed : DirectoryAllowed s (.other k)) :
    Directory.Kept ⟨k, s.inTable⟩ := by
  obtain ⟨htable, -, hsame⟩ := hallowed
  refine ⟨h.linked.congr (fun _ => Iff.rfl) htable fun x hx => ?_, h.nodup, h.nonzero, ?_⟩
  · obtain ⟨htid, hnext, hpprev⟩ := hsame x hx
    refine ⟨hnext, congrArg Link.place hpprev, ?_⟩
    rw [bucketOf, bucketOf, htid]
  · dsimp only
    intro x hx y hy heq
    rw [(hsame x hx).1, (hsame y hy).1] at heq
    exact h.distinct x hx y hy heq

theorem Directory.Kept.step (h : s.Kept) {act : DirectoryAct} (hallowed : DirectoryAllowed s act)
    (hnew : NewTid s act) (hstep : directoryStep c s act = some s') : s'.Kept := by
  cases act with
  | add m =>
    obtain ⟨k', hadd, rfl⟩ := Option.map_eq_some_iff.mp hstep
    exact h.add hallowed.1 hallowed.2 hnew hadd
  | remove m =>
    obtain rfl := Option.some.inj hstep
    exact h.remove hallowed
  | other k =>
    obtain rfl := Option.some.inj hstep
    exact h.other hallowed

/-- Two threads under one id are no directory. -/
theorem Directory.Sound.newTid {act : DirectoryAct} (hallowed : DirectoryAllowed s act)
    (hstep : directoryStep c s act = some s') (hsound : s'.Sound) : NewTid s act := by
  cases act with
  | add m =>
    intro x hx heq
    obtain ⟨k', hadd, rfl⟩ := Option.map_eq_some_iff.mp hstep
    have hxm : x ≠ m := fun h => hallowed.2 (h ▸ hx)
    obtain ⟨n, y, -, hiff⟩ := hsound.found s.mem.nextTid
    have hfirst := (hiff x).mp ⟨List.mem_cons_of_mem m hx, by
      rw [(l4taskThreadAdd_table hadd).2.1 x hxm, heq]⟩
    have hsecond := (hiff m).mp ⟨List.mem_cons_self, (l4taskThreadAdd_tid hadd).1⟩
    exact hxm (hfirst.2.trans hsecond.2.symm)
  | remove m => trivial
  | other k => trivial

end Step

/-- **The table of threads is a directory** in all states of a run just when no thread gets an id
that a thread in the table has. -/
theorem directory_iff (c : ThreadConf) {k : Mem} (hempty : ∀ i, k.mungiThreads i = 0)
    {acts : List DirectoryAct} {s : Directory}
    (hallowed : Along (directoryStep c) DirectoryAllowed ⟨k, []⟩ acts)
    (hrun : run (directoryStep c) ⟨k, []⟩ acts = some s) :
    (∀ acts₁ s₁, acts₁ <+: acts → run (directoryStep c) ⟨k, []⟩ acts₁ = some s₁ → s₁.Sound) ↔
      Along (directoryStep c) NewTid ⟨k, []⟩ acts := by
  refine reached_iff_along (I := Directory.Kept) (fun _ h => h.sound)
    (fun _ _ _ h hD hG hstep => h.step hD hG hstep)
    (fun _ _ _ _ hD hstep hsound => Directory.Sound.newTid hD hstep hsound)
    acts ⟨k, []⟩ s ?_ hallowed hrun
  have hnone : k.buckets.Holds (fun _ => False) k.bucketOf := Buckets.Holds.empty hempty
  refine ⟨hnone.congr (fun x => ?_) rfl nofun, List.nodup_nil, List.not_mem_nil, nofun⟩
  exact iff_of_false List.not_mem_nil id

/-! ### After the last thread id -/

/-- A memory in which every structure has a number in its task. -/
def numberedMem : Mem :=
  { Mem.boot with apdThread := ⟨fun _ => ⟨0, 1, 0, 0, 0, 0⟩, fun _ => false⟩ }

/-- A thread is added, found and removed, and one with the same bucket comes after it. -/
theorem directory_iff_numberedMem : ∃ s,
    run (directoryStep smallConf) ⟨numberedMem, []⟩ [.add 10, .add 11, .remove 10, .add 10]
        = some s ∧
      ∀ acts₁ s₁, acts₁ <+: [.add 10, .add 11, .remove 10, .add 10] →
        run (directoryStep smallConf) ⟨numberedMem, []⟩ acts₁ = some s₁ → s₁.Sound := by
  obtain ⟨s, hrun⟩ : ∃ s, run (directoryStep smallConf) ⟨numberedMem, []⟩
      [.add 10, .add 11, .remove 10, .add 10] = some s := ⟨_, rfl⟩
  refine ⟨s, hrun, (directory_iff smallConf (fun _ => rfl) ?_ hrun).mpr (by decide +kernel)⟩
  refine ⟨⟨by decide, List.not_mem_nil⟩, ?_⟩
  rintro s ⟨⟩
  refine ⟨⟨by decide, by decide⟩, ?_⟩
  rintro s ⟨⟩
  refine ⟨List.mem_cons_of_mem _ List.mem_cons_self, ?_⟩
  rintro s ⟨⟩
  exact ⟨⟨by decide, by decide⟩, fun _ _ => trivial⟩

/-- Thread 10 is in the table under the id 1, and `n` threads have come and gone. -/
structure LongLived (n : ℕ) (s : Directory) : Prop where
  inTable : s.inTable = [10]
  tid : (s.mem.mthread.cell 10).tid = 1
  nextTid : s.mem.nextTid = (n + 2) % 2 ^ 64
  numbered : ∀ e, (s.mem.apdThread.cell e).lthread = 1

/-- A thread that is added where every structure has a number. -/
theorem l4taskThreadAdd_numbered {k : Mem} (hk : ∀ e, (k.apdThread.cell e).lthread = 1) (m : ℕ) :
    ∃ k', k.l4taskThreadAdd smallConf m = some k' ∧ ∀ e, (k'.apdThread.cell e).lthread = 1 := by
  have hadd : k.l4taskThreadAdd smallConf m = some ((k.placeThread m 1).threadHashInsert m) := by
    unfold l4taskThreadAdd
    dsimp only
    rw [hk, if_neg (by decide), Option.map_some]
  have hentry : ((k.placeThread m 1).threadHashInsert m).apdThread
      = (k.placeThread m 1).apdThread := by
    unfold threadHashInsert
    dsimp only
    split_ifs <;> rfl
  refine ⟨_, hadd, fun e => ?_⟩
  rw [hentry]
  dsimp only [placeThread]
  rw [Heap.cell_modify]
  split_ifs
  · rfl
  · exact hk e

/-- What taking a thread out of the table leaves alone. -/
theorem threadHashRemove_rest (k : Mem) (m : ℕ) :
    (k.threadHashRemove m).nextTid = k.nextTid ∧
      (k.threadHashRemove m).apdThread = k.apdThread := by
  unfold threadHashRemove
  dsimp only
  cases (k.mthread.cell m).pprev <;> split_ifs <;> exact ⟨rfl, rfl⟩

/-- One more comes and goes. -/
theorem LongLived.step {n : ℕ} {s : Directory} (h : LongLived n s) :
    Along (directoryStep smallConf) DirectoryAllowed s [.add 11, .remove 11] ∧
      ∃ s', run (directoryStep smallConf) s [.add 11, .remove 11] = some s' ∧
        LongLived (n + 1) s' := by
  obtain ⟨k', hadd, hnumbered⟩ := l4taskThreadAdd_numbered h.numbered 11
  obtain ⟨-, hnext⟩ := l4taskThreadAdd_tid hadd
  have hold := (l4taskThreadAdd_table hadd).2.1 10 (by decide)
  obtain ⟨hnext', hentry'⟩ := threadHashRemove_rest k' 11
  have hstep : directoryStep smallConf s (.add 11) = some ⟨k', [11, 10]⟩ := by
    rw [directoryStep, hadd, h.inTable]
    rfl
  refine ⟨⟨⟨by decide, ?_⟩, fun s₁ hs₁ => ?_⟩, ⟨k'.threadHashRemove 11, [10]⟩, ?_, rfl, ?_, ?_, ?_⟩
  · rw [h.inTable]
    decide
  · obtain rfl := Option.some.inj (hstep.symm.trans hs₁)
    exact ⟨List.mem_cons_self, fun _ _ => trivial⟩
  · rw [run, hstep]
    rfl
  · dsimp only
    rw [(k'.sameNames_threadHashRemove 11).tid, hold, h.tid]
  · dsimp only
    rw [hnext', hnext, h.nextTid]
    omega
  · dsimp only
    rw [hentry']
    exact hnumbered

/-- Any number of threads come and go. -/
theorem longLived_reached (n : ℕ) : ∃ acts s,
    Along (directoryStep smallConf) DirectoryAllowed ⟨numberedMem, []⟩ acts ∧
      run (directoryStep smallConf) ⟨numberedMem, []⟩ acts = some s ∧ LongLived n s := by
  induction n with
  | zero =>
    obtain ⟨k', hadd, hnumbered⟩ := l4taskThreadAdd_numbered (k := numberedMem) (fun _ => rfl) 10
    obtain ⟨htid, hnext⟩ := l4taskThreadAdd_tid hadd
    refine ⟨[.add 10], ⟨k', [10]⟩, ⟨⟨by decide, List.not_mem_nil⟩, fun _ _ => trivial⟩, ?_, rfl,
      htid, hnext, hnumbered⟩
    rw [run, directoryStep, hadd]
    rfl
  | succ n ih =>
    obtain ⟨acts, s, hallowed, hrun, h⟩ := ih
    obtain ⟨hallowed', s', hrun', h'⟩ := h.step
    refine ⟨acts ++ [.add 11, .remove 11], s', hallowed.append fun s₁ hs₁ => ?_, ?_, h'⟩
    · obtain rfl := Option.some.inj (hrun.symm.trans hs₁)
      exact hallowed'
    · rw [run_append, hrun]
      exact hrun'

/-- **The first thread id comes again** while the first thread is still there, when all other ids
have been used. -/
theorem directory_not_sound : ¬ ∀ (c : ThreadConf) (k : Mem) (acts : List DirectoryAct)
    (s : Directory), (∀ i, k.mungiThreads i = 0) →
    Along (directoryStep c) DirectoryAllowed ⟨k, []⟩ acts →
    run (directoryStep c) ⟨k, []⟩ acts = some s → s.Sound := by
  intro hall
  obtain ⟨acts, s, hallowed, hrun, h⟩ := longLived_reached (2 ^ 64 - 1)
  obtain ⟨k', hadd, -⟩ := l4taskThreadAdd_numbered h.numbered 11
  have hstep : directoryStep smallConf s (.add 11) = some ⟨k', [11, 10]⟩ := by
    rw [directoryStep, hadd, h.inTable]
    rfl
  have hsound : Directory.Sound ⟨k', [11, 10]⟩ := by
    refine hall smallConf numberedMem (acts ++ [.add 11]) _ (fun _ => rfl) ?_ ?_
    · refine hallowed.append fun s₁ hs₁ => ?_
      obtain rfl := Option.some.inj (hrun.symm.trans hs₁)
      refine ⟨⟨by decide, ?_⟩, fun _ _ => trivial⟩
      rw [h.inTable]
      decide
    · rw [run_concat, hrun]
      exact hstep
  have hnext : s.mem.nextTid = 1 := by
    rw [h.nextTid]
    decide
  obtain ⟨n, m, -, hiff⟩ := hsound.found 1
  have hold := (l4taskThreadAdd_table hadd).2.1 10 (by decide)
  have hfirst := (hiff 10).mp ⟨by simp, hold.trans h.tid⟩
  have hsecond := (hiff 11).mp ⟨by simp, (l4taskThreadAdd_tid hadd).1.trans hnext⟩
  omega

end Mungi
