import Mathlib.Logic.Relation
import Mungi.Threads.Entering

/-!
# Authority over threads

A thread may delete, wake, wait for and look at the threads that it has created, and those that
they have created.  The kernel goes from a thread to its parent until it comes to the caller, but
the parent is a structure, which may be used for another thread in the meantime.

For the proofs every thread that is created gets a number of its own, and the number of its
creator is kept.  No function reads them.

## Main definitions

* `Mem.threadSleep`, `Mem.threadResume`, `Mem.threadInfo` — the other calls about threads.
* `Lined`, `lineStep` — the memory, and who has created whom.
* `Lined.Descends` — a thread was created by another one, or by its descendants.
* `Lined.Authority` — what the search of the kernel may find.
* `Lined.Rooted` — the condition on calls.

## Main results

* `authority_follows_creation` — **a thread has authority over its descendants only**, in all runs
  of such calls.
-/

namespace Mungi

open Chain Runs Mem

variable {O : Type} {c : ThreadConf} {k k' : Mem} {fuel m m' p q tid caller : ℕ}

namespace Mem

variable (k : Mem)

/-! ### The other calls -/

/-- `thread_resume`: the thread that `upcall_resume` is for, `none` for `fail`. -/
def threadResume (fuel tid caller : ℕ) : Option (Option L4Id) :=
  (k.threadFindMthreadFromParent fuel tid caller).map fun child =>
    if child = 0 ∨ (k.mthread.cell child).state ≠ .sleep then none
    else some (k.mthread.cell child).l4id

/-- `thread_info`: the thread whose information is copied, `none` for `fail`. -/
def threadInfo (fuel tid caller : ℕ) : Option (Option ℕ) :=
  (k.threadFindMthreadFromParent fuel tid caller).map fun child =>
    if child = 0 then none else some child

/-- What `thread_sleep` returns: whether the caller goes on, whether it succeeds, and the thread
and the time that `upcall_sleep` is for. -/
structure SleepReturn where
  callerReturn : Bool
  success : Bool
  upcall : Option (L4Id × ℕ)

/-- `thread_sleep` -/
def threadSleep (fuel tid time caller : ℕ) : Option (SleepReturn × Mem) :=
  (k.threadFindMthreadFromParent fuel tid caller).map fun child =>
    let upcall := some ((k.mthread.cell child).l4id, time)
    if child = 0 then (⟨true, false, none⟩, k)
    else if child = caller then
      (⟨false, true, if tid ≠ 0 then upcall else none⟩,
        k.modThread child fun t => { t with state := .sleep })
    else (⟨true, true, upcall⟩, k)

end Mem

/-- The calls of before, and the other ones. -/
inductive LineOp (O : Type) where
  | thread (op : ThreadOp O)
  | threadSleep (fuel tid time caller : ℕ)
  | threadResume (fuel tid caller : ℕ)
  | threadInfo (fuel tid caller : ℕ)

/-- The caller, and the thread that a call finds for it, 0 for none. -/
def Mem.found (k : Mem) : LineOp O → Option (ℕ × ℕ)
  | .thread (.threadDelete fuel _ tid _ caller) | .threadSleep fuel tid _ caller
  | .threadResume fuel tid caller | .threadInfo fuel tid caller =>
    (k.threadFindMthreadFromParent fuel tid caller).map fun child => (caller, child)
  | .thread (.threadWait fuel _ tid caller) =>
    if tid = 0 then some (caller, (waitqRemove k.waitq (.zombies caller)).1)
    else (k.threadFindMthreadFromParent fuel tid caller).map fun child => (caller, child)
  | _ => none

/-! ### Who has created whom -/

/-- The memory, the number of threads that were created, the number of the thread that a structure
was used for last, and for each thread the number of its creator, 0 for none. -/
structure Lined where
  mem : Mem
  count : ℕ
  self : ℕ → ℕ
  creator : ℕ → ℕ

/-- The first thread has not been created yet. -/
def Lined.start (mem : Mem) : Lined := ⟨mem, 0, fun _ => 0, fun _ => 0⟩

/-- The structure `m`, unless it is 0, is handed out for a thread that `parent` creates. -/
def Lined.born (s : Lined) (m parent : ℕ) (mem : Mem) : Lined :=
  if m = 0 then { s with mem }
  else
    { mem
      count := s.count + 1
      self := Function.update s.self m (s.count + 1)
      creator := Function.update s.creator (s.count + 1) (if parent = 0 then 0 else s.self parent) }

/-- One call. -/
def lineStep (c : ThreadConf) (s : Lined) : LineOp O → Option Lined
  | .thread (.threadCreate fuel apd parent supplied size sup) =>
    (s.mem.threadCreate c fuel apd parent supplied size sup).map fun r => s.born r.1.1 parent r.2
  | .thread (.threadPdxCreate fuel apd caller sup) =>
    (s.mem.threadPdxCreate c fuel apd caller sup).map fun r => s.born r.1 caller r.2
  | .thread op => (threadStep c s.mem op).map fun mem => { s with mem }
  | .threadSleep fuel tid time caller =>
    (s.mem.threadSleep fuel tid time caller).map fun r => { s with mem := r.2 }
  | .threadResume fuel tid caller => (s.mem.threadResume fuel tid caller).map fun _ => s
  | .threadInfo fuel tid caller => (s.mem.threadInfo fuel tid caller).map fun _ => s

/-- The thread `m` was created by `m'`, or by a thread that descends from it. -/
def Lined.Descends (s : Lined) (m m' : ℕ) : Prop :=
  Relation.TransGen (fun i j => 0 < j ∧ s.creator i = j) (s.self m) (s.self m')

/-- The search for a thread ends, and finds the caller, or a thread with the id that descends from
the caller. -/
structure Lined.Authority (s : Lined) : Prop where
  ends : ∀ tid caller, InUse s.mem.log caller →
    ∃ n, ∀ fuel, n < fuel → (s.mem.threadFindMthreadFromParent fuel tid caller).isSome
  found : ∀ fuel tid caller m, InUse s.mem.log caller →
    s.mem.threadFindMthreadFromParent fuel tid caller = some m → m ≠ 0 →
      (tid = 0 ∧ m = caller) ∨ InUse s.mem.log m ∧ (s.mem.mthread.cell m).tid = tid ∧
        (m = caller ∨ s.Descends m caller)

/-- The call leaves authority as it should be, and is about the caller or a thread that descends
from it. -/
def Lined.AuthorityAfter (c : ThreadConf) (s : Lined) (op : LineOp O) : Prop :=
  (∀ s', lineStep c s op = some s' → s'.Authority) ∧
    ∀ r ∈ s.mem.found op, InUse s.mem.log r.1 → r.2 ≠ 0 → r.2 = r.1 ∨ s.Descends r.2 r.1

/-- The structure is no ancestor of a thread in use. -/
def Mem.Unnamed (k : Mem) (m : ℕ) : Prop :=
  ∀ q ∈ (handedOut k.log).map Prod.fst, ¬ Reaches k.parentOf q m

/-- The call is about threads in use and APDs in memory.  A creation is for a thread in use, or the
kernel; `Fit` holds of the structure that it takes, and it does not fail when it has got it.  When a
thread waits for any other one, the first of its zombies is its child. -/
def Mem.RootedBy (Fit : Mem → ℕ → Prop) (c : ThreadConf) (k : Mem) : LineOp O → Prop
  | .thread op => k.Rightful c op ∧ match op with
    | .threadCreate fuel apd parent supplied size sup =>
      (parent = 0 ∨ InUse k.log parent) ∧ Fit k (k.taken apd sup) ∧
        ∀ r ∈ k.threadCreate c fuel apd parent supplied size sup,
          ¬ k.Undone c fuel apd parent sup r.1.1
    | .threadPdxCreate fuel apd caller sup =>
      InUse k.log caller ∧ Fit k (k.taken apd sup) ∧
        ∀ r ∈ k.threadPdxCreate c fuel apd caller sup, ¬ k.Undone c fuel apd caller sup r.1
    | .threadWait _ _ tid caller => tid = 0 → (waitqRemove k.waitq (.zombies caller)).1 ≠ 0 →
      k.parentOf (waitqRemove k.waitq (.zombies caller)).1 = caller
    | .sysThreadReturn _ _ _ _ | .threadDelete _ _ _ _ _ | .threadDie _ _ _ | .excptReg _ _
    | .apdFromTemplate _ _ _ | .apdFindOrCreate _ _ _ _ _ | .apdPdxMerge _ _ _ _ _ _
    | .apdClose _ _ => True
  | .threadSleep _ _ _ _ | .threadResume _ _ _ | .threadInfo _ _ _ => True

/-- The call is as said, and the structure that a creation takes is no ancestor of a thread in
use. -/
def Mem.Rooted (c : ThreadConf) (k : Mem) (op : LineOp O) : Prop := k.RootedBy Unnamed c op

/-- The parents of the threads in use come to an end within `n` steps, and the structure is not one
of them. -/
def Mem.UnnamedIn (n : ℕ) (k : Mem) (m : ℕ) : Prop :=
  ∀ q ∈ (handedOut k.log).map Prod.fst, seek k.parentOf (fun p => p = m) n q = some 0

instance (n : ℕ) (c : ThreadConf) (k : Mem) :
    ∀ op : LineOp O, Decidable (k.RootedBy (UnnamedIn n) c op)
  | .thread (.threadCreate ..) | .thread (.threadPdxCreate ..) | .thread (.sysThreadReturn ..)
  | .thread (.threadDelete ..) | .thread (.threadWait ..) | .thread (.threadDie ..)
  | .thread (.excptReg ..) | .thread (.apdFromTemplate ..) | .thread (.apdFindOrCreate ..)
  | .thread (.apdPdxMerge ..) | .thread (.apdClose ..) => by
    unfold Mem.RootedBy UnnamedIn
    infer_instance
  | .threadSleep .. | .threadResume .. | .threadInfo .. => .isTrue trivial

theorem Mem.RootedBy.rooted {n : ℕ} {op : LineOp O} (h : k.RootedBy (UnnamedIn n) c op) :
    k.Rooted c op := by
  have hfit : ∀ m, UnnamedIn n k m → k.Unnamed m := fun m hm q hq =>
    not_reaches_of_seek (hm q hq) (decide_eq_true rfl)
  cases op with
  | threadSleep | threadResume | threadInfo => trivial
  | thread op =>
    refine ⟨h.1, ?_⟩
    cases op with
    | threadCreate | threadPdxCreate => exact ⟨h.2.1, hfit _ h.2.2.1, h.2.2.2⟩
    | _ => exact h.2

/-! ### The invariant -/

/-- The table has the threads in use, and from such a thread the parents are the creators, as far
as they go. -/
structure Lined.Kindred (s : Lined) : Prop where
  table : s.mem.Tabled
  named : ∀ q, InUse s.mem.log q → 0 < s.self q
  bound : ∀ q, s.self q ≤ s.count
  older : ∀ i, 0 < i → i ≤ s.count → s.creator i < i
  line : ∀ q p, InUse s.mem.log q → Reaches s.mem.parentOf q p → s.mem.parentOf p = 0 ∨
    0 < s.self (s.mem.parentOf p) ∧ s.creator (s.self p) = s.self (s.mem.parentOf p)

namespace Lined.Kindred

variable {s : Lined}

theorem start (h : k.Booted) (htable : ∀ i, k.mungiThreads i = 0) : (start k).Kindred := by
  have hnone : ∀ q, ¬ InUse k.log q := by
    intro q hq
    unfold InUse at hq
    rw [h.log] at hq
    cases hq
  exact ⟨h.tabled htable, fun q hq => absurd hq (hnone q), fun _ => le_refl _,
    fun i hi hle => absurd hi (Nat.not_lt.mpr hle), fun q p hq => absurd hq (hnone q)⟩

/-- The threads that the parents lead to have numbers. -/
theorem self_pos (h : s.Kindred) (hq : InUse s.mem.log q) (hp : Reaches s.mem.parentOf q p) :
    0 < s.self p := by
  refine hp.induction (C := fun p => 0 < s.self p) (h.named q hq) fun z hz _ hne => ?_
  exact ((h.line q z hq hz).resolve_left hne).1

/-- **The parents lead to ancestors only.** -/
theorem descends (h : s.Kindred) (hq : InUse s.mem.log q) (hp : Reaches s.mem.parentOf q p) :
    p = q ∨ s.Descends q p := by
  refine hp.induction (C := fun p => p = q ∨ s.Descends q p) (Or.inl rfl) fun z hz hC hne => ?_
  have hlink := (h.line q z hq hz).resolve_left hne
  rcases hC with rfl | hC
  · exact Or.inr (.single hlink)
  · exact Or.inr (hC.tail hlink)

/-- **The parents of a thread come to an end.** -/
theorem chain (h : s.Kindred) (hq : InUse s.mem.log q) : ∃ l, IsChain s.mem.parentOf q l := by
  refine exists_isChain_of_rank s.self fun p hp => ?_
  rcases h.line q p hq hp with hzero | ⟨hpos, hcreator⟩
  · exact Or.inl hzero
  · right
    rw [← hcreator]
    exact h.older _ (h.self_pos hq hp) (h.bound p)

/-- **The search finds the caller and its descendants only.** -/
theorem found (h : s.Kindred) (hm : m ≠ 0)
    (hfind : s.mem.threadFindMthreadFromParent fuel tid caller = some m) :
    (tid = 0 ∧ m = caller) ∨ InUse s.mem.log m ∧ (s.mem.mthread.cell m).tid = tid ∧
      (m = caller ∨ s.Descends m caller) := by
  unfold threadFindMthreadFromParent at hfind
  split_ifs at hfind with htid
  · exact Or.inl ⟨htid, (Option.some.inj hfind).symm⟩
  · obtain ⟨child, hchild, hfind⟩ := Option.bind_eq_some_iff.mp hfind
    obtain ⟨ptr, hptr, hout⟩ := Option.map_eq_some_iff.mp hfind
    split_ifs at hout with hzero
    · exact absurd hout.symm hm
    · subst hout
      obtain ⟨l, hl, hmem⟩ := h.table (tid % threadHashsize)
      have hin := ((hmem child).mp (hl.chain.seek hchild hm)).1
      have htest := of_decide_eq_true (seek_test hptr hzero)
      rw [htest] at hptr hzero
      refine Or.inr ⟨hin, of_decide_eq_true (seek_test hchild hm), ?_⟩
      exact (h.descends hin (reaches_of_seek hptr hzero)).imp_left Eq.symm

/-- **The search ends.** -/
theorem ends (h : s.Kindred) (tid caller : ℕ) : ∃ n, ∀ fuel, n < fuel →
    (s.mem.threadFindMthreadFromParent fuel tid caller).isSome := by
  obtain ⟨n, child, hchild, hin⟩ := h.table.seek (fun p => (s.mem.mthread.cell p).tid = tid)
    (tid % threadHashsize)
  obtain ⟨l, hl⟩ : ∃ l, IsChain s.mem.parentOf child l := by
    by_cases hzero : child = 0
    · exact ⟨[], hzero⟩
    · exact h.chain (hin hzero).1
  refine ⟨max n l.length, fun fuel hfuel => ?_⟩
  have hfirst := hchild fuel (lt_of_le_of_lt (le_max_left _ _) hfuel)
  have hsecond := hl.seek_eq (fun p => p = caller) (lt_of_le_of_lt (le_max_right _ _) hfuel)
  unfold threadFindMthreadFromParent
  split_ifs
  · rfl
  · unfold threadFindFromMid
    rw [show seek (fun p => (s.mem.mthread.cell p).next)
      (fun p => decide ((s.mem.mthread.cell p).tid = tid)) fuel
        (s.mem.mungiThreads (tid % threadHashsize)) = some child from hfirst, Option.bind_some,
      show seek (fun p => (s.mem.mthread.cell p).parent) (fun p => decide (p = caller)) fuel child
        = some _ from hsecond]
    rfl

theorem authority (h : s.Kindred) : s.Authority :=
  ⟨fun tid caller _ => h.ends tid caller, fun _ _ _ _ _ hfind hm => h.found hm hfind⟩

/-! ### What the calls do -/

/-- Where no thread is created, the lineage stays. -/
theorem same (h : s.Kindred) (htable : k'.Tabled) (hnames : SameNames s.mem k')
    (hin : ∀ q, InUse k'.log q → InUse s.mem.log q) : Kindred { s with mem := k' } := by
  have hparent : k'.parentOf = s.mem.parentOf := funext hnames.parent
  refine ⟨htable, fun q hq => h.named q (hin q hq), h.bound, h.older, fun q p hq hp => ?_⟩
  dsimp only at hq hp ⊢
  rw [hparent] at hp ⊢
  exact h.line q p (hin q hq) hp

theorem idle (h : s.Kindred) (hi : Idle s.mem k') : Kindred { s with mem := k' } := by
  refine h.same ?_ hi.toSameNames fun q => (hi.inUse q).mp
  unfold Mem.Tabled
  rw [hi.buckets]
  refine h.table.congr hi.inUse rfl fun q hq => ⟨rfl, rfl, ?_⟩
  unfold bucketOf
  rw [hi.tid]

theorem reaped (h : s.Kindred) (hr : Reaped m s.mem k') : Kindred { s with mem := k' } := by
  refine h.same ?_ hr.toSameNames fun q hq => ((hr.inUse q).mp hq).1
  unfold Mem.Tabled
  rw [hr.buckets]
  refine (h.table.remove hr.was).congr hr.inUse rfl fun q hq => ⟨rfl, rfl, ?_⟩
  unfold bucketOf
  rw [hr.tid]

/-- Threads in use are in memory, and not the structure that is taken. -/
theorem other {x : ℕ} (hp : Placed (handedOut s.mem.log) s.mem) (hx : s.mem.Unnamed x)
    (hq : InUse s.mem.log q) : s.mem.mthread.live q = true ∧ q ≠ x := by
  obtain ⟨a, hqa⟩ := hq.home
  obtain ⟨-, e, he⟩ := hp.home q a hqa
  refine ⟨he.thread, ?_⟩
  rintro rfl
  exact hx q hq (.here he.ne)

/-- From the threads in use the parents lead where they did, if only a structure that is no
ancestor gets another parent. -/
theorem reaches {x : ℕ} (hx : s.mem.Unnamed x)
    (hparents : ∀ q, q ≠ x → k'.parentOf q = s.mem.parentOf q ∨ k'.parentOf q = 0)
    (hq : InUse s.mem.log q) (hp : Reaches k'.parentOf q p) :
    Reaches s.mem.parentOf q p ∧ p ≠ x := by
  have hne : ∀ z, Reaches s.mem.parentOf q z → z ≠ x := by
    rintro z hz rfl
    exact hx q hq hz
  have hreach := hp.of_cut fun z hz => hparents z (hne z hz)
  exact ⟨hreach, hne p hreach⟩

/-- A creation that gets no structure. -/
theorem fetched {x : ℕ} (h : s.Kindred) (hp : Placed (handedOut s.mem.log) s.mem)
    (hx : s.mem.Unnamed x) (hf : Fetched x s.mem k') (hlog : k'.log = s.mem.log) :
    Kindred { s with mem := k' } := by
  refine ⟨?_, fun q hq => ?_, h.bound, h.older, fun q p hq hreach => ?_⟩
  · refine h.table.congr (fun q => by rw [hlog]) hf.head fun q hq => ?_
    obtain ⟨hlive, hne⟩ := other hp hx hq
    obtain ⟨htid, hnext, hpprev⟩ := hf.kin q hlive hne
    refine ⟨hnext, hpprev, ?_⟩
    unfold bucketOf
    rw [htid]
  · dsimp only at hq
    rw [hlog] at hq
    exact h.named q hq
  · dsimp only at hq hreach ⊢
    rw [hlog] at hq
    obtain ⟨hreach, hne⟩ := reaches hx hf.parents hq hreach
    rcases hf.parents p hne with hsame | hzero
    · rw [hsame]
      exact h.line q p hq hreach
    · exact Or.inl hzero

/-- **A new thread descends from its creator.** -/
theorem entered {parent : ℕ} (h : s.Kindred) (hp : Placed (handedOut s.mem.log) s.mem)
    (hm : s.mem.Unnamed m) (hparent : parent = 0 ∨ InUse s.mem.log parent)
    (he : Entered m parent s.mem k') (hlog : ∀ q, InUse k'.log q ↔ q = m ∨ InUse s.mem.log q) :
    (s.born m parent k').Kindred := by
  obtain ⟨t, hhead, hlinks, hbuckets⟩ := he.buckets
  have hold : ∀ q, q ≠ m → Function.update s.self m (s.count + 1) q = s.self q := fun q hq =>
    Function.update_of_ne hq ..
  have hnew : ∀ q, s.self q ≠ s.count + 1 := fun q => Nat.ne_of_lt (Nat.lt_succ_of_le (h.bound q))
  have hcreator : ∀ q, Function.update s.creator (s.count + 1)
      (if parent = 0 then 0 else s.self parent) (s.self q) = s.creator (s.self q) := fun q =>
    Function.update_of_ne (hnew q) ..
  -- what holds of the ancestors of the threads that were in use
  have hline : ∀ q p, InUse s.mem.log q → Reaches k'.parentOf q p → k'.parentOf p = 0 ∨
      0 < Function.update s.self m (s.count + 1) (k'.parentOf p) ∧
        Function.update s.creator (s.count + 1) (if parent = 0 then 0 else s.self parent)
          (Function.update s.self m (s.count + 1) p)
            = Function.update s.self m (s.count + 1) (k'.parentOf p) := by
    intro q p hq hreach
    obtain ⟨hreach, hne⟩ := reaches hm he.parents hq hreach
    rcases he.parents p hne with hsame | hzero
    · rw [hsame]
      by_cases hzero : s.mem.parentOf p = 0
      · exact Or.inl hzero
      · have hpm : s.mem.parentOf p ≠ m := by
          intro heq
          exact hm q hq (heq ▸ hreach.step hzero)
        rw [hold _ hpm, hold p hne, hcreator]
        exact h.line q p hq hreach
    · exact Or.inl hzero
  unfold Lined.born
  rw [if_neg he.ne]
  refine ⟨?_, fun q hq => ?_, fun q => ?_, fun i hi hle => ?_, fun q p hq hreach => ?_⟩
  · unfold Mem.Tabled
    dsimp only
    rw [hbuckets]
    have ht : t.Holds (InUse s.mem.log) k'.bucketOf := by
      refine h.table.congr (fun _ => Iff.rfl) hhead fun q hq => ?_
      obtain ⟨hlive, hne⟩ := other hp hm hq
      refine ⟨(hlinks q hlive hne).1, (hlinks q hlive hne).2, ?_⟩
      unfold bucketOf
      rw [he.tid q hlive hne]
    refine (ht.insert (fun hq => (other hp hm hq).2 rfl) he.ne rfl fun _ _ => rfl).congr hlog rfl ?_
    exact fun _ _ => ⟨rfl, rfl, rfl⟩
  · dsimp only at hq ⊢
    rw [Function.update_apply]
    split_ifs with hqm
    · exact Nat.succ_pos _
    · exact h.named q (((hlog q).mp hq).resolve_left hqm)
  · dsimp only
    rw [Function.update_apply]
    split_ifs
    · exact le_refl _
    · exact Nat.le_succ_of_le (h.bound q)
  · dsimp only at hle ⊢
    rw [Function.update_apply]
    split_ifs with hlast hzero
    · exact hi
    · rw [hlast]
      exact Nat.lt_succ_of_le (h.bound parent)
    · exact h.older i hi (Nat.le_of_lt_succ (lt_of_le_of_ne hle hlast))
  · dsimp only at hq hreach ⊢
    rcases (hlog q).mp hq with rfl | hq
    · cases hreach with
      | here =>
        rw [he.self]
        rcases hparent with hzero | hin
        · exact Or.inl hzero
        · obtain ⟨a, hpa⟩ := hin.home
          obtain ⟨-, e, hlinked⟩ := hp.home parent a hpa
          right
          rw [hold parent (other hp hm hin).2, Function.update_self, Function.update_self,
            if_neg hlinked.ne]
          exact ⟨h.named parent hin, rfl⟩
      | next _ hreach =>
        rw [he.self] at hreach
        rcases hparent with rfl | hin
        · exact absurd hreach not_reaches_zero
        · exact hline parent p hin hreach
    · exact hline q p hq hreach

end Lined.Kindred

/-! ### Runs -/

/-- The invariant of the proofs: that of the memory, and that of the lineage. -/
def Lined.Sound (s : Lined) : Prop := Owned EnoughUsers s.mem ∧ s.Kindred

variable {s s' : Lined}

/-- A call of `thread_create` or `thread_pdx_create`. -/
theorem Lined.Kindred.born {parent a : ℕ} {sup : ThreadSupply} (h : s.Kindred)
    (hp : Placed (handedOut s.mem.log) s.mem) (hparent : parent = 0 ∨ InUse s.mem.log parent)
    (hx : s.mem.Unnamed (s.mem.taken a sup)) (hundone : ¬ s.mem.Undone c fuel a parent sup m)
    (hout : handedOut k'.log = if m = 0 then handedOut s.mem.log
      else (m, a) :: handedOut s.mem.log) (hlog : m = 0 → k'.log = s.mem.log)
    (htable : s.mem.Undone c fuel a parent sup m ∨ (m = 0 ∧ Fetched (s.mem.taken a sup) s.mem k') ∨
      m = s.mem.taken a sup ∧ Entered m parent s.mem k') : (s.born m parent k').Kindred := by
  rcases htable with h0 | ⟨hm, hf⟩ | ⟨hm, he⟩
  · exact absurd h0 hundone
  · unfold Lined.born
    rw [if_pos hm]
    exact h.fetched hp hx hf (hlog hm)
  · refine h.entered hp (hm ▸ hx) hparent he fun q => ?_
    unfold InUse
    rw [hout, if_neg he.ne, List.map_cons, List.mem_cons]

/-- A call that creates no thread. -/
theorem Lined.Sound.plain {op : ThreadOp O} (h : s.Sound) (hr : s.mem.Rightful c op)
    (hstep : threadStep c s.mem op = some k')
    (htable : Idle s.mem k' ∨ ∃ m, Reaped m s.mem k') : Lined.Sound { s with mem := k' } := by
  refine ⟨h.1.step_rightful hr hstep, ?_⟩
  rcases htable with hi | ⟨m, hm⟩
  · exact h.2.idle hi
  · exact h.2.reaped hm

/-- A thread that sleeps stays in the table. -/
theorem Lined.Sound.sleep {time : ℕ} {r : SleepReturn} (h : s.Sound)
    (hcall : s.mem.threadSleep fuel tid time caller = some (r, k')) :
    Lined.Sound { s with mem := k' } := by
  obtain ⟨child, -, heq⟩ := Option.map_eq_some_iff.mp hcall
  dsimp only at heq
  by_cases hzero : child = 0
  · rw [if_pos hzero] at heq
    rw [← (Prod.mk.inj heq).2]
    exact h
  rw [if_neg hzero] at heq
  by_cases hself : child = caller
  · rw [if_pos hself] at heq
    rw [← (Prod.mk.inj heq).2]
    refine ⟨h.1.frame ((Frame.refl _).modThread child ?_), h.2.idle (SameKin.idle ?_ rfl)⟩
    · exact fun _ => ⟨rfl, rfl, rfl, rfl⟩
    · refine (SameKin.refl _).modThread child ?_
      exact fun _ => ⟨rfl, rfl, rfl, rfl⟩
  · rw [if_neg hself] at heq
    rw [← (Prod.mk.inj heq).2]
    exact h

/-- **One call keeps the lineage.** -/
theorem Lined.Sound.step {op : LineOp O} (h : s.Sound) (hr : s.mem.Rooted c op)
    (hstep : lineStep c s op = some s') : s'.Sound := by
  have hnodup := h.1.placed.nodup
  cases op with
  | threadSleep fuel tid time caller =>
    obtain ⟨⟨r, k₁⟩, hcall, rfl⟩ := Option.map_eq_some_iff.mp hstep
    exact h.sleep hcall
  | threadResume fuel tid caller =>
    obtain ⟨r, -, rfl⟩ := Option.map_eq_some_iff.mp hstep
    exact h
  | threadInfo fuel tid caller =>
    obtain ⟨r, -, rfl⟩ := Option.map_eq_some_iff.mp hstep
    exact h
  | thread op =>
    obtain ⟨hright, hr⟩ := hr
    cases op with
    | threadCreate fuel apd parent supplied size sup =>
      obtain ⟨⟨⟨m, start⟩, k₁⟩, hcreate, rfl⟩ := Option.map_eq_some_iff.mp hstep
      obtain ⟨hparent, hx, hundone⟩ := hr
      have hlog : k₁.log = (if m = 0 then [] else [.created m apd]) ++ s.mem.log :=
        (threadCreate_begun hcreate).apart.log
      have hborn := h.2.born h.1.placed hparent hx (hundone _ hcreate)
        (by rw [hlog]; split_ifs <;> rfl) (fun hm => by rw [hlog, if_pos hm]; rfl)
        (threadCreate_table hcreate)
      refine ⟨?_, hborn⟩
      have ho := h.1.threadCreate enoughUsers_tally hright (fun _ => EnoughUsers.leak) hcreate
      unfold Lined.born
      split_ifs
      all_goals exact ho
    | threadPdxCreate fuel apd caller sup =>
      obtain ⟨⟨m, k₁⟩, hcreate, rfl⟩ := Option.map_eq_some_iff.mp hstep
      obtain ⟨hcaller, hx, hundone⟩ := hr
      have hlog : k₁.log = (if m = 0 then [] else
          [.called m caller (k₁.mthread.cell caller).l4id, .created m apd]) ++ s.mem.log :=
        (threadPdxCreate_begun hcreate).apart.log
      have hborn := h.2.born h.1.placed (Or.inr hcaller) hx (hundone _ hcreate)
        (by rw [hlog]; split_ifs <;> rfl) (fun hm => by rw [hlog, if_pos hm]; rfl)
        (threadPdxCreate_table hcreate)
      refine ⟨?_, hborn⟩
      have ho := h.1.threadPdxCreate enoughUsers_tally hright (fun _ => EnoughUsers.leak) hcreate
      unfold Lined.born
      split_ifs
      all_goals exact ho
    | sysThreadReturn fuel item status thread =>
      obtain ⟨k₁, hs, rfl⟩ := Option.map_eq_some_iff.mp hstep
      exact h.plain hright hs (sysThreadReturn_table hnodup hright hs)
    | threadDelete fuel item tid status caller =>
      obtain ⟨k₁, hs, rfl⟩ := Option.map_eq_some_iff.mp hstep
      obtain ⟨⟨goes, k₂⟩, hd, rfl⟩ := Option.map_eq_some_iff.mp hs
      exact h.plain hright hs (threadDelete_table hnodup hright hd)
    | threadWait fuel item tid caller =>
      obtain ⟨k₁, hs, rfl⟩ := Option.map_eq_some_iff.mp hstep
      obtain ⟨⟨ret, k₂⟩, hw, rfl⟩ := Option.map_eq_some_iff.mp hs
      exact h.plain hright hs (threadWait_table hnodup hright hw)
    | threadDie fuel item thread =>
      obtain ⟨k₁, hs, rfl⟩ := Option.map_eq_some_iff.mp hstep
      exact h.plain hright hs ((threadDie_table hnodup hright hs).imp_right fun h => ⟨_, h⟩)
    | excptReg thread handler =>
      have hs : threadStep c s.mem (.excptReg thread handler : ThreadOp O)
          = some (s.mem.excptReg thread handler) := rfl
      obtain rfl := Option.some.inj hstep
      refine h.plain hright hs (Or.inl ?_)
      refine SameKin.idle ((SameKin.refl _).modThread thread ?_) rfl
      exact fun _ => ⟨rfl, rfl, rfl, rfl⟩
    | apdFromTemplate os pd sup =>
      obtain ⟨k₁, hs, rfl⟩ := Option.map_eq_some_iff.mp hstep
      obtain ⟨⟨a, k₂⟩, hm, rfl⟩ := Option.map_eq_some_iff.mp hs
      exact h.plain hright hs (Or.inl (apdFromTemplate_aside hm).idle)
    | apdFindOrCreate os fuel addr pd sup =>
      obtain ⟨k₁, hs, rfl⟩ := Option.map_eq_some_iff.mp hstep
      obtain ⟨⟨a, k₂⟩, hm, rfl⟩ := Option.map_eq_some_iff.mp hs
      exact h.plain hright hs (Or.inl (apdFindOrCreate_aside hm).idle)
    | apdPdxMerge fuel now now' orig clist sup =>
      obtain ⟨k₁, hs, rfl⟩ := Option.map_eq_some_iff.mp hstep
      obtain ⟨⟨a, k₂⟩, hm, rfl⟩ := Option.map_eq_some_iff.mp hs
      exact h.plain hright hs (Or.inl (apdPdxMerge_aside hm).idle)
    | apdClose fuel apd =>
      obtain ⟨k₁, hs, rfl⟩ := Option.map_eq_some_iff.mp hstep
      obtain ⟨⟨freed, k₂⟩, hm, rfl⟩ := Option.map_eq_some_iff.mp hs
      exact h.plain hright hs (Or.inl (apdClose_aside hm).idle)

/-- A call finds the caller, and its descendants. -/
theorem Lined.Sound.found {op : LineOp O} (h : s.Sound) (hr : s.mem.Rooted c op) {r : ℕ × ℕ}
    (hfound : r ∈ s.mem.found op) (hin : InUse s.mem.log r.1) (hne : r.2 ≠ 0) :
    r.2 = r.1 ∨ s.Descends r.2 r.1 := by
  have hsearch : ∀ {fuel tid caller}, (s.mem.threadFindMthreadFromParent fuel tid caller).map
      (fun child => (caller, child)) = some r → r.2 = r.1 ∨ s.Descends r.2 r.1 := by
    intro fuel tid caller hfind
    obtain ⟨child, hchild, rfl⟩ := Option.map_eq_some_iff.mp hfind
    rcases h.2.found hne hchild with ⟨-, heq⟩ | ⟨-, -, heq⟩
    · exact Or.inl heq
    · exact heq
  cases op with
  | threadSleep | threadResume | threadInfo => exact hsearch hfound
  | thread op =>
    cases op with
    | threadDelete fuel item tid status caller => exact hsearch hfound
    | threadWait fuel item tid caller =>
      unfold Mem.found at hfound
      dsimp only at hfound
      split_ifs at hfound with htid
      · obtain rfl := Option.some.inj hfound
        dsimp only at hin hne ⊢
        have hparent := hr.2 htid hne
        have hchild : InUse s.mem.log (waitqRemove s.mem.waitq (.zombies caller)).1 := by
          refine hr.1 _ ?_
          unfold waitTarget
          rw [if_pos htid]
          exact if_neg hne
        generalize (waitqRemove s.mem.waitq (.zombies caller)).1 = child at *
        obtain ⟨a, hca⟩ := hin.home
        obtain ⟨-, e, he⟩ := h.1.placed.home caller a hca
        have hlink := h.2.line child child hchild (.here hne)
        rw [hparent] at hlink
        exact Or.inr (.single (hlink.resolve_left he.ne))
      · exact hsearch hfound
    | _ => cases hfound

/-- **A thread has authority over its descendants only**, in every run of such calls. -/
theorem authority_follows_creation (c : ThreadConf) (k : Mem) (ops : List (LineOp O))
    (hboot : k.Booted) (htable : ∀ i, k.mungiThreads i = 0)
    (hops : Along (lineStep c) (fun s op => s.mem.Rooted c op) (.start k) ops) :
    Along (lineStep c) (Lined.AuthorityAfter c) (.start k) ops := by
  refine Along.mono (I := Lined.Sound) ?_ (fun s op s' h hr hs => h.step hr hs) ops _
    ⟨hboot.owned, .start hboot htable⟩ hops
  intro s op h hr
  exact ⟨fun s' hs => (h.step hr hs).2.authority, fun r hfound => h.found hr hfound⟩

/-- The thread with the id 2 creates another one, exits and is reaped, and its structure is used
again. -/
def parentReused : List (LineOp Unit) :=
  [.thread (.apdPdxMerge 5 0 0 0 ⟨7, 7⟩ (apdAt 100)),
    .thread (.threadCreate 5 100 0 0 0 (threadAt 10 30)),
    .thread (.threadCreate 5 100 10 0 0 (threadAt 12 31)),
    .thread (.threadCreate 5 100 12 0 0 (threadAt 14 32)),
    .thread (.threadDelete 5 50 2 0 10), .thread (.threadWait 5 51 0 10)]

/-- The thread that uses the structure has authority over the one that the other thread created. -/
theorem authority_over_stranger :
    ¬ ∀ (c : ThreadConf) (k : Mem) (ops : List (LineOp Unit)), k.Booted →
      (∀ i, k.mungiThreads i = 0) →
        Along (lineStep c) (Lined.AuthorityAfter c) (.start k) ops := by
  intro h
  have hend : (run (lineStep smallConf) (.start Mem.boot)
      (parentReused ++ [.thread (.threadCreate 5 100 10 0 0 (threadAt 16 33))])).map (fun s =>
        (decide (InUse s.mem.log 12), s.mem.threadFindMthreadFromParent 5 3 12,
          [s.self 14, s.self 12, s.creator 3, s.creator 2, s.creator 1]))
            = some (true, some 14, [3, 4, 2, 1, 0]) := by
    decide +kernel
  obtain ⟨s', hrun, hs'⟩ := Option.map_eq_some_iff.mp hend
  rw [run_concat] at hrun
  obtain ⟨s, hs, hcreate⟩ := Option.bind_eq_some_iff.mp hrun
  have hafter := (h smallConf Mem.boot
    (parentReused ++ [.thread (.threadCreate 5 100 10 0 0 (threadAt 16 33))]) Mem.boot_booted
    fun _ => rfl).at hs
  simp only [Prod.mk.injEq, decide_eq_true_eq, List.cons.injEq] at hs'
  obtain ⟨hin, hfind, hself, hcaller, h₃, h₂, h₁, -⟩ := hs'
  have hfound := (hafter.1 s' hcreate).found 5 3 12 14 hin hfind (by decide)
  -- the ancestors of the third thread are the second and the first
  have hancestors : ∀ j, Relation.TransGen (fun i j => 0 < j ∧ s'.creator i = j) 3 j →
      j = 2 ∨ j = 1 := by
    intro j hj
    induction hj with
    | single hlink => exact Or.inl (hlink.2.symm.trans h₃)
    | tail _ hlink ih =>
      rcases ih with rfl | rfl
      · exact Or.inr (hlink.2.symm.trans h₂)
      · rw [h₁] at hlink
        exact absurd hlink.2.symm (Nat.ne_of_gt hlink.1)
  rcases hfound with ⟨h0, -⟩ | ⟨-, -, heq | hdesc⟩
  · cases h0
  · cases heq
  · unfold Lined.Descends at hdesc
    rw [hself, hcaller] at hdesc
    rcases hancestors 4 hdesc with h4 | h4
    all_goals cases h4

/-- Threads are created over three generations, one is reaped and its structure used again. -/
def threeGenerations : List (LineOp Unit) :=
  [.thread (.apdPdxMerge 5 0 0 0 ⟨7, 7⟩ (apdAt 100)),
    .thread (.threadCreate 5 100 0 0 0 (threadAt 10 30)),
    .thread (.threadCreate 5 100 10 0 0 (threadAt 12 31)),
    .thread (.threadCreate 5 100 12 0 0 (threadAt 14 32)), .threadSleep 5 3 7 10,
    .threadInfo 5 3 10, .thread (.threadDelete 5 50 3 0 10), .thread (.threadWait 5 51 0 12),
    .thread (.threadCreate 5 100 10 0 0 (threadAt 16 33)), .threadSleep 5 0 7 12,
    .threadResume 5 2 10]

theorem authority_follows_creation_threeGenerations :
    Along (lineStep smallConf) (Lined.AuthorityAfter smallConf) (.start Mem.boot)
      threeGenerations := by
  refine authority_follows_creation smallConf Mem.boot threeGenerations Mem.boot_booted
    (fun _ => rfl) ?_
  have hops : Along (lineStep smallConf) (fun s op => s.mem.RootedBy (UnnamedIn 5) smallConf op)
      (.start Mem.boot) threeGenerations := by
    decide +kernel
  exact Along.mono (I := fun _ => True) (fun _ _ _ h => h.rooted) (fun _ _ _ _ _ _ => trivial)
    threeGenerations _ trivial hops

end Mungi
