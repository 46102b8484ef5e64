import Mungi.Lib.Slots
import Mungi.Semaphore
import Mungi.WaitqFifo

/-!
# Semaphore blocks

The semaphores of an object come and go in one block, which `sem_create` gets from `kmalloc`
when the first one is made and `sem_delete` gives back with the last one.  Nobody clears the
block, so everything rests on what `kmalloc` finds in the memory: addresses and the count are
looked at at once, a queue pointer when its semaphore is made.  The loop of `sem_delete` that
wakes the threads takes an item off the queue as often as it finds one, and an item that does
not know the head of the queue stays.

## Main definitions

* `semCreateIn`, `semDelete` — `sem_create` and `sem_delete`, with the count.
* `SemLife`, `semLifeStep` — the life of a block, with the semaphores that should exist.
* `SemLife.Sound` — what is to hold at every moment.
* `SemFits` — the calls for which it does.

## Main results

* `createScan_eq` — what the loop of `sem_create` finds.
* `SemQueues.drain`, `SemQueues.drained` — when the loop of `sem_delete` ends.
* `semBlock_iff` — **when a block is sound.**
-/

namespace Mungi

open Chain Runs Slots

/-! ### The code -/

/-- What `kmalloc` finds in the memory of a block. -/
structure SemJunk where
  count : BitVec 32
  address : ℕ → ℕ
  value : ℕ → BitVec 32
  head : ℕ → ℕ

/-- The semaphores of an object, with `semp->count`. -/
structure SemBlock where
  obj : SemObj
  count : BitVec 32

/-- The block that `sem_create` looks at, a new one if there is none. -/
def SemBlock.block (b : SemBlock) (junk : SemJunk) : SemBlock :=
  if b.obj.semp then b
  else ⟨⟨false, junk.address, junk.value, { b.obj.waitq with head := junk.head }⟩, junk.count⟩

/-- `sem_create`; there is memory if it asks for a block. -/
def semCreateIn (b : SemBlock) (junk : SemJunk) (addr : ℕ) (value : BitVec 32) :
    SemRet × SemBlock :=
  let b := b.block junk
  let r := semCreate b.obj true addr value
  (r.1, ⟨r.2, if r.1 = .success then b.count + 1 else b.count⟩)

/-- The loop of `sem_delete` that takes the threads off a queue: the threads, which are sent
`fail`. -/
def waitqDrain {H : Type} [DecidableEq H] (q : H) : ℕ → Waitqs H → Option (List ℕ × Waitqs H)
  | 0, _ => none
  | n + 1, w =>
    let r := waitqRemove w q
    if r.1 = 0 then some ([], r.2)
    else (waitqDrain q n r.2).map fun r' => (r.1 :: r'.1, r'.2)

/-- `sem_delete`: whether it succeeds, and the threads that are sent `fail`. -/
def semDelete (b : SemBlock) (fuel addr : ℕ) : Option (Bool × List ℕ × SemBlock) :=
  if b.obj.semp = false then some (false, [], b)
  else
    match semFind b.obj addr with
    | none => some (false, [], b)
    | some i =>
      let count := b.count - 1
      (waitqDrain i fuel b.obj.waitq).map fun r =>
        let obj := { b.obj with address := Function.update b.obj.address i 0, waitq := r.2 }
        (true, r.1, ⟨if count = 0 then { obj with semp := false } else obj, count⟩)

/-! ### The life of a block -/

/-- A block, and what became of it. -/
structure SemLife where
  b : SemBlock
  /-- The addresses of the semaphores that exist. -/
  exist : List ℕ
  /-- So far the answers have been the right ones, and new semaphores as they should be. -/
  right : Bool
  /-- The calls of `sem_wait` so far. -/
  waits : ℕ

/-- The calls. -/
inductive SemAct where
  | create (addr : ℕ) (value : BitVec 32) (junk : SemJunk)
  | delete (addr : ℕ)
  /-- `item` is the answer of `kmalloc` in `waitq_add`. -/
  | wait (addr thread item : ℕ)
  /-- `sent` is whether the thread gets the message. -/
  | signal (addr : ℕ) (sent : Bool)

/-- The semaphore at `addr` has the value, and nobody waits for it. -/
def SemObj.freshAt (s : SemObj) (addr : ℕ) (value : BitVec 32) : Bool :=
  match semFind s addr with
  | none => false
  | some i => s.value i = value ∧ s.waitq.head i = 0

/-- One call; there is no next state when it does not return. -/
def semLifeStep (fuel : ℕ) (s : SemLife) : SemAct → Option SemLife
  | .create addr value junk =>
    let r := semCreateIn s.b junk addr value
    some { s with
      b := r.2
      exist := if r.1 = .success then s.exist ++ [addr] else s.exist
      right := s.right && decide (r.1 = .success ↔ s.exist.length < semMax ∧ addr ∉ s.exist) &&
        (decide (r.1 ≠ .success) || r.2.obj.freshAt addr value) }
  | .delete addr => (semDelete s.b fuel addr).map fun r =>
    { s with
      b := r.2.2
      exist := s.exist.erase addr
      right := s.right && decide (r.1 = true ↔ addr ∈ s.exist) }
  | .wait addr thread item => (semWait s.b.obj fuel addr thread item).map fun r =>
    { s with b := { s.b with obj := r.2.2 }, waits := s.waits + 1 }
  | .signal addr sent =>
    some { s with b := { s.b with obj := (semSignal s.b.obj addr sent).2.2 } }

/-- The calls that can be made: no address is `NULL`, who waits is a thread, `kmalloc` does not
return an item in use, and the loops may go on to the end of a queue. -/
def SemAllowed (fuel : ℕ) (s : SemLife) : SemAct → Prop
  | .create addr _ _ => addr ≠ 0
  | .delete addr => addr ≠ 0 ∧ s.waits < fuel
  | .wait addr thread item => addr ≠ 0 ∧ s.waits < fuel ∧ thread ≠ 0 ∧
    (item ≠ 0 → s.b.obj.waitq.items.live item = false)
  | .signal addr _ => addr ≠ 0

instance (fuel : ℕ) (s : SemLife) : ∀ act, Decidable (SemAllowed fuel s act)
  | .create _ _ _ => inferInstanceAs (Decidable (_ ≠ _))
  | .delete _ => inferInstanceAs (Decidable (_ ∧ _))
  | .wait _ _ _ => inferInstanceAs (Decidable (_ ∧ _ ∧ _ ∧ _))
  | .signal _ _ => inferInstanceAs (Decidable (_ ≠ _))

/-- **What is to hold at every moment.**  There is a block while a semaphore exists; its addresses
are those of the semaphores, each of them in one place, and its count is their number; and the
queue of each is a list of items in use. -/
structure SemLife.Sound (s : SemLife) : Prop where
  right : s.right = true
  block : s.b.obj.semp = true ↔ s.exist ≠ []
  table : s.b.obj.semp = true → ∀ a, a ≠ 0 →
    ((∃ i < semMax, s.b.obj.address i = a) ↔ a ∈ s.exist)
  distinct : s.b.obj.semp = true → ∀ i j, i < semMax → j < semMax → s.b.obj.address i ≠ 0 →
    s.b.obj.address i = s.b.obj.address j → i = j
  count : s.b.obj.semp = true → s.b.count = BitVec.ofNat 32 s.exist.length
  queues : s.b.obj.semp = true → ∀ i < semMax, s.b.obj.address i ≠ 0 →
    ∃ l, s.b.obj.waitq.Queue i l

/-- The first place of a block that is free. -/
def semFirst (s : SemObj) : Option ℕ := (List.range semMax).find? fun i => s.address i = 0

/-- At most one thread waits, and its item knows the head of the queue. -/
def Waitqs.OneKnows {H : Type} (w : Waitqs H) (q : H) : Prop :=
  w.head q = 0 ∨ w.next (w.head q) = 0 ∧ (w.items.cell (w.head q)).pprev = .head q

/-- **The calls that keep a block sound.**  Memory for a new block has no addresses and a count of
0, and where a semaphore is made the queue pointer is `NULL`; one is deleted when at most one thread
waits for it, whose item knows the head of the queue, and the first item does so too when it is
signalled. -/
def SemFits (s : SemLife) : SemAct → Prop
  | .create addr _ junk =>
    (s.b.obj.semp = false → (∀ i < semMax, junk.address i = 0) ∧ junk.count = 0) ∧
      (s.exist.length < semMax → addr ∉ s.exist → ∀ i, semFirst (s.b.block junk).obj = some i →
        (s.b.block junk).obj.waitq.head i = 0)
  | .delete addr => s.b.obj.semp = true → ∀ i, semFind s.b.obj addr = some i →
    s.b.obj.waitq.OneKnows i
  | .wait _ _ _ => True
  | .signal addr _ => s.b.obj.semp = true → ∀ i, semFind s.b.obj addr = some i →
    s.b.obj.waitq.head i ≠ 0 →
      (s.b.obj.waitq.items.cell (s.b.obj.waitq.head i)).pprev = .head i

/-! ### The queues of a block -/

/-- The queues in use: they share no items, and an item behind the first one does not know the
head of its queue. -/
structure SemQueues (w : Waitqs ℕ) (inUse : ℕ → Prop) (ls : ℕ → List ℕ) : Prop where
  queue : ∀ i, inUse i → w.Queue i (ls i)
  apart : ∀ i j, inUse i → inUse j → i ≠ j → ∀ p ∈ ls i, p ∉ ls j
  behind : ∀ i, inUse i → ∀ p ∈ (ls i).tail, (w.items.cell p).pprev ≠ .head i
  thread : ∀ i, inUse i → ∀ p ∈ ls i, (w.items.cell p).thread ≠ 0

section Queues
variable {w w' : Waitqs ℕ} {inUse inUse' : ℕ → Prop} {ls : ℕ → List ℕ} {i n fuel thread new : ℕ}

theorem SemQueues.mono (h : SemQueues w inUse ls) (hsub : ∀ i, inUse' i → inUse i) :
    SemQueues w inUse' ls :=
  ⟨fun i hi => h.queue i (hsub i hi), fun i j hi hj => h.apart i j (hsub i hi) (hsub j hj),
    fun i hi => h.behind i (hsub i hi), fun i hi => h.thread i (hsub i hi)⟩

/-- **One queue changes**, and the others stay. -/
theorem SemQueues.change {l : List ℕ} (h : SemQueues w inUse ls)
    (hsub : ∀ j, inUse' j → j ≠ i → inUse j)
    (hother : ∀ j, inUse j → j ≠ i → w'.Queue j (ls j) ∧ ∀ p ∈ ls j,
      (w'.items.cell p).pprev = (w.items.cell p).pprev ∧
        (w'.items.cell p).thread = (w.items.cell p).thread)
    (hqueue : w'.Queue i l) (hbehind : ∀ p ∈ l.tail, (w'.items.cell p).pprev ≠ .head i)
    (hthread : ∀ p ∈ l, (w'.items.cell p).thread ≠ 0)
    (hapart : ∀ j, inUse j → j ≠ i → ∀ p ∈ l, p ∉ ls j) :
    SemQueues w' inUse' (Function.update ls i l) := by
  have hself : Function.update ls i l i = l := Function.update_self ..
  have hrest : ∀ j, j ≠ i → Function.update ls i l j = ls j := fun j hne =>
    Function.update_of_ne hne ..
  refine ⟨fun j hj => ?_, fun j k hj hk hne p hp => ?_, fun j hj p hp => ?_, fun j hj p hp => ?_⟩
  · by_cases hji : j = i
    · rwa [hji, hself]
    · rw [hrest j hji]
      exact (hother j (hsub j hj hji) hji).1
  · by_cases hji : j = i
    · have hki : k ≠ i := fun heq => hne (hji.trans heq.symm)
      rw [hji, hself] at hp
      rw [hrest k hki]
      exact hapart k (hsub k hk hki) hki p hp
    · rw [hrest j hji] at hp
      by_cases hki : k = i
      · rw [hki, hself]
        exact fun hmem => hapart j (hsub j hj hji) hji p hmem hp
      · rw [hrest k hki]
        exact h.apart j k (hsub j hj hji) (hsub k hk hki) hne p hp
  · by_cases hji : j = i
    · rw [hji, hself] at hp
      rw [hji]
      exact hbehind p hp
    · rw [hrest j hji] at hp
      obtain ⟨-, hsame⟩ := hother j (hsub j hj hji) hji
      rw [(hsame p (List.mem_of_mem_tail hp)).1]
      exact h.behind j (hsub j hj hji) p hp
  · by_cases hji : j = i
    · rw [hji, hself] at hp
      exact hthread p hp
    · rw [hrest j hji] at hp
      obtain ⟨-, hsame⟩ := hother j (hsub j hj hji) hji
      rw [(hsame p hp).2]
      exact h.thread j (hsub j hj hji) p hp

/-- An empty queue comes into use. -/
theorem SemQueues.put (h : SemQueues w inUse ls) (hempty : w.head i = 0)
    (hput : ∀ j, inUse' j → j ≠ i → inUse j) :
    SemQueues w inUse' (Function.update ls i []) :=
  h.change hput (fun j hj _ => ⟨h.queue j hj, fun _ _ => ⟨rfl, rfl⟩⟩) ⟨hempty, nofun⟩ nofun nofun
    fun _ _ _ _ => nofun

/-- What `waitq_add` leaves alone. -/
theorem waitqAdd_frame {l : List ℕ} {b : Bool} (h : w.Queue i l) (hfuel : l.length < fuel)
    (hnew : new ≠ 0) (hadd : waitqAdd w fuel i thread new = some (b, w')) :
    (∀ j, j ≠ i → w'.head j = w.head j) ∧ (∀ x, x ≠ new → x ∉ l → w'.next x = w.next x) ∧
      ∀ x, x ≠ new → (w'.items.cell x).thread = (w.items.cell x).thread := by
  rw [waitqAdd, if_neg hnew, h.1.seek_last hfuel, Option.bind_some] at hadd
  obtain ⟨items, halloc, hadd⟩ := Option.map_eq_some_iff.mp hadd
  obtain ⟨-, rfl⟩ := Prod.mk.inj hadd
  have hcell : ∀ x, x ≠ new → items.cell x = w.items.cell x := fun x hx =>
    Heap.cell_alloc_of_ne halloc hx
  refine ⟨fun j hj => ?_, fun x hx hxl => ?_, fun x hx => ?_⟩
  · have hlink : (if l.getLast?.getD 0 = 0 then WaitqLink.head i
        else .next (l.getLast?.getD 0)) ≠ .head j := by
      split_ifs
      · exact fun heq => hj (WaitqLink.head.inj heq).symm
      · rintro ⟨⟩
    rw [Waitqs.write_head, if_neg hlink]
  · have hlink : (if l.getLast?.getD 0 = 0 then WaitqLink.head i
        else .next (l.getLast?.getD 0)) ≠ .next x := by
      split_ifs with hlast
      · rintro ⟨⟩
      · rintro ⟨rfl⟩
        cases hl : l.getLast? with
        | none =>
          rw [hl] at hlast
          exact hlast rfl
        | some z =>
          rw [hl] at hxl
          exact hxl (List.mem_of_getLast? hl)
    rw [Waitqs.write_next, if_neg hlink]
    unfold Waitqs.next
    dsimp only
    rw [hcell x hx]
  · rw [Waitqs.write_thread]
    dsimp only
    rw [hcell x hx]

/-- **A thread waits.** -/
theorem SemQueues.add (h : SemQueues w inUse ls) (hi : inUse i) (hfuel : (ls i).length < fuel)
    (hthread : thread ≠ 0) (hnew : new ≠ 0) (hlive : w.items.live new = false) :
    ∃ w', waitqAdd w fuel i thread new = some (true, w') ∧
      SemQueues w' inUse (Function.update ls i (ls i ++ [new])) := by
  obtain ⟨w', hadd, hqueue, hthreads, hold, hprev⟩ :=
    waitqAdd_spec thread (h.queue i hi) hfuel hnew hlive
  obtain ⟨hhead, hnext, hsame⟩ := waitqAdd_frame (h.queue i hi) hfuel hnew hadd
  have hfresh : ∀ j, inUse j → new ∉ ls j := fun j hj hmem => by
    simp [(h.queue j hj).2 new hmem] at hlive
  have hne : ∀ j, inUse j → ∀ p ∈ ls j, p ≠ new := fun j hj p hp heq => hfresh j hj (heq ▸ hp)
  refine ⟨w', hadd, h.change (fun _ hj _ => hj) (fun j hj hji => ⟨⟨?_, fun p hp => ?_⟩,
    fun p hp => ⟨hold p (hne j hj p hp), hsame p (hne j hj p hp)⟩⟩) hqueue (fun p hp => ?_)
    (fun p hp => ?_) fun j hj hji p hp => ?_⟩
  · rw [hhead j hji]
    refine (h.queue j hj).1.congr fun p hp => hnext p (hne j hj p hp) ?_
    exact h.apart j i hj hi hji p hp
  · rw [waitqAdd_live hnew hadd, if_neg (hne j hj p hp)]
    exact (h.queue j hj).2 p hp
  · cases hl : ls i with
    | nil =>
      rw [hl] at hp
      cases hp
    | cons y l =>
      rw [hl, List.cons_append, List.tail_cons, List.mem_append, List.mem_singleton] at hp
      rcases hp with hp | rfl
      · have hpi : p ∈ (ls i).tail := by rwa [hl]
        rw [hold p (hne i hi p (List.mem_of_mem_tail hpi))]
        exact h.behind i hi p hpi
      · rw [hprev, if_neg (by rw [hl]; exact List.cons_ne_nil y l)]
        exact nofun
  · have hmem : (w'.items.cell p).thread ∈ w.threads (ls i) ++ [thread] :=
      hthreads ▸ List.mem_map_of_mem hp
    rcases List.mem_append.mp hmem with hmem | hmem
    · obtain ⟨y, hy, heq⟩ := List.mem_map.mp hmem
      rw [← heq]
      exact h.thread i hi y hy
    · rwa [List.mem_singleton.mp hmem]
  · rcases List.mem_append.mp hp with hp | hp
    · exact h.apart i j hi hj (Ne.symm hji) p hp
    · rw [List.mem_singleton.mp hp]
      exact hfresh j hj

/-- **The first thread is woken**, when its item knows the head of the queue. -/
theorem SemQueues.remove {p : ℕ} {l : List ℕ} (h : SemQueues w inUse ls) (hi : inUse i)
    (hl : ls i = p :: l) (hprev : (w.items.cell p).pprev = .head i) :
    (waitqRemove w i).1 ≠ 0 ∧
      SemQueues (waitqRemove w i).2 inUse (Function.update ls i l) := by
  have hqueue := h.queue i hi
  rw [hl] at hqueue
  obtain ⟨hanswer, hqueue', hcell⟩ := waitqRemove_spec hqueue hprev
  obtain ⟨hhead, hp, -⟩ := hqueue.1
  have hw' : (waitqRemove w i).2 = (w.write (.head i) (w.next p)).free p := by
    rw [waitqRemove, if_neg (by rw [hhead]; exact hp), hhead, ← hprev]
    rfl
  refine ⟨?_, h.change (fun _ hj _ => hj) (fun j hj hji => ⟨⟨?_, fun x hx => ?_⟩,
    fun x _ => by rw [hcell]; exact ⟨rfl, rfl⟩⟩) hqueue' (fun x hx => ?_) (fun x hx => ?_)
    fun j hj hji x hx => ?_⟩
  · rw [hanswer]
    exact h.thread i hi p (by rw [hl]; exact List.mem_cons_self)
  · have hj' : (waitqRemove w i).2.head j = w.head j := by
      rw [hw', Waitqs.free_head, Waitqs.write_head, if_neg fun heq =>
        hji (WaitqLink.head.inj heq).symm]
    have hnext : (waitqRemove w i).2.next = w.next := by
      funext x
      unfold Waitqs.next
      rw [hcell]
    rw [hj', hnext]
    exact (h.queue j hj).1
  · have hne : x ≠ p := by
      rintro rfl
      exact h.apart j i hj hi hji x hx (by rw [hl]; exact List.mem_cons_self)
    rw [hw', Waitqs.free_live, if_neg hne, Waitqs.write_live]
    exact (h.queue j hj).2 x hx
  · rw [hcell]
    exact h.behind i hi x (by rw [hl]; exact List.mem_of_mem_tail hx)
  · rw [hcell]
    exact h.thread i hi x (by rw [hl]; exact List.mem_cons_of_mem p hx)
  · exact h.apart i j hi hj (Ne.symm hji) x (by rw [hl]; exact List.mem_cons_of_mem p hx)

/-- At most one thread waits, as the list has it. -/
theorem SemQueues.oneKnows_iff (h : SemQueues w inUse ls) (hi : inUse i) :
    w.OneKnows i ↔ ∀ p ∈ ls i, ls i = [p] ∧ (w.items.cell p).pprev = .head i := by
  have hqueue := h.queue i hi
  unfold Waitqs.OneKnows
  cases hl : ls i with
  | nil =>
    rw [hl] at hqueue
    exact iff_of_true (Or.inl hqueue.1) nofun
  | cons p l =>
    rw [hl] at hqueue
    obtain ⟨hhead, hp, htail⟩ := hqueue.1
    rw [hhead]
    constructor
    · intro hor
      obtain ⟨hnext, hprev⟩ := hor.resolve_left hp
      rw [hnext] at htail
      cases l with
      | nil =>
        intro x hx
        rw [List.mem_singleton.mp hx]
        exact ⟨rfl, hprev⟩
      | cons y l => exact absurd htail.1.symm htail.2.1
    · intro hall
      obtain ⟨hsingle, hprev⟩ := hall p List.mem_cons_self
      obtain ⟨-, rfl⟩ := List.cons.inj hsingle
      exact Or.inr ⟨htail, hprev⟩

/-- **The loop of `sem_delete` ends** when at most one thread waits. -/
theorem SemQueues.drain (h : SemQueues w inUse ls) (hi : inUse i) (hone : w.OneKnows i)
    (hfuel : (ls i).length < fuel) :
    ∃ r, waitqDrain i fuel w = some r ∧ r.2.head i = 0 ∧
      SemQueues r.2 inUse (Function.update ls i []) := by
  obtain ⟨n, rfl⟩ := Nat.exists_eq_succ_of_ne_zero (Nat.ne_of_gt (Nat.lt_of_le_of_lt
    (Nat.zero_le _) hfuel))
  have hempty : ∀ (w : Waitqs ℕ) n, w.head i = 0 → waitqDrain i (n + 1) w = some ([], w) := by
    intro w n hhead
    have hremove : waitqRemove w i = (0, w) := by rw [waitqRemove, if_pos hhead]
    rw [waitqDrain, hremove]
    rfl
  have hall := (h.oneKnows_iff hi).mp hone
  cases hl : ls i with
  | nil =>
    have hhead : w.head i = 0 := by
      have := (h.queue i hi).1
      rwa [hl] at this
    refine ⟨_, hempty w n hhead, hhead, ?_⟩
    have := h.put hhead fun j hj _ => hj
    exact this
  | cons p l =>
    obtain ⟨hsingle, hprev⟩ := hall p (by rw [hl]; exact List.mem_cons_self)
    obtain ⟨hanswer, hremoved⟩ := h.remove hi hsingle hprev
    have hhead : (waitqRemove w i).2.head i = 0 := by
      have := (hremoved.queue i hi).1
      rwa [Function.update_self] at this
    rw [hl, List.length_cons] at hfuel
    obtain ⟨m, rfl⟩ : ∃ m, n = m + 1 := ⟨n - 1, by omega⟩
    refine ⟨((waitqRemove w i).1 :: [], (waitqRemove w i).2), ?_, hhead, hremoved⟩
    rw [waitqDrain, if_neg hanswer, hempty _ m hhead, Option.map_some]

/-- A first item that does not know the head of the queue stays, and the loop does not end. -/
theorem waitqDrain_stuck {p : ℕ} (hhead : w.head i = p) (hp : p ≠ 0)
    (hthread : (w.items.cell p).thread ≠ 0) (hprev : (w.items.cell p).pprev ≠ .head i) (n : ℕ) :
    waitqDrain i n w = none := by
  induction n generalizing w with
  | zero => rfl
  | succ n ih =>
    have hremove : waitqRemove w i = ((w.items.cell p).thread,
        (w.write (w.items.cell p).pprev (w.next p)).free p) := by
      rw [waitqRemove, if_neg (by rw [hhead]; exact hp), hhead]
      rfl
    rw [waitqDrain, hremove]
    dsimp only
    rw [if_neg hthread, ih, Option.map_none]
    · rw [Waitqs.free_head, Waitqs.write_head, if_neg hprev, hhead]
    · rwa [Waitqs.free_cell, Waitqs.write_thread]
    · rwa [Waitqs.free_cell, Waitqs.write_pprev]

/-- **It ends then only.** -/
theorem SemQueues.drained {r : List ℕ × Waitqs ℕ} (h : SemQueues w inUse ls) (hi : inUse i)
    (hrun : waitqDrain i n w = some r) : w.OneKnows i := by
  rw [h.oneKnows_iff hi]
  intro p hp
  cases hl : ls i with
  | nil =>
    rw [hl] at hp
    cases hp
  | cons y l =>
    have hqueue := h.queue i hi
    rw [hl] at hqueue
    obtain ⟨hhead, hy, -⟩ := hqueue.1
    have hprev : (w.items.cell y).pprev = .head i := by
      by_contra hne
      rw [waitqDrain_stuck hhead hy (h.thread i hi y (by rw [hl]; exact List.mem_cons_self)) hne]
        at hrun
      cases hrun
    cases l with
    | nil =>
      rw [hl] at hp
      rw [List.mem_singleton.mp hp]
      exact ⟨rfl, hprev⟩
    | cons z l =>
      -- the second item becomes the first one
      exfalso
      obtain ⟨hanswer, hremoved⟩ := h.remove hi hl hprev
      cases n with
      | zero => cases hrun
      | succ n =>
        rw [waitqDrain] at hrun
        have hqueue' := hremoved.queue i hi
        have hthread := hremoved.thread i hi z (by
          rw [Function.update_self]
          exact List.mem_cons_self)
        rw [Function.update_self] at hqueue'
        obtain ⟨hhead', hz, -⟩ := hqueue'.1
        have hknows : ((waitqRemove w i).2.items.cell z).pprev ≠ .head i := by
          rw [(waitqRemove_spec hqueue hprev).2.2]
          exact h.behind i hi z (by rw [hl]; exact List.mem_cons_self)
        rw [if_neg hanswer, waitqDrain_stuck hhead' hz hthread hknows] at hrun
        cases hrun

end Queues

/-! ### The table of a block -/

section Table
variable {s : SemObj} {b : SemBlock} {addr i n : ℕ} {value : BitVec 32} {exist : List ℕ}
  {ls : ℕ → List ℕ}

/-- **What the loop of `sem_create` finds**: nothing when the address is there, and else the first
place that is free. -/
theorem createScan_eq {address : ℕ → ℕ} (haddr : addr ≠ 0) (l : List ℕ) (found : Option ℕ) :
    createScan address addr l found = if addr ∈ l.map address then none
      else some (found.or (l.find? fun i => address i = 0)) := by
  induction l generalizing found with
  | nil => simp [createScan]
  | cons j l ih =>
    rw [createScan]
    simp only [List.map_cons, List.mem_cons, List.find?_cons]
    by_cases hj : address j = 0
    · have hne : addr ≠ address j := by rwa [hj]
      cases found with
      | none =>
        rw [if_pos ⟨rfl, hj⟩, ih]
        simp [haddr, hj]
      | some k =>
        rw [if_neg (fun h => absurd h.1 Bool.false_ne_true), if_neg (Ne.symm hne), ih]
        simp [hne]
    · rw [if_neg fun h => hj h.2]
      by_cases heq : address j = addr
      · simp [heq]
      · rw [if_neg heq, ih]
        simp [Ne.symm heq, hj]

/-- **What `sem_create` does** when there is memory. -/
theorem semCreate_eq (haddr : addr ≠ 0) : semCreate s true addr value =
    if addr ∈ (List.range semMax).map s.address then (.fail, { s with semp := true })
    else
      match semFirst s with
      | none => (.fail, { s with semp := true })
      | some i => (.success, { s with
        semp := true
        address := Function.update s.address i addr
        value := Function.update s.value i value }) := by
  unfold semCreate semFirst
  rw [if_neg (by simp)]
  dsimp only
  rw [createScan_eq haddr, Option.none_or]
  by_cases hmem : addr ∈ (List.range semMax).map s.address
  · rw [if_pos hmem, if_pos hmem]
  · rw [if_neg hmem, if_neg hmem]
    cases (List.range semMax).find? fun i => s.address i = 0 <;> rfl

theorem semFirst_some (h : semFirst s = some i) : i < semMax ∧ s.address i = 0 :=
  ⟨List.mem_range.mp (List.mem_of_find?_eq_some h), by simpa using List.find?_some h⟩

/-- A call that succeeds. -/
theorem semCreate_success (haddr : addr ≠ 0) (h : (semCreate s true addr value).1 = .success) :
    ∃ i, semFirst s = some i ∧ (∀ j < semMax, s.address j ≠ addr) ∧
      (semCreate s true addr value).2.address = Function.update s.address i addr ∧
      (semCreate s true addr value).2.waitq = s.waitq := by
  rw [semCreate_eq haddr] at h ⊢
  by_cases hmem : addr ∈ (List.range semMax).map s.address
  · rw [if_pos hmem] at h
    cases h
  · rw [if_neg hmem] at h ⊢
    cases hfirst : semFirst s with
    | none =>
      rw [hfirst] at h
      cases h
    | some i =>
      refine ⟨i, rfl, fun j hj heq => hmem ?_, rfl, rfl⟩
      exact List.mem_map.mpr ⟨j, List.mem_range.mpr hj, heq⟩

theorem semFirst_none : semFirst s = none ↔ ∀ i < semMax, s.address i ≠ 0 := by
  simp [semFirst]

theorem semFind_some (h : semFind s addr = some i) : i < semMax ∧ s.address i = addr :=
  ⟨List.mem_range.mp (List.mem_of_find?_eq_some h), by simpa using List.find?_some h⟩

theorem semFind_none : semFind s addr = none ↔ ∀ i < semMax, s.address i ≠ addr := by
  simp [semFind]

/-- A block holds the semaphores `exist`, with the queues `ls`, none of them longer than `n`. -/
structure SemTable (b : SemBlock) (exist : List ℕ) (ls : ℕ → List ℕ) (n : ℕ) : Prop where
  perm : exist.Perm (used semMax b.obj.address)
  count : b.count = BitVec.ofNat 32 exist.length
  queues : SemQueues b.obj.waitq (fun i => i < semMax ∧ b.obj.address i ≠ 0) ls
  short : ∀ i, i < semMax → b.obj.address i ≠ 0 → (ls i).length ≤ n

theorem SemTable.mem_iff (h : SemTable b exist ls n) (haddr : addr ≠ 0) :
    addr ∈ exist ↔ ∃ i < semMax, b.obj.address i = addr := by
  rw [h.perm.mem_iff, mem_used]
  exact and_iff_right haddr

theorem SemTable.lt_iff (h : SemTable b exist ls n) :
    exist.length < semMax ↔ ∃ i < semMax, b.obj.address i = 0 := by
  rw [h.perm.length_eq, length_used_lt]

theorem SemTable.length_le (h : SemTable b exist ls n) : exist.length ≤ semMax := by
  have hlen : (used semMax b.obj.address).length ≤ ((List.range semMax).map b.obj.address).length :=
    List.length_filter_le ..
  rwa [List.length_map, List.length_range, ← h.perm.length_eq] at hlen

/-- **A semaphore is made** in the first place that is free, when its queue pointer is `NULL`. -/
theorem SemTable.create (value : BitVec 32) (h : SemTable b exist ls n) (haddr : addr ≠ 0)
    (hlt : exist.length < semMax) (hnew : addr ∉ exist)
    (hhead : ∀ i, semFirst b.obj = some i → b.obj.waitq.head i = 0) :
    ∃ i obj, semCreate b.obj true addr value = (.success, obj) ∧ obj.semp = true ∧
      SemTable ⟨obj, b.count + 1⟩ (exist ++ [addr]) (Function.update ls i []) n ∧
      obj.freshAt addr value = true := by
  have hno : ∀ j < semMax, b.obj.address j ≠ addr := fun j hj heq =>
    hnew ((h.mem_iff haddr).mpr ⟨j, hj, heq⟩)
  obtain ⟨i, hfirst⟩ : ∃ i, semFirst b.obj = some i := by
    rw [← Option.ne_none_iff_exists', Ne, semFirst_none]
    obtain ⟨i, hi, hzero⟩ := h.lt_iff.mp hlt
    exact fun hall => hall i hi hzero
  obtain ⟨hi, hfree⟩ := semFirst_some hfirst
  have hempty := hhead i hfirst
  rw [semCreate_eq haddr, if_neg (by simpa using hno), hfirst]
  refine ⟨i, _, rfl, rfl, ⟨?_, ?_, ?_, fun j hj hbusy => ?_⟩, ?_⟩
  · refine (List.perm_append_singleton addr exist).trans (List.Perm.trans ?_
      (used_put hi hfree haddr).symm)
    exact h.perm.cons addr
  · dsimp only
    rw [h.count, List.length_append, List.length_singleton, BitVec.ofNat_add]
    rfl
  · refine h.queues.put hempty fun j hj hne => ⟨hj.1, ?_⟩
    have hbusy := hj.2
    dsimp only at hbusy
    rwa [Function.update_of_ne hne] at hbusy
  · by_cases hji : j = i
    · rw [hji, Function.update_self]
      exact Nat.zero_le n
    · dsimp only at hbusy
      rw [Function.update_of_ne hji] at hbusy ⊢
      exact h.short j hj hbusy
  · unfold SemObj.freshAt
    generalize hobj : ({ b.obj with
      semp := true
      address := Function.update b.obj.address i addr
      value := Function.update b.obj.value i value } : SemObj) = obj
    cases hfind : semFind obj addr with
    | none =>
      refine absurd ?_ (semFind_none.mp hfind i hi)
      rw [← hobj]
      exact Function.update_self ..
    | some j =>
      obtain ⟨hj, heq⟩ := semFind_some hfind
      obtain rfl : j = i := by
        by_contra hne
        rw [← hobj] at heq
        dsimp only at heq
        rw [Function.update_of_ne hne] at heq
        exact hno j hj heq
      rw [← hobj]
      simpa using hempty

/-- The other calls of `sem_create` fail. -/
theorem SemTable.create_fail (h : SemTable b exist ls n) (haddr : addr ≠ 0)
    (hnot : ¬ (exist.length < semMax ∧ addr ∉ exist)) :
    semCreate b.obj true addr value = (.fail, { b.obj with semp := true }) := by
  rw [semCreate_eq haddr]
  by_cases hmem : addr ∈ exist
  · rw [if_pos]
    obtain ⟨j, hj, heq⟩ := (h.mem_iff haddr).mp hmem
    exact List.mem_map.mpr ⟨j, List.mem_range.mpr hj, heq⟩
  · have hfirst : semFirst b.obj = none := by
      rw [semFirst_none]
      intro j hj hzero
      exact hnot ⟨h.lt_iff.mpr ⟨j, hj, hzero⟩, hmem⟩
    rw [hfirst]
    split_ifs <;> rfl

/-- **A semaphore is deleted.** -/
theorem SemTable.clear (h : SemTable b exist ls n) {w : Waitqs ℕ} {ls' : ℕ → List ℕ}
    (hi : i < semMax) (hbusy : b.obj.address i ≠ 0)
    (hqueues : SemQueues w (fun i => i < semMax ∧ b.obj.address i ≠ 0) ls')
    (hls : ∀ j, j ≠ i → ls' j = ls j) (obj : SemObj)
    (haddress : obj.address = Function.update b.obj.address i 0) (hwaitq : obj.waitq = w) :
    SemTable ⟨obj, b.count - 1⟩ (exist.erase (b.obj.address i)) ls' n := by
  have hmem : b.obj.address i ∈ exist := (h.mem_iff hbusy).mpr ⟨i, hi, rfl⟩
  have hpos : 0 < exist.length := List.length_pos_of_mem hmem
  have hne : ∀ j, obj.address j ≠ 0 → j ≠ i ∧ b.obj.address j ≠ 0 := by
    intro j hj
    rw [haddress] at hj
    by_cases hji : j = i
    · rw [hji, Function.update_self] at hj
      exact absurd rfl hj
    · rw [Function.update_of_ne hji] at hj
      exact ⟨hji, hj⟩
  refine ⟨?_, ?_, ?_, fun j hj hjb => ?_⟩
  · dsimp only
    rw [haddress]
    refine List.Perm.cons_inv (a := b.obj.address i) ?_
    exact (List.perm_cons_erase hmem).symm.trans (h.perm.trans (used_clear hi hbusy).symm)
  · dsimp only
    rw [h.count, List.length_erase_of_mem hmem]
    obtain ⟨m, hm⟩ := Nat.exists_eq_succ_of_ne_zero hpos.ne'
    rw [hm, Nat.succ_eq_add_one, BitVec.ofNat_add, Nat.add_sub_cancel]
    exact BitVec.add_sub_cancel ..
  · dsimp only
    rw [hwaitq]
    exact hqueues.mono fun j hj => ⟨hj.1, (hne j hj.2).2⟩
  · obtain ⟨hji, hold⟩ := hne j hjb
    rw [hls j hji]
    exact h.short j hj hold

end Table

/-! ### Runs -/

/-- The invariant: `ls` are the queues. -/
structure SemLife.Kept (s : SemLife) (ls : ℕ → List ℕ) : Prop where
  right : s.right = true
  nodup : s.exist.Nodup
  block : s.b.obj.semp = true ↔ s.exist ≠ []
  table : s.b.obj.semp = true → SemTable s.b s.exist ls s.waits

section Run
variable {s s' : SemLife} {ls : ℕ → List ℕ} {addr thread item fuel i : ℕ} {value : BitVec 32}
  {junk : SemJunk} {sent : Bool}

theorem SemLife.Kept.sound (h : s.Kept ls) : s.Sound := by
  refine ⟨h.right, h.block, fun hs a ha => ((h.table hs).mem_iff ha).symm,
    fun hs i j hi hj hbusy heq => ?_, fun hs => (h.table hs).count,
    fun hs i hi hbusy => ⟨_, (h.table hs).queues.queue i ⟨hi, hbusy⟩⟩⟩
  exact used_inj ((h.table hs).perm.nodup_iff.mp h.nodup) hi hj hbusy heq

/-- The block that `sem_create` looks at is in order. -/
theorem SemLife.Kept.prepared (h : s.Kept ls)
    (hjunk : s.b.obj.semp = false → (∀ i < semMax, junk.address i = 0) ∧ junk.count = 0) :
    SemTable (s.b.block junk) s.exist ls s.waits := by
  unfold SemBlock.block
  cases hs : s.b.obj.semp with
  | true =>
    rw [if_pos rfl]
    exact h.table hs
  | false =>
    obtain ⟨haddress, hcount⟩ := hjunk hs
    have hnil : s.exist = [] := by
      by_contra hne
      have := h.block.mpr hne
      rw [hs] at this
      cases this
    rw [if_neg Bool.false_ne_true, hnil]
    refine ⟨?_, ?_, ?_, fun i hi hbusy => absurd (haddress i hi) hbusy⟩
    · refine List.Perm.of_eq (Eq.symm (List.eq_nil_iff_forall_not_mem.mpr fun a ha => ?_))
      obtain ⟨hne, i, hi, heq⟩ := mem_used.mp ha
      exact hne (heq.symm.trans (haddress i hi))
    · exact hcount
    · have hnone : ∀ i, ¬ (i < semMax ∧ junk.address i ≠ 0) := fun i hi => hi.2 (haddress i hi.1)
      exact ⟨fun i hi => absurd hi (hnone i), fun i _ hi => absurd hi (hnone i),
        fun i hi => absurd hi (hnone i), fun i hi => absurd hi (hnone i)⟩

/-- **`sem_create` keeps the block in order.** -/
theorem SemLife.Kept.create (h : s.Kept ls) (haddr : addr ≠ 0)
    (hfits : SemFits s (.create addr value junk)) :
    ∃ s' ls', semLifeStep fuel s (.create addr value junk) = some s' ∧ s'.Kept ls' := by
  obtain ⟨hjunk, hhead⟩ := hfits
  have htable := h.prepared hjunk
  rw [semLifeStep, semCreateIn]
  dsimp only
  by_cases hmade : s.exist.length < semMax ∧ addr ∉ s.exist
  · obtain ⟨i, obj, hcreate, hs, htable', hfresh⟩ :=
      htable.create value haddr hmade.1 hmade.2 (hhead hmade.1 hmade.2)
    rw [hcreate]
    dsimp only
    refine ⟨_, Function.update ls i [], rfl, ?_, ?_, ?_, fun _ => ?_⟩
    · simp [h.right, hmade, hfresh]
    · dsimp only
      rw [if_pos rfl, (List.perm_append_singleton addr s.exist).nodup_iff]
      exact List.nodup_cons.mpr ⟨hmade.2, h.nodup⟩
    · simp [hs]
    · dsimp only
      rw [if_pos rfl, if_pos rfl]
      exact htable'
  · have hs : s.b.obj.semp = true := by
      refine h.block.mpr fun hnil => hmade ?_
      rw [hnil]
      exact ⟨by decide, List.not_mem_nil⟩
    have hblock : s.b.block junk = s.b := by
      rw [SemBlock.block, if_pos hs]
    rw [htable.create_fail haddr hmade, hblock]
    dsimp only
    refine ⟨_, ls, rfl, ?_, ?_, ?_, fun _ => ?_⟩
    · simp only [h.right, hmade]
      rfl
    · exact h.nodup
    · exact iff_of_true rfl (h.block.mp hs)
    · obtain ⟨hperm, hcount, hqueues, hshort⟩ := h.table hs
      exact ⟨hperm, hcount, hqueues, hshort⟩

/-- **`sem_delete` keeps the block in order.** -/
theorem SemLife.Kept.delete (h : s.Kept ls) (haddr : addr ≠ 0) (hfuel : s.waits < fuel)
    (hfits : SemFits s (.delete addr)) :
    ∃ s' ls', semLifeStep fuel s (.delete addr) = some s' ∧ s'.Kept ls' := by
  rw [semLifeStep, semDelete]
  cases hs : s.b.obj.semp with
  | false =>
    have hnil : s.exist = [] := by
      by_contra hne
      have := h.block.mpr hne
      rw [hs] at this
      cases this
    rw [if_pos rfl, Option.map_some]
    refine ⟨_, ls, rfl, ?_, ?_, ?_, fun hs' => ?_⟩
    · simp [h.right, hnil]
    · simp [hnil]
    · simp [hs, hnil]
    · rw [hs] at hs'
      cases hs'
  | true =>
    rw [if_neg (by simp)]
    have htable := h.table hs
    cases hfind : semFind s.b.obj addr with
    | none =>
      have hno : addr ∉ s.exist := by
        rw [htable.mem_iff haddr]
        rintro ⟨i, hi, heq⟩
        exact semFind_none.mp hfind i hi heq
      refine ⟨_, ls, rfl, ?_, ?_, ?_, fun _ => ?_⟩
      · simp [h.right, hno]
      · exact h.nodup.erase addr
      · dsimp only
        rw [List.erase_of_not_mem hno]
        exact h.block
      · dsimp only
        rw [List.erase_of_not_mem hno]
        exact htable
    | some i =>
      obtain ⟨hi, heq⟩ := semFind_some hfind
      have hbusy : s.b.obj.address i ≠ 0 := by rwa [heq]
      obtain ⟨r, hdrain, -, hqueues⟩ := htable.queues.drain ⟨hi, hbusy⟩ (hfits hs i hfind)
        ((htable.short i hi hbusy).trans_lt hfuel)
      have hmem : addr ∈ s.exist := (htable.mem_iff haddr).mpr ⟨i, hi, heq⟩
      have hcleared := htable.clear hi hbusy hqueues (fun j hji => Function.update_of_ne hji ..)
      rw [heq] at hcleared
      -- the block goes with the last semaphore
      have hlast : s.b.count - 1 = 0 ↔ s.exist.erase addr = [] := by
        have hcount := htable.count
        have hle := htable.length_le
        have hlen := List.length_erase_of_mem hmem
        have hpos := List.length_pos_of_mem hmem
        rw [hcount, ← List.length_eq_zero_iff, hlen]
        unfold semMax at hle
        constructor
        · intro hzero
          have := congrArg BitVec.toNat hzero
          simp at this
          omega
        · intro hzero
          have hone : s.exist.length = 1 := by omega
          rw [hone]
          rfl
      dsimp only
      rw [hdrain, Option.map_some, Option.map_some]
      refine ⟨_, Function.update ls i [], rfl, ?_, h.nodup.erase addr, ?_, fun hs' => ?_⟩
      · simp [h.right, hmem]
      · dsimp only
        by_cases hzero : s.b.count - 1 = 0
        · rw [if_pos hzero, hlast.mp hzero]
          simp
        · rw [if_neg hzero]
          exact iff_of_true hs fun hnil => hzero (hlast.mpr hnil)
      · dsimp only at hs' ⊢
        by_cases hzero : s.b.count - 1 = 0
        · rw [if_pos hzero] at hs'
          cases hs'
        · rw [if_neg hzero]
          exact hcleared { s.b.obj with
            address := Function.update s.b.obj.address i 0, waitq := r.2 } rfl rfl

/-- The values do not matter. -/
theorem SemTable.values {b b' : SemBlock} {exist : List ℕ} {n n' : ℕ} {ls ls' : ℕ → List ℕ}
    (h : SemTable b exist ls n) (haddress : b'.obj.address = b.obj.address)
    (hcount : b'.count = b.count)
    (hqueues : SemQueues b'.obj.waitq (fun i => i < semMax ∧ b.obj.address i ≠ 0) ls')
    (hshort : ∀ i, i < semMax → b.obj.address i ≠ 0 → (ls' i).length ≤ n') :
    SemTable b' exist ls' n' := by
  refine ⟨?_, hcount.trans h.count, ?_, ?_⟩
  · rw [haddress]
    exact h.perm
  · rwa [haddress]
  · rwa [haddress]

/-- **`sem_wait` keeps the block in order.** -/
theorem SemLife.Kept.wait (h : s.Kept ls) (hallowed : SemAllowed fuel s (.wait addr thread item)) :
    ∃ s' ls', semLifeStep fuel s (.wait addr thread item) = some s' ∧ s'.Kept ls' := by
  obtain ⟨haddr, hfuel, hthread, hitem⟩ := hallowed
  rw [semLifeStep, semWait]
  have hlonger : ∀ i, s.b.obj.semp = true → i < semMax → s.b.obj.address i ≠ 0 →
      (ls i).length ≤ s.waits + 1 := fun i hs hi hbusy =>
    Nat.le_succ_of_le ((h.table hs).short i hi hbusy)
  have hsame : ∀ value, SemLife.Kept
      { s with b := { s.b with obj := { s.b.obj with value } }, waits := s.waits + 1 } ls :=
    fun value => ⟨h.right, h.nodup, h.block, fun hs => (h.table hs).values rfl rfl
      (h.table hs).queues (hlonger · hs)⟩
  by_cases hs : s.b.obj.semp = false
  · rw [if_pos hs]
    exact ⟨_, ls, rfl, hsame s.b.obj.value⟩
  rw [if_neg hs]
  rw [Bool.not_eq_false] at hs
  cases hfind : semFind s.b.obj addr with
  | none => exact ⟨_, ls, rfl, hsame s.b.obj.value⟩
  | some i =>
    obtain ⟨hi, heq⟩ := semFind_some hfind
    have hbusy : s.b.obj.address i ≠ 0 := by rwa [heq]
    have htable := h.table hs
    dsimp only
    by_cases hpos : (s.b.obj.value i).toInt ≤ 0
    · rw [if_pos hpos]
      by_cases hnull : item = 0
      · rw [waitqAdd, if_pos hnull, Option.map_some, Option.map_some, if_neg Bool.false_ne_true]
        exact ⟨_, ls, rfl, hsame _⟩
      · obtain ⟨w', hadd, hqueues⟩ := htable.queues.add ⟨hi, hbusy⟩
          ((htable.short i hi hbusy).trans_lt hfuel) hthread hnull (hitem hnull)
        rw [hadd, Option.map_some, Option.map_some, if_pos rfl]
        refine ⟨_, _, rfl, h.right, h.nodup, h.block, fun _ => htable.values rfl rfl hqueues ?_⟩
        intro j hj hjb
        by_cases hji : j = i
        · rw [hji, Function.update_self, List.length_append, List.length_singleton]
          exact Nat.succ_le_succ (htable.short i hi hbusy)
        · rw [Function.update_of_ne hji]
          exact hlonger j hs hj hjb
    · rw [if_neg hpos]
      exact ⟨_, ls, rfl, hsame _⟩

/-- **`sem_signal` keeps the block in order.** -/
theorem SemLife.Kept.signal (h : s.Kept ls) (haddr : addr ≠ 0)
    (hfits : SemFits s (.signal addr sent)) :
    ∃ s' ls', semLifeStep fuel s (.signal addr sent) = some s' ∧ s'.Kept ls' := by
  rw [semLifeStep]
  have hsame : ∀ obj : SemObj, obj.semp = s.b.obj.semp → obj.address = s.b.obj.address →
      obj.waitq = s.b.obj.waitq → SemLife.Kept { s with b := { s.b with obj } } ls := by
    intro obj hs haddress hwaitq
    refine ⟨h.right, h.nodup, ?_, fun hsemp => ?_⟩
    · dsimp only
      rw [hs]
      exact h.block
    · have htable := h.table (hs.symm.trans hsemp)
      exact htable.values haddress rfl (by rw [hwaitq]; exact htable.queues) htable.short
  unfold semSignal
  by_cases hs : s.b.obj.semp = false
  · rw [if_pos hs]
    exact ⟨_, ls, rfl, hsame _ rfl rfl rfl⟩
  rw [if_neg hs]
  rw [Bool.not_eq_false] at hs
  cases hfind : semFind s.b.obj addr with
  | none => exact ⟨_, ls, rfl, hsame _ rfl rfl rfl⟩
  | some i =>
    obtain ⟨hi, heq⟩ := semFind_some hfind
    have hbusy : s.b.obj.address i ≠ 0 := by rwa [heq]
    have htable := h.table hs
    dsimp only
    cases hl : ls i with
    | nil =>
      have hhead : s.b.obj.waitq.head i = 0 := by
        have := (htable.queues.queue i ⟨hi, hbusy⟩).1
        rwa [hl] at this
      have hremove : waitqRemove s.b.obj.waitq i = (0, s.b.obj.waitq) := by
        rw [waitqRemove, if_pos hhead]
      rw [hremove, if_neg (not_not.mpr rfl)]
      exact ⟨_, ls, rfl, hsame _ rfl rfl rfl⟩
    | cons p l =>
      have hqueue := (htable.queues.queue i ⟨hi, hbusy⟩).1
      rw [hl] at hqueue
      have hprev := hfits hs i hfind (by rw [hqueue.1]; exact hqueue.2.1)
      rw [hqueue.1] at hprev
      obtain ⟨-, hqueues⟩ := htable.queues.remove ⟨hi, hbusy⟩ hl hprev
      have hshort : ∀ j, j < semMax → s.b.obj.address j ≠ 0 →
          (Function.update ls i l j).length ≤ s.waits := by
        intro j hj hjb
        by_cases hji : j = i
        · have := htable.short i hi hbusy
          rw [hl, List.length_cons] at this
          rw [hji, Function.update_self]
          omega
        · rw [Function.update_of_ne hji]
          exact htable.short j hj hjb
      refine ⟨_, Function.update ls i l, rfl, h.right, h.nodup, ?_, fun _ => ?_⟩
      · split_ifs <;> exact h.block
      · split_ifs <;> exact htable.values rfl rfl hqueues hshort

/-- **The calls of `sem_create` that keep a block sound** find the memory clear. -/
theorem SemLife.Kept.create_exact (h : s.Kept ls) (haddr : addr ≠ 0)
    (hstep : semLifeStep fuel s (.create addr value junk) = some s') (hsound : s'.Sound) :
    SemFits s (.create addr value junk) := by
  rw [semLifeStep, semCreateIn] at hstep
  obtain rfl := Option.some.inj hstep
  have hright := hsound.right
  have htable := hsound.table
  have hcount := hsound.count
  dsimp only at hright htable hcount
  rw [h.right, Bool.true_and, Bool.and_eq_true, decide_eq_true_eq, Bool.or_eq_true,
    decide_eq_true_eq] at hright
  obtain ⟨hiff, hfresh⟩ := hright
  have hnil : s.b.obj.semp = false → s.exist = [] := by
    intro hs
    by_contra hne
    have := h.block.mpr hne
    rw [hs] at this
    cases this
  by_cases hmade : s.exist.length < semMax ∧ addr ∉ s.exist
  swap
  · refine ⟨fun hs => absurd ?_ hmade, fun hlt hnew => absurd ⟨hlt, hnew⟩ hmade⟩
    rw [hnil hs]
    exact ⟨by decide, List.not_mem_nil⟩
  have hok := hiff.mpr hmade
  obtain ⟨i, hfirst, hno, haddress, hwaitq⟩ := semCreate_success haddr hok
  have hfree := (semFirst_some hfirst).2
  have hi := (semFirst_some hfirst).1
  have hsemp : (semCreate (s.b.block junk).obj true addr value).2.semp = true := by
    rw [semCreate_eq haddr]
    split_ifs
    · rfl
    · cases semFirst (s.b.block junk).obj <;> rfl
  refine ⟨fun hs => ?_, fun _ _ j hj => ?_⟩
  · have hblock : s.b.block junk = ⟨⟨false, junk.address, junk.value,
        { s.b.obj.waitq with head := junk.head }⟩, junk.count⟩ := by
      rw [SemBlock.block, if_neg (by simp [hs])]
    constructor
    · intro j hj
      by_contra hbusy
      have haddress' : (s.b.block junk).obj.address = junk.address := by rw [hblock]
      have hne : j ≠ i := by
        rintro rfl
        rw [haddress'] at hfree
        exact hbusy hfree
      have hmem := (htable hsemp _ hbusy).mp ⟨j, hj, by
        rw [haddress, Function.update_of_ne hne, haddress']⟩
      rw [if_pos hok, hnil hs, List.nil_append, List.mem_singleton] at hmem
      exact hno j hj (by rw [haddress', hmem])
    · have hcount' := hcount hsemp
      rw [if_pos hok, if_pos hok, hnil hs, hblock] at hcount'
      exact (BitVec.add_left_inj 1).mp (hcount'.trans rfl)
  · obtain rfl : i = j := Option.some.inj (hfirst.symm.trans hj)
    have hfresh := hfresh.resolve_left fun hnot => hnot hok
    unfold SemObj.freshAt at hfresh
    cases hfind : semFind (semCreate (s.b.block junk).obj true addr value).2 addr with
    | none =>
      rw [hfind] at hfresh
      cases hfresh
    | some j =>
      obtain ⟨hj, heq⟩ := semFind_some hfind
      obtain rfl : j = i := by
        by_contra hne
        rw [haddress, Function.update_of_ne hne] at heq
        exact hno j hj heq
      rw [hfind] at hfresh
      rw [← hwaitq]
      exact (of_decide_eq_true hfresh).2

/-- **The calls that keep a block sound.** -/
theorem SemLife.Kept.exact (h : s.Kept ls) {act : SemAct} (hallowed : SemAllowed fuel s act)
    (hstep : semLifeStep fuel s act = some s') (hsound : s'.Sound) : SemFits s act := by
  cases act with
  | create addr value junk => exact h.create_exact hallowed hstep hsound
  | delete addr =>
    intro hs i hfind
    obtain ⟨hi, heq⟩ := semFind_some hfind
    have hbusy : s.b.obj.address i ≠ 0 := by
      rw [heq]
      exact hallowed.1
    rw [semLifeStep, semDelete, if_neg (by simp [hs]), hfind] at hstep
    obtain ⟨r, hdelete, -⟩ := Option.map_eq_some_iff.mp hstep
    obtain ⟨r', hdrain, -⟩ := Option.map_eq_some_iff.mp hdelete
    exact (h.table hs).queues.drained ⟨hi, hbusy⟩ hdrain
  | wait addr thread item => trivial
  | signal addr sent =>
    intro hs i hfind hne
    obtain ⟨hi, heq⟩ := semFind_some hfind
    have hbusy : s.b.obj.address i ≠ 0 := by
      rw [heq]
      exact hallowed
    have hqueue := (h.table hs).queues.queue i ⟨hi, hbusy⟩
    have hqueues := hsound.queues
    by_contra hprev
    rw [semLifeStep, semSignal, if_neg (by simp [hs]), hfind] at hstep
    dsimp only at hstep
    obtain rfl := Option.some.inj hstep
    cases hl : ls i with
    | nil =>
      rw [hl] at hqueue
      exact hne hqueue.1
    | cons p l =>
      rw [hl] at hqueue
      rw [hqueue.1.1] at hprev
      obtain ⟨l', hl'⟩ : ∃ l', (waitqRemove s.b.obj.waitq i).2.Queue i l' := by
        dsimp only at hqueues
        split_ifs at hqueues <;> exact hqueues hs i hi hbusy
      exact waitqRemove_stuck hqueue hprev l' hl'

end Run

/-- **A semaphore block is sound**, in every run of calls that keep it so and in no other: then
every call returns, `sem_create` succeeds just when there is room and the address is new, each
new semaphore has its value and nobody waits for it, the addresses are different, the count is
right, and there is a block while there is a semaphore. -/
theorem semBlock_iff {b : SemBlock} (hnone : b.obj.semp = false) {fuel : ℕ} {acts : List SemAct}
    (hallowed : Along (semLifeStep fuel) (SemAllowed fuel) ⟨b, [], true, 0⟩ acts) :
    ((∃ s, run (semLifeStep fuel) ⟨b, [], true, 0⟩ acts = some s) ∧
        ∀ acts₁ s₁, acts₁ <+: acts → run (semLifeStep fuel) ⟨b, [], true, 0⟩ acts₁ = some s₁ →
          s₁.Sound) ↔
      Along (semLifeStep fuel) SemFits ⟨b, [], true, 0⟩ acts := by
  refine served_iff_along (I := fun s => ∃ ls, s.Kept ls) ?_ ?_ ?_ ?_ hallowed
  · rintro s ⟨ls, h⟩
    exact h.sound
  · rintro s act ⟨ls, h⟩ hD hG
    cases act with
    | create addr value junk =>
      obtain ⟨s', ls', hstep, h'⟩ := h.create hD hG
      exact ⟨s', hstep, ls', h'⟩
    | delete addr =>
      obtain ⟨s', ls', hstep, h'⟩ := h.delete hD.1 hD.2 hG
      exact ⟨s', hstep, ls', h'⟩
    | wait addr thread item =>
      obtain ⟨s', ls', hstep, h'⟩ := h.wait hD
      exact ⟨s', hstep, ls', h'⟩
    | signal addr sent =>
      obtain ⟨s', ls', hstep, h'⟩ := h.signal hD hG
      exact ⟨s', hstep, ls', h'⟩
  · rintro s act s' ⟨ls, h⟩ hD hstep hsound
    exact h.exact hD hstep hsound
  · refine ⟨fun _ => [], rfl, List.nodup_nil, ?_, fun hs => ?_⟩
    · simp [hnone]
    · dsimp only at hs
      rw [hnone] at hs
      cases hs

/-- Memory that is clear. -/
def clearJunk : SemJunk := ⟨0, fun _ => 0, fun _ => 0, fun _ => 0⟩

/-- Memory that holds an address where the second semaphore goes. -/
def staleJunk : SemJunk := { clearJunk with address := fun i => if i = 1 then 0x500 else 0 }

/-- An object without semaphores. -/
def noSems : SemBlock := ⟨clearSem, 0⟩

/-- A semaphore is made, one thread waits, and the semaphore is deleted. -/
theorem semBlock_clear :
    (∃ s, run (semLifeStep 9) ⟨noSems, [], true, 0⟩
        [.create 0x400 0 clearJunk, .wait 0x400 7 100, .delete 0x400] = some s) ∧
      ∀ acts₁ s₁, acts₁ <+: [.create 0x400 0 clearJunk, .wait 0x400 7 100, .delete 0x400] →
        run (semLifeStep 9) ⟨noSems, [], true, 0⟩ acts₁ = some s₁ → s₁.Sound := by
  have hallowed : Along (semLifeStep 9) (SemAllowed 9) ⟨noSems, [], true, 0⟩
      [.create 0x400 0 clearJunk, .wait 0x400 7 100, .delete 0x400] := by
    decide +kernel
  have hnone : noSems.obj.semp = false := rfl
  refine (semBlock_iff hnone hallowed).mpr ⟨⟨fun _ => ⟨fun _ _ => rfl, rfl⟩, ?_⟩, ?_⟩
  · intro _ _ i _
    rfl
  rintro s ⟨⟩
  refine ⟨trivial, ?_⟩
  rintro s ⟨⟩
  refine ⟨fun _ i hfind => ?_, fun _ _ => trivial⟩
  obtain rfl : 0 = i := Option.some.inj hfind
  exact Or.inr ⟨rfl, rfl⟩

/-- The memory of the block holds an address, and a semaphore that was never made exists. -/
theorem semBlock_not_sound : ¬ ∀ (b : SemBlock) (fuel : ℕ) (acts : List SemAct),
    b.obj.semp = false → Along (semLifeStep fuel) (SemAllowed fuel) ⟨b, [], true, 0⟩ acts →
    (∃ s, run (semLifeStep fuel) ⟨b, [], true, 0⟩ acts = some s) ∧
      ∀ acts₁ s₁, acts₁ <+: acts → run (semLifeStep fuel) ⟨b, [], true, 0⟩ acts₁ = some s₁ →
        s₁.Sound := by
  intro hall
  have hallowed : Along (semLifeStep 9) (SemAllowed 9) ⟨noSems, [], true, 0⟩
      [.create 0x400 0 staleJunk, .create 0x500 0 staleJunk] := by
    decide +kernel
  obtain ⟨-, hsound⟩ := hall noSems 9 _ rfl hallowed
  have hlast : (run (semLifeStep 9) ⟨noSems, [], true, 0⟩
      [.create 0x400 0 staleJunk, .create 0x500 0 staleJunk]).map SemLife.right = some false := by
    decide +kernel
  obtain ⟨s, hrun, hwrong⟩ := Option.map_eq_some_iff.mp hlast
  rw [(hsound _ s (List.prefix_refl _) hrun).right] at hwrong
  cases hwrong

end Mungi
