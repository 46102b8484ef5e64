import Mungi.Waitq
import Mungi.Lib.Runs
import Mathlib.Data.BitVec

/-!
# Semaphores

An object has a block of semaphores, each a counter with a queue of waiting threads
(`semaphore.c`).  `sem_wait` counts down, and queues the caller when the counter was not
positive; `sem_signal` counts up and wakes the thread that has waited longest.  The counter
and the queue are changed one after the other, and they agree only as long as every
wake-up reaches its thread, the item it takes off the queue knows the head of the queue,
and a counter that started below zero has been signalled that often before.

The block comes from `kmalloc` and is not cleared.

## Main definitions

* `SemObj` — the semaphores of an object.
* `semCreate`, `semWait`, `semSignal` — the operations.
* `SemRun`, `semStep` — the life of one semaphore, with what has been granted.
* `SemRun.Conserves` — what is to hold at every moment.

## Main results

* `semaphore_conserves_iff` — **when a semaphore conserves its permits.**
-/

namespace Mungi

open Runs Chain

/-! ### The operations -/

/-- `SEM_MAX` -/
def semMax : ℕ := 16

/-- What the operations return. -/
inductive SemRet where
  /-- `success`, that is `ST_SUCC`. -/
  | success
  | fail
  | err
  | prot
  deriving DecidableEq, Repr

/-- The semaphores of an object.  Where there is no block yet, the fields hold what `kmalloc` will
find in its memory. -/
structure SemObj where
  /-- `obj->semp` is not `NULL`. -/
  semp : Bool
  /-- `semp->semaphores[i].address`, 0 for `NULL`. -/
  address : ℕ → ℕ
  /-- An `int`. -/
  value : ℕ → BitVec 32
  /-- The queues; that of semaphore `i` has its head in `semp->semaphores[i].waitq`. -/
  waitq : Waitqs ℕ

/-- The loop of `sem_create` over the indices `l`: the first unused semaphore, none when the
address has one. -/
def createScan (address : ℕ → ℕ) (addr : ℕ) : List ℕ → Option ℕ → Option (Option ℕ)
  | [], found => some found
  | i :: l, found =>
    if found.isNone ∧ address i = 0 then createScan address addr l (some i)
    else if address i = addr then none
    else createScan address addr l found

/-- `sem_create`; `block` is whether `kmalloc` has a block. -/
def semCreate (s : SemObj) (block : Bool) (addr : ℕ) (value : BitVec 32) : SemRet × SemObj :=
  if s.semp = false ∧ block = false then (.err, s)
  else
    let s := { s with semp := true }
    match createScan s.address addr (List.range semMax) none with
    | none => (.fail, s)
    | some none => (.fail, s)
    | some (some i) =>
      (.success,
        { s with
          address := Function.update s.address i addr
          value := Function.update s.value i value })

/-- The loop of `sem_wait` and `sem_signal`: the first semaphore with the address. -/
def semFind (s : SemObj) (addr : ℕ) : Option ℕ :=
  (List.range semMax).find? fun i => s.address i = addr

/-- `sem_wait`: `*retval`, and whether the thread is made to wait.  `item` is the answer of
`kmalloc` in `waitq_add`. -/
def semWait (s : SemObj) (fuel addr thread item : ℕ) : Option (SemRet × Bool × SemObj) :=
  if s.semp = false then some (.fail, false, s)
  else
    match semFind s addr with
    | none => some (.prot, false, s)
    | some i =>
      let v := s.value i
      let s := { s with value := Function.update s.value i (v - 1) }
      if v.toInt ≤ 0 then
        (waitqAdd s.waitq fuel i thread item).map fun r =>
          if r.1 then (.success, true, { s with waitq := r.2 })
          else (.prot, false, { s with value := Function.update s.value i (s.value i + 1) })
      else some (.success, false, s)

/-- `sem_signal`: what it returns, and the thread it sends `success` to, 0 for none.  `sent` is
whether the thread gets it. -/
def semSignal (s : SemObj) (addr : ℕ) (sent : Bool) : SemRet × ℕ × SemObj :=
  if s.semp = false then (.fail, 0, s)
  else
    match semFind s addr with
    | none => (.fail, 0, s)
    | some i =>
      let s := { s with value := Function.update s.value i (s.value i + 1) }
      let r := waitqRemove s.waitq i
      let s := { s with waitq := r.2 }
      if r.1 ≠ 0 then
        if sent then (.success, r.1, s)
        else (.fail, r.1, { s with value := Function.update s.value i (s.value i - 1) })
      else (.success, 0, s)

/-! ### The life of a semaphore -/

/-- A semaphore with what has been granted. -/
structure SemRun where
  obj : SemObj
  /-- The waits that have returned at once. -/
  returned : ℕ
  /-- The threads that were made to wait, the first one first. -/
  queued : List ℕ
  /-- The threads that were woken, the first one first. -/
  woken : List ℕ
  /-- The signals that succeeded. -/
  signals : ℕ

/-- The calls. -/
inductive SemOp where
  | wait (thread item : ℕ)
  | signal (sent : Bool)
  deriving DecidableEq, Repr

/-- A call is one that can be made: `kmalloc` does not return a block in use. -/
def SemRun.Enabled (s : SemRun) : SemOp → Prop
  | .wait thread item => thread ≠ 0 ∧ (item ≠ 0 → s.obj.waitq.items.live item = false)
  | .signal _ => True

instance SemRun.Enabled.decidable (s : SemRun) : ∀ op, Decidable (s.Enabled op)
  | .wait _ _ => inferInstanceAs (Decidable (_ ∧ _))
  | .signal _ => .isTrue trivial

/-- One call on the semaphore at `addr`. -/
def semStep (addr : ℕ) (s : SemRun) : SemOp → Option SemRun
  | .wait thread item =>
    if s.Enabled (.wait thread item) then
      (semWait s.obj (s.queued.length + 1) addr thread item).map fun r =>
        if r.2.1 then { s with obj := r.2.2, queued := s.queued ++ [thread] }
        else if r.1 = .success then { s with obj := r.2.2, returned := s.returned + 1 }
        else { s with obj := r.2.2 }
    else none
  | .signal sent =>
    let r := semSignal s.obj addr sent
    some { s with
      obj := r.2.2
      woken := if r.2.1 ≠ 0 ∧ sent = true then s.woken ++ [r.2.1] else s.woken
      signals := if r.1 = .success then s.signals + 1 else s.signals }

/-- A semaphore that was just created. -/
def semStart (obj : SemObj) : SemRun := ⟨obj, 0, [], [], 0⟩

/-- What is to hold of semaphore `i`, created with the value `v`, at every moment: `l` are the
items of its queue. -/
structure SemRun.ConservesBy (i : ℕ) (v : BitVec 32) (s : SemRun) (l : List ℕ) : Prop where
  queue : s.obj.waitq.Queue i l
  /-- No more permits are granted than there are. -/
  bound : (s.returned : ℤ) + s.woken.length ≤ max 0 (v.toInt + s.signals)
  /-- The counter counts signals and waits. -/
  value : (s.obj.value i).toInt = v.toInt + s.signals - (s.returned + s.queued.length)
  waiting : 0 ≤ v.toInt → (l.length : ℤ) = max 0 (-(s.obj.value i).toInt)
  /-- Every thread that was made to wait was woken, in the order of arrival, or waits. -/
  order : s.queued = s.woken ++ s.obj.waitq.threads l

/-- What is to hold of a semaphore at every moment. -/
def SemRun.Conserves (i : ℕ) (v : BitVec 32) (s : SemRun) : Prop := ∃ l, s.ConservesBy i v l

/-- What a call is to do: return, and conserve the permits. -/
def SemRun.Sound (addr i : ℕ) (v : BitVec 32) (s : SemRun) (op : SemOp) : Prop :=
  s.Enabled op → ∃ s', semStep addr s op = some s' ∧ s'.Conserves i v

/-- When it does so.  The counter does not run over; and a thread that is woken gets the message,
its item was put on an empty queue, and all of `v` is made up for. -/
def SemRun.Fits (i : ℕ) (s : SemRun) : SemOp → Prop
  | .wait thread item =>
    s.Enabled (.wait thread item) → item ≠ 0 → (s.obj.value i).toInt ≠ -2 ^ 31
  | .signal sent =>
    (s.obj.value i).toInt ≠ 2 ^ 31 - 1 ∧
      (s.obj.waitq.head i ≠ 0 → sent = true ∧
        (s.obj.waitq.items.cell (s.obj.waitq.head i)).pprev = .head i ∧
        0 ≤ (s.obj.value i).toInt + (s.queued.length - s.woken.length))

instance SemRun.Fits.decidable (i : ℕ) (s : SemRun) : ∀ op, Decidable (s.Fits i op)
  | .wait _ _ => inferInstanceAs (Decidable (_ → _))
  | .signal _ => inferInstanceAs (Decidable (_ ∧ _))

/-! ### Counters -/

theorem toInt_sub_one {x : BitVec 32} (h : x.toInt ≠ -2 ^ 31) : (x - 1).toInt = x.toInt - 1 := by
  have hle := x.le_toInt
  have hlt := x.toInt_lt
  rw [BitVec.toInt_sub]
  simp only [show (1 : BitVec 32).toInt = 1 by decide]
  rw [Int.bmod_def]
  split <;> omega

theorem toInt_add_one {x : BitVec 32} (h : x.toInt ≠ 2 ^ 31 - 1) : (x + 1).toInt = x.toInt + 1 := by
  have hle := x.le_toInt
  have hlt := x.toInt_lt
  rw [BitVec.toInt_add]
  simp only [show (1 : BitVec 32).toInt = 1 by decide]
  rw [Int.bmod_def]
  split <;> omega

/-! ### The invariant of the calls that go well -/

/-- The invariant: permits are conserved, and while threads wait the counter is not above minus
their number. -/
structure SemRun.Kept (addr i : ℕ) (v : BitVec 32) (s : SemRun) (l : List ℕ) : Prop where
  conserves : s.ConservesBy i v l
  semp : s.obj.semp = true
  find : semFind s.obj addr = some i
  low : l ≠ [] → (s.obj.value i).toInt + l.length ≤ 0
  threads : ∀ p ∈ l, (s.obj.waitq.items.cell p).thread ≠ 0

section Calls
variable {addr i thread item : ℕ} {v : BitVec 32} {s s' : SemRun} {l : List ℕ} {sent : Bool}

theorem SemRun.Kept.length (h : s.Kept addr i v l) :
    s.queued.length = s.woken.length + l.length := by
  have hlen := congrArg List.length h.conserves.order
  rwa [List.length_append, Waitqs.threads, List.length_map] at hlen

/-- A wait that returns at once. -/
theorem step_wait_return (h : s.Kept addr i v l) (hen : s.Enabled (.wait thread item))
    (hpos : 0 < (s.obj.value i).toInt) :
    ∃ s', semStep addr s (.wait thread item) = some s' ∧ s'.Kept addr i v l := by
  obtain ⟨hqueue, hbound, hvalue, hwaiting, horder⟩ := h.conserves
  have hlen := h.length
  have hval := toInt_sub_one (x := s.obj.value i) (by omega)
  obtain rfl : l = [] := by
    by_contra hne
    have := h.low hne
    omega
  simp only [semStep, if_pos hen, semWait, h.semp, h.find, Bool.true_eq_false, if_false,
    if_neg (show ¬ (s.obj.value i).toInt ≤ 0 by omega), Option.map_some, Bool.false_eq_true,
    if_true]
  simp only [List.length_nil] at hlen hwaiting
  refine ⟨_, rfl, ⟨hqueue, ?_, ?_, ?_, horder⟩, rfl, h.find, fun hne => absurd rfl hne, h.threads⟩
  · simp only
    omega
  · simp only [Function.update_self, hval]
    omega
  · simp only [Function.update_self, hval, List.length_nil]
    omega

/-- A wait for which `kmalloc` has no item. -/
theorem step_wait_fail (h : s.Kept addr i v l) (hen : s.Enabled (.wait thread 0))
    (hpos : (s.obj.value i).toInt ≤ 0) :
    ∃ s', semStep addr s (.wait thread 0) = some s' ∧ s'.Kept addr i v l := by
  have hback : s.obj.value i - 1 + 1 = s.obj.value i := BitVec.sub_add_cancel _ _
  simp only [semStep, if_pos hen, semWait, h.semp, h.find, Bool.true_eq_false, if_false,
    if_pos hpos, waitqAdd, if_true, Option.map_some, Bool.false_eq_true, Function.update_self,
    Function.update_idem, hback, Function.update_eq_self, reduceCtorEq]
  obtain ⟨hqueue, hbound, hvalue, hwaiting, horder⟩ := h.conserves
  exact ⟨_, rfl, ⟨hqueue, hbound, hvalue, hwaiting, horder⟩, rfl, h.find, h.low, h.threads⟩

/-- A wait in the queue. -/
theorem step_wait_queue (h : s.Kept addr i v l) (hen : s.Enabled (.wait thread item))
    (hitem : item ≠ 0) (hpos : (s.obj.value i).toInt ≤ 0) :
    ∃ s', semStep addr s (.wait thread item) = some s' ∧
      s'.obj.value i = s.obj.value i - 1 ∧ s'.returned = s.returned ∧ s'.signals = s.signals ∧
      s'.queued.length = s.queued.length + 1 ∧
      ((s.obj.value i).toInt ≠ -2 ^ 31 → s'.Kept addr i v (l ++ [item])) := by
  obtain ⟨hqueue, hbound, hvalue, hwaiting, horder⟩ := h.conserves
  have hlen := h.length
  obtain ⟨w, hadd, hqueue', hthreads, -, -⟩ := waitqAdd_spec thread hqueue
    (show l.length < s.queued.length + 1 by omega) hitem (hen.2 hitem)
  simp only [semStep, if_pos hen, semWait, h.semp, h.find, Bool.true_eq_false, if_false,
    if_pos hpos, hadd, Option.map_some, if_true]
  refine ⟨_, rfl, Function.update_self .., rfl, rfl, by simp, fun hmin => ?_⟩
  have hval := toInt_sub_one hmin
  refine ⟨⟨hqueue', hbound, ?_, ?_, ?_⟩, rfl, h.find, ?_, ?_⟩
  · simp only [Function.update_self, hval, List.length_append, List.length_singleton]
    omega
  · intro hv
    have := hwaiting hv
    simp only [Function.update_self, hval, List.length_append, List.length_singleton]
    omega
  · simp only [hthreads, horder, List.append_assoc]
  · intro _
    simp only [Function.update_self, hval, List.length_append, List.length_singleton]
    cases l with
    | nil =>
      simp only [List.length_nil]
      omega
    | cons p l =>
      have := h.low (List.cons_ne_nil p l)
      omega
  · have hall : ∀ t ∈ w.threads (l ++ [item]), t ≠ 0 := by
      rw [hthreads]
      intro t ht
      rcases List.mem_append.mp ht with ht | ht
      · obtain ⟨p, hp, rfl⟩ := List.mem_map.mp ht
        exact h.threads p hp
      · rw [List.mem_singleton.mp ht]
        exact hen.1
    intro p hp
    exact hall _ (List.mem_map.mpr ⟨p, hp, rfl⟩)

/-- A signal that finds no thread. -/
theorem step_signal_none (sent : Bool) (h : s.Kept addr i v []) :
    ∃ s', semStep addr s (.signal sent) = some s' ∧
      s'.obj.value i = s.obj.value i + 1 ∧ s'.returned = s.returned ∧
      s'.signals = s.signals + 1 ∧ s'.queued = s.queued ∧
      ((s.obj.value i).toInt ≠ 2 ^ 31 - 1 → s'.Kept addr i v []) := by
  obtain ⟨hqueue, hbound, hvalue, hwaiting, horder⟩ := h.conserves
  have hlen := h.length
  have hhead : s.obj.waitq.head i = 0 := hqueue.1
  simp only [semStep, semSignal, h.semp, h.find, Bool.true_eq_false, if_false, waitqRemove,
    hhead, if_true, ne_eq, not_true_eq_false, false_and]
  refine ⟨_, rfl, Function.update_self .., rfl, rfl, rfl, fun hmax => ?_⟩
  have hval := toInt_add_one hmax
  simp only [List.length_nil] at hlen hwaiting
  refine ⟨⟨hqueue, ?_, ?_, ?_, horder⟩, rfl, h.find, fun hne => absurd rfl hne, h.threads⟩
  · simp only
    omega
  · simp only [Function.update_self, hval]
    omega
  · simp only [Function.update_self, hval, List.length_nil]
    omega

/-- A signal that finds a thread: what the counters and the queue are then. -/
theorem step_signal_some (sent : Bool) {p : ℕ} (h : s.Kept addr i v (p :: l)) :
    ∃ s', semStep addr s (.signal sent) = some s' ∧
      s'.obj.waitq = (waitqRemove s.obj.waitq i).2 ∧ s'.returned = s.returned ∧
      s'.queued = s.queued ∧ s'.obj.semp = true ∧ semFind s'.obj addr = some i ∧
      (sent = false → s'.woken = s.woken) ∧
      (sent = true → s'.woken = s.woken ++ [(s.obj.waitq.items.cell p).thread] ∧
        s'.signals = s.signals + 1 ∧ s'.obj.value i = s.obj.value i + 1) := by
  obtain ⟨hqueue, hbound, hvalue, hwaiting, horder⟩ := h.conserves
  have hthread : (waitqRemove s.obj.waitq i).1 = (s.obj.waitq.items.cell p).thread := by
    simp only [waitqRemove, hqueue.1.1, if_neg hqueue.1.2.1]
  have hne := h.threads p List.mem_cons_self
  cases sent with
  | false =>
    simp only [semStep, semSignal, h.semp, h.find, Bool.true_eq_false, if_false, hthread, ne_eq,
      hne, not_false_eq_true, if_true, Bool.false_eq_true, and_false]
    refine ⟨_, rfl, rfl, rfl, rfl, rfl, h.find, fun _ => rfl, ?_⟩
    rintro ⟨⟩
  | true =>
    simp only [semStep, semSignal, h.semp, h.find, Bool.true_eq_false, if_false, hthread, ne_eq,
      hne, not_false_eq_true, if_true, and_self]
    refine ⟨_, rfl, rfl, rfl, rfl, rfl, h.find, ?_, fun _ => ⟨rfl, rfl, Function.update_self ..⟩⟩
    rintro ⟨⟩

/-- A call that meets the condition conserves the permits, and keeps the invariant. -/
theorem SemRun.Kept.step (h : s.Kept addr i v l) {op : SemOp} (hen : s.Enabled op)
    (hfits : s.Fits i op) : ∃ s' l', semStep addr s op = some s' ∧ s'.Kept addr i v l' := by
  have hlen := h.length
  cases op with
  | wait thread item =>
    by_cases hpos : (s.obj.value i).toInt ≤ 0
    · by_cases hitem : item = 0
      · subst hitem
        obtain ⟨s', hstep, hkept⟩ := step_wait_fail h hen hpos
        exact ⟨s', l, hstep, hkept⟩
      · obtain ⟨s', hstep, -, -, -, -, hkept⟩ := step_wait_queue h hen hitem hpos
        exact ⟨s', l ++ [item], hstep, hkept (hfits hen hitem)⟩
    · obtain ⟨s', hstep, hkept⟩ := step_wait_return h hen (by omega)
      exact ⟨s', l, hstep, hkept⟩
  | signal sent =>
    cases l with
    | nil =>
      obtain ⟨s', hstep, -, -, -, -, hkept⟩ := step_signal_none sent h
      exact ⟨s', [], hstep, hkept hfits.1⟩
    | cons p l =>
      obtain ⟨hqueue, hbound, hvalue, hwaiting, horder⟩ := h.conserves
      have hhead : s.obj.waitq.head i = p := hqueue.1.1
      obtain ⟨hsent, hprev, hdebt⟩ := hfits.2 (by rw [hhead]; exact hqueue.1.2.1)
      rw [hhead] at hprev
      obtain ⟨-, hqueue', hcells⟩ := waitqRemove_spec hqueue hprev
      obtain ⟨s', hstep, hwaitq, hreturned, hqueued, hsemp, hfind, -, hrest⟩ :=
        step_signal_some sent h
      obtain ⟨hwoken, hsignals, hval⟩ := hrest hsent
      have hvalue' := toInt_add_one hfits.1
      have hlow := h.low (List.cons_ne_nil p l)
      simp only [List.length_cons] at hlen hlow hwaiting
      refine ⟨s', l, hstep, ⟨by rw [hwaitq]; exact hqueue', ?_, ?_, ?_, ?_⟩, hsemp, hfind, ?_, ?_⟩
      · simp only [hreturned, hwoken, hsignals, List.length_append, List.length_singleton]
        omega
      · rw [hval, hvalue', hsignals, hreturned, hqueued]
        omega
      · rw [hval, hvalue']
        omega
      · rw [hqueued, hwoken, hwaitq, horder]
        simp only [Waitqs.threads, hcells, List.map_cons, List.append_assoc, List.singleton_append]
      · rw [hval, hvalue']
        omega
      · intro y hy
        rw [hwaitq, hcells]
        exact h.threads y (List.mem_cons_of_mem p hy)

/-- A call that does not meet the condition loses some. -/
theorem SemRun.Kept.not_conserves (h : s.Kept addr i v l) {op : SemOp} (hen : s.Enabled op)
    (hfits : ¬ s.Fits i op) (hstep : semStep addr s op = some s') : ¬ s'.Conserves i v := by
  have hlen := h.length
  obtain ⟨hqueue, hbound, hvalue, hwaiting, horder⟩ := h.conserves
  rintro ⟨l', hqueue', hbound', hvalue', -, horder'⟩
  have hlen' := congrArg List.length horder'
  rw [List.length_append, Waitqs.threads, List.length_map] at hlen'
  cases op with
  | wait thread item =>
    -- the counter runs over
    simp only [SemRun.Fits, Classical.not_imp, not_not] at hfits
    obtain ⟨-, hitem, hmin⟩ := hfits
    obtain ⟨s₁, hstep₁, hval, hreturned, hsignals, hqueued, -⟩ :=
      step_wait_queue h hen hitem (by omega)
    obtain rfl : s₁ = s' := Option.some.inj (hstep₁.symm.trans hstep)
    have hover : (s.obj.value i - 1).toInt = 2 ^ 31 - 1 := by
      rw [BitVec.toInt_sub, hmin]
      decide
    rw [hval, hover, hreturned, hsignals] at hvalue'
    omega
  | signal sent =>
    cases l with
    | nil =>
      obtain ⟨s₁, hstep₁, hval, hreturned, hsignals, hqueued, -⟩ := step_signal_none sent h
      obtain rfl : s₁ = s' := Option.some.inj (hstep₁.symm.trans hstep)
      have hmax : (s.obj.value i).toInt = 2 ^ 31 - 1 := by
        by_contra hmax
        exact hfits ⟨hmax, fun hne => absurd hqueue.1 hne⟩
      have hover : (s.obj.value i + 1).toInt = -2 ^ 31 := by
        rw [BitVec.toInt_add, hmax]
        decide
      rw [hval, hover, hreturned, hsignals, hqueued] at hvalue'
      omega
    | cons p l =>
      have hhead : s.obj.waitq.head i = p := hqueue.1.1
      obtain ⟨s₁, hstep₁, hwaitq, hreturned, hqueued, -, -, hlost, hrest⟩ :=
        step_signal_some sent h
      obtain rfl : s₁ = s' := Option.some.inj (hstep₁.symm.trans hstep)
      have hlow := h.low (List.cons_ne_nil p l)
      simp only [List.length_cons] at hlen hlow
      rw [hwaitq] at hqueue'
      by_cases hprev : (s.obj.waitq.items.cell p).pprev = .head i
      · obtain ⟨-, hqueue₁, -⟩ := waitqRemove_spec hqueue hprev
        obtain rfl := hqueue'.unique hqueue₁
        cases sent with
        | false =>
          -- the thread is not on the queue any more
          rw [hqueued, hlost rfl] at hlen'
          omega
        | true =>
          obtain ⟨hwoken, hsignals, hval⟩ := hrest rfl
          have hdebt : ¬ 0 ≤ (s.obj.value i).toInt + (s.queued.length - s.woken.length) :=
            fun hdebt => hfits ⟨by omega, fun _ => ⟨rfl, by rw [hhead]; exact hprev, hdebt⟩⟩
          rw [hwoken, hsignals, hreturned, List.length_append, List.length_singleton] at hbound'
          omega
      · exact waitqRemove_stuck hqueue hprev l' hqueue'

/-- A call conserves the permits just when it meets the condition. -/
theorem SemRun.Kept.sound_iff (h : s.Kept addr i v l) (op : SemOp) :
    s.Sound addr i v op ↔ s.Fits i op := by
  constructor
  · intro hsound
    by_contra hfits
    have hen : s.Enabled op := by
      cases op with
      | wait thread item => exact (Classical.not_imp.mp hfits).1
      | signal sent => trivial
    obtain ⟨s', hstep, hconserves⟩ := hsound hen
    exact h.not_conserves hen hfits hstep hconserves
  · intro hfits hen
    obtain ⟨s', l', hstep, hkept⟩ := h.step hen hfits
    exact ⟨s', hstep, l', hkept.conserves⟩

/-- The invariant goes on. -/
theorem SemRun.Kept.next (h : s.Kept addr i v l) {op : SemOp} (hfits : s.Fits i op)
    (hstep : semStep addr s op = some s') : ∃ l', s'.Kept addr i v l' := by
  by_cases hen : s.Enabled op
  · obtain ⟨s₁, l', hstep₁, hkept⟩ := h.step hen hfits
    obtain rfl : s₁ = s' := Option.some.inj (hstep₁.symm.trans hstep)
    exact ⟨l', hkept⟩
  · -- `kmalloc` does not return a block in use
    cases op with
    | wait thread item =>
      rw [semStep, if_neg hen] at hstep
      cases hstep
    | signal sent => exact absurd trivial hen

end Calls

/-! ### Creation -/

section Create
variable {address : ℕ → ℕ} {addr i : ℕ} {l : List ℕ} {s s₀ : SemObj} {block : Bool}
  {v : BitVec 32}

/-- `sem_create` takes the first unused semaphore. -/
theorem createScan_some {r : Option ℕ} (h : createScan address addr l (some i) = some r) :
    r = some i := by
  induction l with
  | nil => exact (Option.some.inj h).symm
  | cons j l ih =>
    simp only [createScan, Option.isNone_some, Bool.false_eq_true, false_and, if_false] at h
    split at h
    · cases h
    · exact ih h

/-- No semaphore before it has the address. -/
theorem createScan_spec (h : createScan address addr l none = some (some i)) :
    ∃ l₁ l₂, l = l₁ ++ i :: l₂ ∧ ∀ j ∈ l₁, address j ≠ addr := by
  induction l with
  | nil => cases h
  | cons j l ih =>
    simp only [createScan, Option.isNone_none, true_and] at h
    by_cases hj : address j = 0
    · rw [if_pos hj] at h
      obtain rfl := Option.some.inj (createScan_some h)
      exact ⟨[], l, rfl, by simp⟩
    · rw [if_neg hj] at h
      by_cases haddr : address j = addr
      · rw [if_pos haddr] at h
        cases h
      · rw [if_neg haddr] at h
        obtain ⟨l₁, l₂, rfl, hl₁⟩ := ih h
        refine ⟨j :: l₁, l₂, rfl, fun k hk => ?_⟩
        rcases List.mem_cons.mp hk with rfl | hk
        · exact haddr
        · exact hl₁ k hk

/-- A semaphore that was created is found, and has its value; its queue is what the memory held. -/
theorem semCreate_spec (h : semCreate s₀ block addr v = (.success, s)) :
    ∃ i, semFind s addr = some i ∧ s.semp = true ∧ s.value i = v ∧ s.waitq = s₀.waitq := by
  unfold semCreate at h
  split at h
  · cases h
  · dsimp only at h
    split at h
    · cases h
    · cases h
    · rename_i i hscan
      obtain ⟨-, rfl⟩ := Prod.mk.inj h
      refine ⟨i, ?_, rfl, Function.update_self .., rfl⟩
      obtain ⟨l₁, l₂, hl, hl₁⟩ := createScan_spec hscan
      have hnodup : (List.range semMax).Nodup := List.nodup_range
      rw [semFind, hl, List.find?_eq_some_iff_append]
      refine ⟨by simp, l₁, l₂, rfl, fun j hj => ?_⟩
      have hji : j ≠ i := by
        rintro rfl
        rw [hl] at hnodup
        exact (List.nodup_append.mp hnodup).2.2 j hj j List.mem_cons_self rfl
      simpa [Function.update_of_ne hji] using hl₁ j hj

end Create

/-- **When a semaphore conserves its permits.**  For a semaphore made by `sem_create` with any
value, and all calls on it, this is when the memory of its queue pointer was `NULL`, and every call
meets the condition: the counter does not run over, and a thread that is woken gets the message,
was queued when no other waited, and all of a negative first value has been made up for. -/
theorem semaphore_conserves_iff {s₀ s : SemObj} {block : Bool} {addr : ℕ} {v : BitVec 32}
    (hcreate : semCreate s₀ block addr v = (.success, s)) :
    ∃ i, semFind s addr = some i ∧ ∀ ops,
      ((semStart s).Conserves i v ∧
          Along (semStep addr) (SemRun.Sound addr i v) (semStart s) ops ↔
        s₀.waitq.head i = 0 ∧ Along (semStep addr) (SemRun.Fits i) (semStart s) ops) := by
  obtain ⟨i, hfind, hsemp, hvalue, hwaitq⟩ := semCreate_spec hcreate
  refine ⟨i, hfind, fun ops => ?_⟩
  have hhead : (semStart s).Conserves i v → s₀.waitq.head i = 0 := by
    rintro ⟨l, hl⟩
    have hlen := congrArg List.length hl.order
    rw [← hwaitq]
    refine hl.queue.nil_iff.mp (List.length_eq_zero_iff.mp ?_)
    simpa [semStart, Waitqs.threads, eq_comm] using hlen
  have hkept : s₀.waitq.head i = 0 → (semStart s).Kept addr i v [] := by
    intro hnull
    refine ⟨⟨⟨?_, by simp⟩, ?_, ?_, ?_, rfl⟩, hsemp, hfind, fun hne => absurd rfl hne, by simp⟩
    · change s.waitq.head i = 0
      rw [hwaitq, hnull]
    · simp [semStart]
    · simp [semStart, hvalue]
    · simp only [semStart, hvalue, List.length_nil]
      omega
  have hiff : s₀.waitq.head i = 0 →
      (Along (semStep addr) (SemRun.Sound addr i v) (semStart s) ops ↔
        Along (semStep addr) (SemRun.Fits i) (semStart s) ops) := by
    intro hnull
    refine along_congr (I := fun s => ∃ l, s.Kept addr i v l) ?_ ?_ ops _ ⟨[], hkept hnull⟩
    · rintro _ op ⟨_, h⟩
      exact h.sound_iff op
    · rintro _ _ _ ⟨_, h⟩ hfits hstep
      exact h.next hfits hstep
  constructor
  · rintro ⟨hconserves, hall⟩
    have hnull := hhead hconserves
    exact ⟨hnull, (hiff hnull).mp hall⟩
  · rintro ⟨hnull, hall⟩
    exact ⟨⟨[], (hkept hnull).conserves⟩, (hiff hnull).mpr hall⟩

/-- An object without semaphores, in clear memory. -/
def clearSem : SemObj :=
  ⟨false, fun _ => 0, fun _ => 0, ⟨⟨fun _ => ⟨0, 0, .head 0⟩, fun _ => false⟩, fun _ => 0⟩⟩

/-- The semaphore it gets at address 1, with the value `v`. -/
def oneSem (v : BitVec 32) : SemObj := (semCreate clearSem true 1 v).2

theorem oneSem_create (v : BitVec 32) : semCreate clearSem true 1 v = (.success, oneSem v) := rfl

/-- A wait that returns, one in the queue, and its wake-up. -/
theorem semaphore_conserves_iff_one : ∃ i, semFind (oneSem 1) 1 = some i ∧
    Along (semStep 1) (SemRun.Sound 1 i 1) (semStart (oneSem 1))
      [.wait 7 1, .wait 7 1, .signal true] := by
  obtain ⟨i, hfind, hiff⟩ := semaphore_conserves_iff (oneSem_create 1)
  obtain rfl : i = 0 := by
    have hzero : semFind (oneSem 1) 1 = some 0 := by decide
    exact Option.some.inj (hfind.symm.trans hzero)
  exact ⟨0, hfind, ((hiff _).mpr ⟨rfl, by decide +kernel⟩).2⟩

/-- Two threads wait and are woken: the item of the second stays on the queue. -/
theorem semaphore_not_conserves : ¬ ∀ (s₀ s : SemObj) (block : Bool) (addr i : ℕ) (v : BitVec 32),
    semCreate s₀ block addr v = (.success, s) → semFind s addr = some i → ∀ ops,
    (semStart s).Conserves i v ∧ Along (semStep addr) (SemRun.Sound addr i v) (semStart s) ops := by
  intro h
  have hrun : (run (semStep 1) (semStart (oneSem 0)) [.wait 7 1, .wait 8 2, .signal true]).map
      (fun s => (semStep 1 s (.signal true)).map fun s' =>
        (s'.queued, s'.woken, s'.obj.waitq.head 0)) = some (some ([7, 8], [7, 8], 2)) := by
    decide +kernel
  obtain ⟨s, hs, hfacts⟩ := Option.map_eq_some_iff.mp hrun
  have hall := (h clearSem (oneSem 0) true 1 0 0 rfl (by decide)
    ([.wait 7 1, .wait 8 2, .signal true] ++ .signal true :: [])).2
  obtain ⟨s', hstep, l, hl⟩ := hall.at hs trivial
  rw [hstep, Option.map_some, Option.some.injEq, Prod.mk.injEq, Prod.mk.injEq] at hfacts
  obtain ⟨hqueued, hwoken, hhead⟩ := hfacts
  have hlen := congrArg List.length hl.order
  rw [hqueued, hwoken, List.length_append, Waitqs.threads, List.length_map] at hlen
  have hnil : l = [] := List.length_eq_zero_iff.mp (by simpa using hlen)
  rw [hl.queue.nil_iff.mp hnil] at hhead
  cases hhead

end Mungi
