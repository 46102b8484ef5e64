import Mungi.Lib.Simulation
import Mathlib.Data.List.Basic

/-!
# The spin lock

Every table of the kernel has a lock, which its threads take turns with (`lock.c`).  A thread gets
it by a pair of instructions, `ll` and `sc`, the second of which stores only if nobody has written
the word since the first, and waits by trying again; in between it gives its time to the thread
named in the lock, if names are kept there.  The threads are interleaved instruction by
instruction.

## Main definitions

* `SpinLock`, `lockStep` — the lock with the threads around it, and one instruction of one of them.
* `mutexStep` — what a lock is for: it has an owner or none.
* `LockInv` — the lock as its owner has left it.

## Main results

* `lockStep_simulates` — each instruction does what the owner may do.
* `lock_serial` — **the lock has one owner at a time, whatever the order of the instructions.**
* `lock_named` — **the name in the lock is the owner's.**
* `lock_progress` — **a free lock is got by whoever asks for it alone.**
-/

namespace Mungi

open Runs

/-! ### The code -/

/-- Who has come to `get_lock_indirect`. -/
inductive Getter where
  /-- `_lock_lock` itself. -/
  | lock
  /-- `wait_on_lock`, through `_lock_try_lock`. -/
  | wait
  /-- A caller of `_lock_try_lock`. -/
  | tryLock
  deriving DecidableEq

/-- The instruction that a thread has come to. -/
inductive LockPlace where
  /-- It has nothing to do with the lock. -/
  | out
  /-- `ll`, of `get_lock_indirect`. -/
  | load (g : Getter)
  /-- `sc` -/
  | store (g : Getter)
  /-- `set_locker( l, is_locked )` of `_lock_try_lock`, with the lock. -/
  | mark (g : Getter)
  /-- `l4_thread_switch(t)` of `wait_on_lock`. -/
  | poll
  /-- `set_locker(l, 1)` of `_lock_lock`. -/
  | own
  /-- It has come back with the lock. -/
  | held
  /-- `l->l_locker.ID = 0` of `_lock_unlock`. -/
  | unmark
  /-- `l->l_lock = 0` -/
  | clear
  deriving DecidableEq

/-- Where it goes on when it has not got the lock. -/
def Getter.failed : Getter → LockPlace
  | .lock => .load .wait
  | .wait => .poll
  | .tryLock => .out

/-- And when it has. -/
def Getter.taken : Getter → LockPlace
  | .lock => .own
  | g => .mark g

/-- Where `_lock_try_lock` returns to. -/
def Getter.marked : Getter → LockPlace
  | .tryLock => .held
  | _ => .own

/-- A lock, and the threads `T` that use it. -/
structure SpinLock (T : Type) where
  lLock : ℕ
  /-- `none` is `L4_NIL_ID`. -/
  lLocker : Option T
  /-- Nobody has written `l_lock` since the thread's `ll`. -/
  linked : T → Bool
  place : T → LockPlace

/-- `_lock_init`, which leaves the name as it is. -/
def lockInit {T : Type} (locker : Option T) : SpinLock T := ⟨0, locker, fun _ => false, fun _ => .out⟩

variable {T : Type} [DecidableEq T]

/-- The thread goes on somewhere. -/
def SpinLock.goto (s : SpinLock T) (i : T) (p : LockPlace) : SpinLock T :=
  { s with place := Function.update s.place i p }

/-- `set_locker`, or nothing if there are no names: `keep` is `LOCK_KEEP_TID`. -/
def SpinLock.setLocker (keep : Bool) (s : SpinLock T) (locker : Option T) : SpinLock T :=
  if keep then { s with lLocker := locker } else s

/-- A write to `l_lock`. -/
def SpinLock.write (s : SpinLock T) (v : ℕ) : SpinLock T :=
  { s with lLock := v, linked := fun _ => false }

/-- The calls, and single instructions. -/
inductive LockAct (T : Type) where
  | lock (i : T)
  | tryLock (i : T)
  | unlock (i : T)
  /-- The next instruction of a thread; `ok` lets a store conditional through. -/
  | exec (i : T) (ok : Bool)

/-- One instruction. -/
def lockExec (keep : Bool) (s : SpinLock T) (i : T) (ok : Bool) : Option (SpinLock T) :=
  match s.place i with
  | .out => none
  | .held => none
  | .load g =>
    let s := { s with linked := Function.update s.linked i true }
    if s.lLock ≠ 0 then some (s.goto i g.failed) else some (s.goto i (.store g))
  | .store g =>
    if ok ∧ s.linked i then some ((s.write 1).goto i g.taken)
    else some ({ s with linked := Function.update s.linked i false }.goto i g.failed)
  | .mark g => some ((s.setLocker keep (some i)).goto i g.marked)
  | .poll => some (s.goto i (.load .wait))
  | .own => some ((s.setLocker keep (some i)).goto i .held)
  | .unmark => some ((s.setLocker keep none).goto i .clear)
  | .clear => some ((s.write 0).goto i .out)

/-- A call begins, or a thread gets on with its own.  Only who has the lock gives it back. -/
def lockStep (keep : Bool) (s : SpinLock T) : LockAct T → Option (SpinLock T)
  | .lock i => if s.place i = .out then some (s.goto i (.load .lock)) else none
  | .tryLock i => if s.place i = .out then some (s.goto i (.load .tryLock)) else none
  | .unlock i => if s.place i = .held then some (s.goto i .unmark) else none
  | .exec i ok => lockExec keep s i ok

/-! ### What a lock is for -/

/-- What is seen of a lock. -/
inductive MutexAct (T : Type) where
  | acquire (i : T)
  | release (i : T)
  deriving DecidableEq

/-- It has an owner, or none. -/
def mutexStep : Option T → MutexAct T → Option (Option T)
  | none, .acquire i => some (some i)
  | some j, .release i => if i = j then some none else none
  | _, _ => none

/-- The instructions that are seen: the stores to `l_lock`. -/
def lockObs (s : SpinLock T) : LockAct T → List (MutexAct T)
  | .exec i ok =>
    match s.place i with
    | .store _ => if ok ∧ s.linked i then [.acquire i] else []
    | .clear => [.release i]
    | _ => []
  | _ => []

/-- The thread has the lock. -/
def LockPlace.Holds : LockPlace → Prop
  | .mark _ => True
  | .own => True
  | .held => True
  | .unmark => True
  | .clear => True
  | _ => False

instance : DecidablePred LockPlace.Holds
  | .out => .isFalse not_false
  | .load _ => .isFalse not_false
  | .store _ => .isFalse not_false
  | .mark _ => .isTrue trivial
  | .poll => .isFalse not_false
  | .own => .isTrue trivial
  | .held => .isTrue trivial
  | .unmark => .isTrue trivial
  | .clear => .isTrue trivial

/-- It has the lock, and its name is in it. -/
def LockPlace.Named (p : LockPlace) : Prop := p = .held ∨ p = .unmark

theorem LockPlace.Named.holds {p : LockPlace} (h : p.Named) : p.Holds := by
  rcases h with rfl | rfl
  · trivial
  · trivial

/-- **The lock as its owner has left it**; `locker` is the name it was made with. -/
structure LockInv (keep : Bool) (locker : Option T) (s : SpinLock T) (owner : Option T) : Prop where
  owner_iff : ∀ i, (s.place i).Holds ↔ owner = some i
  free_iff : s.lLock = 0 ↔ owner = none
  /-- A store that will get through finds the lock free. -/
  linked : ∀ i g, s.place i = .store g → s.linked i = true → owner = none
  name : ∀ i, s.lLocker = some i →
    locker = some i ∨ keep = true ∧ (s.place i).Holds ∧ s.place i ≠ .clear
  named : keep = true → ∀ i, (s.place i).Named → s.lLocker = some i

omit [DecidableEq T] in
theorem lockInv_init (keep : Bool) (locker : Option T) :
    LockInv keep locker (lockInit locker) none where
  owner_iff i := iff_of_false not_false (Option.some_ne_none i ∘ Eq.symm)
  free_iff := iff_of_true rfl rfl
  linked _ _ _ _ := rfl
  name _ h := Or.inl h
  named _ _ h := by rcases h with h | h <;> cases h

/-! ### Instructions -/

section Exec
variable {keep : Bool} {locker : Option T} {s s' : SpinLock T} {owner : Option T} {i : T} {p : LockPlace}

@[simp] theorem SpinLock.goto_place_self : (s.goto i p).place i = p := Function.update_self ..

theorem SpinLock.goto_place_ne {j : T} (h : j ≠ i) : (s.goto i p).place j = s.place j :=
  Function.update_of_ne h ..

/-- A thread that does not get the lock, or give it back, gets on. -/
theorem LockInv.goto (h : LockInv keep locker s owner) (hholds : p.Holds ↔ (s.place i).Holds)
    (hlinked : ∀ g, p = .store g → s.linked i = true → owner = none)
    (hclear : p ≠ .clear) (hnamed : keep = true → p.Named → s.lLocker = some i) :
    LockInv keep locker (s.goto i p) owner where
  owner_iff j := by
    by_cases hj : j = i
    · subst hj
      rw [SpinLock.goto_place_self, hholds]
      exact h.owner_iff j
    · rw [SpinLock.goto_place_ne hj]
      exact h.owner_iff j
  free_iff := h.free_iff
  linked j g := by
    by_cases hj : j = i
    · subst hj
      rw [SpinLock.goto_place_self]
      exact hlinked g
    · rw [SpinLock.goto_place_ne hj]
      exact h.linked j g
  name j hlocker := by
    by_cases hj : j = i
    · subst hj
      rw [SpinLock.goto_place_self, hholds]
      exact (h.name j hlocker).imp_right fun hheld => ⟨hheld.1, hheld.2.1, hclear⟩
    · rw [SpinLock.goto_place_ne hj]
      exact h.name j hlocker
  named hkeep j := by
    by_cases hj : j = i
    · subst hj
      rw [SpinLock.goto_place_self]
      exact hnamed hkeep
    · rw [SpinLock.goto_place_ne hj]
      exact h.named hkeep j

omit [DecidableEq T] in
/-- Links come and go without a write. -/
theorem LockInv.relink (h : LockInv keep locker s owner) {linked : T → Bool}
    (hlinked : ∀ j g, s.place j = .store g → linked j = true → s.linked j = true) :
    LockInv keep locker { s with linked } owner :=
  ⟨h.owner_iff, h.free_iff, fun j g hp hl => h.linked j g hp (hlinked j g hp hl), h.name, h.named⟩

/-- The owner writes its name, or takes it out, and gets on. -/
theorem LockInv.sign (h : LockInv keep locker s owner) (hi : (s.place i).Holds) (hp : p.Holds)
    {name : Option T} (hname : name = some i ∧ p ≠ .clear ∨ name = none ∧ ¬ p.Named) :
    LockInv keep locker ((s.setLocker keep name).goto i p) owner := by
  have howner := (h.owner_iff i).mp hi
  have hplace : ∀ j, ((s.setLocker keep name).goto i p).place j = Function.update s.place i p j := by
    intro j
    cases keep <;> rfl
  have hother : ∀ {j}, j ≠ i → ¬ (s.place j).Holds := fun hj hheld =>
    hj (Option.some.inj (((h.owner_iff _).mp hheld).symm.trans howner))
  have hlLock : ((s.setLocker keep name).goto i p).lLock = s.lLock := by cases keep <;> rfl
  have hlLocker : ((s.setLocker keep name).goto i p).lLocker =
      if keep = true then name else s.lLocker := by cases keep <;> rfl
  have hlinked : ((s.setLocker keep name).goto i p).linked = s.linked := by cases keep <;> rfl
  constructor
  · intro j
    rw [hplace]
    by_cases hj : j = i
    · subst hj
      rw [Function.update_self]
      exact iff_of_true hp howner
    · rw [Function.update_of_ne hj]
      exact h.owner_iff j
  · rw [hlLock]
    exact h.free_iff
  · intro j g
    rw [hplace, hlinked]
    by_cases hj : j = i
    · subst hj
      rw [Function.update_self]
      rintro rfl
      exact hp.elim
    · rw [Function.update_of_ne hj]
      exact h.linked j g
  · intro j
    rw [hplace, hlLocker]
    cases keep with
    | false => exact fun hj => (h.name j hj).imp_right fun hno => Bool.noConfusion hno.1
    | true =>
      intro hj
      rcases hname with ⟨rfl, hclear⟩ | ⟨rfl, -⟩
      · obtain rfl := Option.some.inj hj
        rw [Function.update_self]
        exact Or.inr ⟨rfl, hp, hclear⟩
      · cases hj
  · rintro rfl j hj
    rw [hplace] at hj
    rw [hlLocker, if_pos rfl]
    by_cases hji : j = i
    · subst hji
      rw [Function.update_self] at hj
      rcases hname with ⟨rfl, -⟩ | ⟨rfl, hno⟩
      · rfl
      · exact absurd hj hno
    · rw [Function.update_of_ne hji] at hj
      exact absurd hj.holds (hother hji)

/-- The lock is taken: it was free, and nobody else is about to take it. -/
theorem LockInv.acquire (h : LockInv keep locker s owner) (hfree : owner = none)
    (hp : p.Holds) (hnamed : ¬ p.Named) :
    LockInv keep locker ((s.write 1).goto i p) (some i) := by
  subst hfree
  have hnobody : ∀ j, ¬ (s.place j).Holds := fun j hj => nomatch (h.owner_iff j).mp hj
  have hplace : ∀ {j}, j ≠ i → ((s.write 1).goto i p).place j = s.place j :=
    fun hj => SpinLock.goto_place_ne hj
  refine ⟨fun j => ?_, iff_of_false Nat.one_ne_zero (Option.some_ne_none i), fun _ _ _ hl => ?_,
    fun j hj => ?_, fun hkeep j hj => ?_⟩
  · by_cases hj : j = i
    · subst hj
      rw [SpinLock.goto_place_self]
      exact iff_of_true hp rfl
    · rw [hplace hj]
      exact iff_of_false (hnobody j) fun heq => hj (Option.some.inj heq).symm
  · cases hl
  · rcases h.name j hj with hlocker | hheld
    · exact Or.inl hlocker
    · exact absurd hheld.2.1 (hnobody j)
  · by_cases hji : j = i
    · subst hji
      rw [SpinLock.goto_place_self] at hj
      exact absurd hj hnamed
    · rw [hplace hji] at hj
      exact absurd hj.holds (hnobody j)

/-- The lock is given back, after the name. -/
theorem LockInv.release (h : LockInv keep locker s owner) (hi : s.place i = .clear) :
    LockInv keep locker ((s.write 0).goto i .out) none := by
  have howner : owner = some i := (h.owner_iff i).mp (by rw [hi]; trivial)
  have hone : ∀ j, (s.place j).Holds → j = i := fun j hj =>
    Option.some.inj (((h.owner_iff j).mp hj).symm.trans howner)
  have hplace : ∀ {j}, j ≠ i → ((s.write 0).goto i .out).place j = s.place j :=
    fun hj => SpinLock.goto_place_ne hj
  refine ⟨fun j => ?_, iff_of_true rfl rfl, fun _ _ _ _ => rfl, fun j hj => ?_,
    fun hkeep j hj => ?_⟩
  · by_cases hj : j = i
    · subst hj
      rw [SpinLock.goto_place_self]
      exact iff_of_false not_false (Option.some_ne_none j ∘ Eq.symm)
    · rw [hplace hj]
      exact iff_of_false (fun hheld => hj (hone j hheld)) (Option.some_ne_none j ∘ Eq.symm)
  · rcases h.name j hj with hlocker | hheld
    · exact Or.inl hlocker
    · obtain rfl := hone j hheld.2.1
      exact absurd hi hheld.2.2
  · by_cases hji : j = i
    · subst hji
      rw [SpinLock.goto_place_self] at hj
      rcases hj with hj | hj <;> cases hj
    · rw [hplace hji] at hj
      exact absurd (hone j hj.holds) hji

theorem Getter.not_holds_failed (g : Getter) : ¬ g.failed.Holds := by
  cases g <;> exact not_false

theorem Getter.failed_ne_store (g g' : Getter) : g.failed ≠ .store g' := by
  cases g <;> exact nofun

theorem Getter.holds_taken (g : Getter) : g.taken.Holds := by
  cases g <;> trivial

theorem Getter.not_named_taken (g : Getter) : ¬ g.taken.Named := by
  cases g <;> exact fun h => h.elim nofun nofun

theorem Getter.holds_marked (g : Getter) : g.marked.Holds := by
  cases g <;> trivial

theorem Getter.marked_ne_clear (g : Getter) : g.marked ≠ .clear := by
  cases g <;> exact nofun

/-- Who does not have the lock goes on without it. -/
theorem LockInv.pass (h : LockInv keep locker s owner) (hi : ¬ (s.place i).Holds) (hp : ¬ p.Holds)
    (hlinked : ∀ g, p = .store g → s.linked i = true → owner = none) :
    LockInv keep locker (s.goto i p) owner := by
  refine h.goto (iff_of_false hp hi) hlinked ?_ fun _ hnamed => absurd hnamed.holds hp
  rintro rfl
  exact hp trivial

omit keep locker s s' owner i p in
theorem run_release (i : T) : run mutexStep (some i) [.release i] = some none := by
  simp [run, mutexStep]

/-- **An instruction does what the owner may do.** -/
theorem lockExec_simulates (h : LockInv keep locker s owner) {ok : Bool}
    (hs' : lockExec keep s i ok = some s') :
    ∃ owner', run mutexStep owner (lockObs s (.exec i ok)) = some owner' ∧
      LockInv keep locker s' owner' := by
  have hkeeps : ∀ j g, s.place j = .store g → j ≠ i → ∀ b,
      Function.update s.linked i b j = true → s.linked j = true := by
    intro j g _ hj b hl
    rwa [Function.update_of_ne hj] at hl
  unfold lockExec at hs'
  unfold lockObs
  dsimp only
  cases hi : s.place i with
  | out => rw [hi] at hs'; cases hs'
  | held => rw [hi] at hs'; cases hs'
  | load g =>
    rw [hi] at hs'
    dsimp only at hs' ⊢
    have hno : ¬ (s.place i).Holds := by rw [hi]; exact not_false
    have hlink : LockInv keep locker { s with linked := Function.update s.linked i true } owner :=
      h.relink fun j g' hj => hkeeps j g' hj (by rintro rfl; rw [hi] at hj; cases hj) true
    refine ⟨owner, rfl, ?_⟩
    split_ifs at hs' with hlock
    · obtain rfl := Option.some.inj hs'
      exact hlink.pass hno g.not_holds_failed fun g' hg' => absurd hg' (g.failed_ne_store g')
    · obtain rfl := Option.some.inj hs'
      exact hlink.pass hno not_false fun _ _ _ => h.free_iff.mp (not_not.mp hlock)
  | store g =>
    rw [hi] at hs'
    dsimp only at hs' ⊢
    have hno : ¬ (s.place i).Holds := by rw [hi]; exact not_false
    by_cases hok : ok ∧ s.linked i
    · rw [if_pos hok] at hs' ⊢
      obtain rfl := Option.some.inj hs'
      have hfree := h.linked i g hi hok.2
      exact ⟨some i, by rw [hfree]; rfl, h.acquire hfree g.holds_taken g.not_named_taken⟩
    · rw [if_neg hok] at hs' ⊢
      obtain rfl := Option.some.inj hs'
      refine ⟨owner, rfl, LockInv.pass (h.relink fun j g' hj => ?_) hno g.not_holds_failed
        fun g' hg' => absurd hg' (g.failed_ne_store g')⟩
      by_cases hji : j = i
      · subst hji
        rw [Function.update_self]
        exact nofun
      · exact hkeeps j g' hj hji false
  | mark g =>
    rw [hi] at hs'
    obtain rfl := Option.some.inj hs'
    exact ⟨owner, rfl, h.sign (by rw [hi]; trivial) g.holds_marked
      (Or.inl ⟨rfl, g.marked_ne_clear⟩)⟩
  | poll =>
    rw [hi] at hs'
    obtain rfl := Option.some.inj hs'
    exact ⟨owner, rfl, h.pass (by rw [hi]; exact not_false) not_false nofun⟩
  | own =>
    rw [hi] at hs'
    obtain rfl := Option.some.inj hs'
    exact ⟨owner, rfl, h.sign (by rw [hi]; trivial) (show LockPlace.held.Holds from trivial)
      (Or.inl ⟨rfl, nofun⟩)⟩
  | unmark =>
    rw [hi] at hs'
    obtain rfl := Option.some.inj hs'
    exact ⟨owner, rfl, h.sign (by rw [hi]; trivial) (show LockPlace.clear.Holds from trivial)
      (Or.inr ⟨rfl, fun hnamed => hnamed.elim nofun nofun⟩)⟩
  | clear =>
    rw [hi] at hs'
    obtain rfl := Option.some.inj hs'
    have howner : owner = some i := (h.owner_iff i).mp (by rw [hi]; trivial)
    refine ⟨none, ?_, h.release hi⟩
    rw [howner]
    exact run_release i

end Exec

/-! ### Runs -/

section Runs
variable {keep : Bool} {locker : Option T} {s : SpinLock T} {acts : List (LockAct T)}

/-- **Each step does what the owner may do.** -/
theorem lockStep_simulates (keep : Bool) (locker : Option T) :
    Simulates (LockInv keep locker) (lockStep keep) lockObs mutexStep := by
  intro s owner act s' h hs'
  cases act with
  | exec i ok => exact lockExec_simulates h hs'
  | lock i =>
    obtain ⟨hi, hs'⟩ := Option.ite_none_right_eq_some.mp hs'
    obtain rfl := Option.some.inj hs'
    exact ⟨owner, rfl, h.pass (by rw [hi]; exact not_false) not_false nofun⟩
  | tryLock i =>
    obtain ⟨hi, hs'⟩ := Option.ite_none_right_eq_some.mp hs'
    obtain rfl := Option.some.inj hs'
    exact ⟨owner, rfl, h.pass (by rw [hi]; exact not_false) not_false nofun⟩
  | unlock i =>
    obtain ⟨hi, hs'⟩ := Option.ite_none_right_eq_some.mp hs'
    obtain rfl := Option.some.inj hs'
    refine ⟨owner, rfl, h.goto (by rw [hi]; exact Iff.rfl) nofun nofun fun hkeep _ => ?_⟩
    exact h.named hkeep i (by rw [hi]; exact Or.inl rfl)

/-- **The lock has one owner at a time**, whatever the order of the instructions: the stores to
it are a sequence in which it is taken and given back in turn, each time by the same thread, and
whoever has the lock is its owner. -/
theorem lock_serial (hs : run (lockStep keep) (lockInit locker) acts = some s) :
    ∃ owner, run mutexStep none (seen lockObs (lockStep keep) (lockInit locker) acts) = some owner ∧
      ∀ i, (s.place i).Holds ↔ owner = some i := by
  obtain ⟨owner, hrun, h⟩ := run_of_simulates (lockStep_simulates keep locker)
    (lockInv_init keep locker) hs
  exact ⟨owner, hrun, h.owner_iff⟩

/-- A thread within `_lock_lock` that does not have the lock. -/
def LockPlace.Asks (p : LockPlace) : Prop :=
  p = .load .lock ∨ p = .load .wait ∨ p = .store .lock ∨ p = .store .wait ∨ p = .poll

/-- A thread that finds the lock free has it after a load and a store. -/
theorem run_load {i : T} {g : Getter} (hi : s.place i = .load g) (hfree : s.lLock = 0) :
    ∃ s', run (lockStep keep) s [.exec i true, .exec i true] = some s' ∧ (s'.place i).Holds := by
  have hload : lockExec keep s i true =
      some ({ s with linked := Function.update s.linked i true }.goto i (.store g)) := by
    unfold lockExec
    rw [hi]
    exact if_neg (not_not.mpr hfree)
  generalize hs₁ : ({ s with linked := Function.update s.linked i true } : SpinLock T).goto i
    (.store g) = s₁ at hload
  have hplace : s₁.place i = .store g := by rw [← hs₁, SpinLock.goto_place_self]
  have hlinked : s₁.linked i = true := by
    rw [← hs₁]
    exact Function.update_self ..
  refine ⟨(s₁.write 1).goto i g.taken, ?_, ?_⟩
  · simp only [run, lockStep, hload, Option.bind_some]
    unfold lockExec
    rw [hplace]
    simp [hlinked]
  · rw [SpinLock.goto_place_self]
    exact g.holds_taken

/-- The same after another instruction, which leaves the lock free. -/
theorem run_exec_load {i : T} {p : LockPlace} {linked : T → Bool}
    (hexec : lockExec keep s i true = some ({ s with linked }.goto i p)) (hfree : s.lLock = 0)
    {l : List (LockAct T)} (h : ∀ s₁ : SpinLock T, s₁.place i = p → s₁.lLock = 0 →
      ∃ s', run (lockStep keep) s₁ l = some s' ∧ (s'.place i).Holds) :
    ∃ s', run (lockStep keep) s (.exec i true :: l) = some s' ∧ (s'.place i).Holds := by
  obtain ⟨s', hrun, hholds⟩ := h ({ s with linked }.goto i p) SpinLock.goto_place_self hfree
  refine ⟨s', ?_, hholds⟩
  simp only [run, lockStep, hexec, Option.bind_some]
  exact hrun

/-- **A free lock is got by whoever asks for it alone**, within four instructions, from whatever
point the other threads have left it at. -/
theorem lock_progress (keep : Bool) (s : SpinLock T) {i : T} (hi : (s.place i).Asks)
    (hfree : s.lLock = 0) :
    ∃ n ≤ 4, ∃ s', run (lockStep keep) s (List.replicate n (.exec i true)) = some s' ∧
      (s'.place i).Holds := by
  have hload : ∀ s₁ : SpinLock T, s₁.place i = .load .wait → s₁.lLock = 0 →
      ∃ s', run (lockStep keep) s₁ (List.replicate 2 (.exec i true)) = some s' ∧
        (s'.place i).Holds := fun s₁ => run_load
  have hpoll : ∀ s₁ : SpinLock T, s₁.place i = .poll → s₁.lLock = 0 →
      ∃ s', run (lockStep keep) s₁ (List.replicate 3 (.exec i true)) = some s' ∧
        (s'.place i).Holds := by
    intro s₁ hp h0
    have hexec : lockExec keep s₁ i true =
        some ({ s₁ with linked := s₁.linked }.goto i (.load .wait)) := by
      unfold lockExec
      rw [hp]
    exact run_exec_load hexec h0 hload
  have hstore : ∀ g, s.place i = .store g → s.linked i = true →
      ∃ s', run (lockStep keep) s (List.replicate 1 (.exec i true)) = some s' ∧
        (s'.place i).Holds := by
    intro g hg hl
    refine ⟨(s.write 1).goto i g.taken, ?_, by rw [SpinLock.goto_place_self]; exact g.holds_taken⟩
    simp only [List.replicate, run, lockStep, lockExec, hg, hl, and_self, if_true, Option.bind_some]
  have hmiss : ∀ g, s.place i = .store g → s.linked i ≠ true → lockExec keep s i true =
      some ({ s with linked := Function.update s.linked i false }.goto i g.failed) := by
    intro g hg hl
    unfold lockExec
    rw [hg]
    exact if_neg fun hok => hl hok.2
  rcases hi with hi | hi | hi | hi | hi
  · exact ⟨2, by omega, run_load hi hfree⟩
  · exact ⟨2, by omega, hload s hi hfree⟩
  · by_cases hl : s.linked i = true
    · exact ⟨1, by omega, hstore _ hi hl⟩
    · exact ⟨3, by omega, run_exec_load (hmiss _ hi hl) hfree hload⟩
  · by_cases hl : s.linked i = true
    · exact ⟨1, by omega, hstore _ hi hl⟩
    · exact ⟨4, by omega, run_exec_load (hmiss _ hi hl) hfree hpoll⟩
  · exact ⟨3, by omega, hpoll s hi hfree⟩

end Runs

/-- Two threads ask for a lock, and the second one reads it while the first one has it. -/
def twoAsk : List (LockAct Bool) :=
  [.lock true, .exec true true, .exec true true, .lock false, .exec false true, .exec true true]

theorem lock_serial_twoAsk : ∃ s owner,
    run (lockStep true) (lockInit none) twoAsk = some s ∧
    run mutexStep none (seen lockObs (lockStep true) (lockInit none) twoAsk) = some owner ∧
      ∀ i, (s.place i).Holds ↔ owner = some i := by
  obtain ⟨s, hs⟩ : ∃ s, run (lockStep true) (lockInit none) twoAsk = some s := ⟨_, rfl⟩
  obtain ⟨owner, h⟩ := lock_serial hs
  exact ⟨s, owner, hs, h⟩

theorem lock_progress_one : ∃ n ≤ 4, ∃ s',
    run (lockStep true) ((lockInit none).goto true (.load .lock) : SpinLock Bool)
      (List.replicate n (.exec true true)) = some s' ∧ (s'.place true).Holds :=
  lock_progress true _ (Or.inl rfl) rfl

end Mungi
