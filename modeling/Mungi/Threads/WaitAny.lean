import Mungi.Threads.Waiting

/-!
# Waiting for any child

A thread that waits for `THREAD_ANY` is to get the id and the status of a child that has exited, or
to wait for the first one that does.  The kernel returns the id that it was called with, which is
`THREAD_NULL` too, and asks for the list of children, which nobody writes, so that no thread waits.

## Main definitions

* `Mem.Exited`, `Mem.Alive` — the children of a thread.
* `Mem.AnySound` — the call does what it is for.
* `Mem.AnyFits` — the states in which it does.

## Main results

* `waitAny_iff` — **when waiting for any child works.**
-/

namespace Mungi

open Chain Runs Mem

variable {O : Type} {c : ThreadConf} {k k' : Mem} {fuel item m caller : ℕ}

/-! ### What the call is for -/

/-- A child of the thread that has exited and was not reaped. -/
def Mem.Exited (k : Mem) (caller m : ℕ) : Prop :=
  InUse k.log m ∧ k.parentOf m = caller ∧ (k.mthread.cell m).state = .zombie

/-- A child of the thread that has not exited. -/
def Mem.Alive (k : Mem) (caller m : ℕ) : Prop :=
  InUse k.log m ∧ k.parentOf m = caller ∧ (k.mthread.cell m).state ≠ .zombie ∧
    (k.mthread.cell m).state ≠ .dead

/-- The thread waits, and whichever child exits, the loop of `notify_waiters` wakes it, with the id
and the status of that child. -/
def Mem.AwaitsChildren (k : Mem) (caller : ℕ) : Prop :=
  (k.mthread.cell caller).state = .waiting ∧ ∀ m, k.Alive caller m →
    ∃ n r, wakeWaiters m n k = some r ∧ (r.2.mthread.cell caller).state = .ok

/-- **Waiting for any child.**  If one has exited, the call returns the id and the status of such a
child, and reaps that child only.  If all are alive, the thread waits for the first one that exits.
If there is none, the call returns `THREAD_NULL`. -/
def Mem.AnySound (c : ThreadConf) (k : Mem) (fuel item caller : ℕ) : Prop :=
  ∃ ret k', k.threadWait c fuel item 0 caller = some (ret, k') ∧
    ((∃ m, k.Exited caller m) → ∃ m, k.Exited caller m ∧
      ret = ⟨false, some (k.mthread.cell m).lasterror, some (k.mthread.cell m).tid⟩ ∧
        handedOut k'.log = (handedOut k.log).eraseP fun t => t.1 = m) ∧
    ((∀ m, ¬ k.Exited caller m) → (∃ m, k.Alive caller m) →
      ret.wait = true ∧ k'.AwaitsChildren caller) ∧
    ((∀ m, ¬ k.Exited caller m ∧ ¬ k.Alive caller m) → ret = ⟨false, none, some 0⟩)

/-- The first thread in the list of zombies. -/
def Mem.firstZombie (k : Mem) (caller : ℕ) : ℕ := (waitqRemove k.waitq (.zombies caller)).1

/-- The thread has neither children nor zombies, or the first of its zombies is a child with the id
`THREAD_ANY`, whose release comes to an end. -/
def Mem.AnyFits (c : ThreadConf) (k : Mem) (fuel caller : ℕ) : Prop :=
  (k.firstZombie caller = 0 ∧ ∀ m, ¬ k.Exited caller m ∧ ¬ k.Alive caller m) ∨
    (k.firstZombie caller ≠ 0 ∧ k.Exited caller (k.firstZombie caller) ∧
      (k.mthread.cell (k.firstZombie caller)).tid = 0 ∧
        (Mem.threadRelease c { k with waitq := (waitqRemove k.waitq (.zombies caller)).2 } fuel
          (k.firstZombie caller)).isSome)

/-! ### What it does -/

/-- What `thread_wait` does for `THREAD_ANY` when there is no list of children. -/
theorem threadWait_any (hchildren : (k.mthread.cell caller).children = 0) :
    k.threadWait c fuel item 0 caller =
      if k.firstZombie caller = 0 then
        some (⟨false, none, some 0⟩, { k with waitq := (waitqRemove k.waitq (.zombies caller)).2 })
      else
        (Mem.threadRelease c { k with waitq := (waitqRemove k.waitq (.zombies caller)).2 } fuel
          (k.firstZombie caller)).map fun k' =>
            (⟨false, some (k.mthread.cell (k.firstZombie caller)).lasterror, some 0⟩, k') := by
  unfold Mem.threadWait Mem.firstZombie
  dsimp only
  rw [if_pos rfl, if_neg (not_not.mpr hchildren), ite_not]

/-- A release reaps the thread and no other one. -/
theorem handedOut_threadRelease (h : k.threadRelease c fuel m = some k') :
    handedOut k'.log = (handedOut k.log).eraseP fun t => t.1 = m := by
  have hpushed : handedOut (k.pushed m).log = (handedOut k.log).eraseP fun t => t.1 = m := by
    rw [(k.pushed_pushed m).log]
    rfl
  rw [threadRelease_eq] at h
  split_ifs at h
  · obtain ⟨⟨freed, k₁⟩, hclose, rfl⟩ := Option.map_eq_some_iff.mp h
    rw [(apdClose_aside hclose).handedOut, hpushed]
  · rw [← Option.some.inj h, hpushed]

theorem map_eraseP (l : List (ℕ × ℕ)) (m : ℕ) :
    (l.eraseP fun t => t.1 = m).map Prod.fst = (l.map Prod.fst).erase m := by
  rw [List.erase_eq_eraseP', List.eraseP_map]
  rfl

/-- Who is taken from a list can be told from what is left. -/
theorem eq_of_eraseP_eq {l : List (ℕ × ℕ)} {m m' : ℕ} (hm : m ∈ l.map Prod.fst)
    (h : (l.eraseP fun t => t.1 = m) = l.eraseP fun t => t.1 = m') : m = m' := by
  by_contra hne
  have hcount := congrArg (List.count m) (congrArg (List.map Prod.fst) h)
  rw [map_eraseP, map_eraseP, List.count_erase_self, List.count_erase_of_ne hne] at hcount
  have hpos := List.count_pos_iff.mpr hm
  omega

/-- **When the call does what it is for.** -/
theorem anySound_iff (hchildren : (k.mthread.cell caller).children = 0) :
    k.AnySound c fuel item caller ↔ k.AnyFits c fuel caller := by
  unfold Mem.AnySound Mem.AnyFits
  rw [threadWait_any hchildren]
  by_cases hnone : k.firstZombie caller = 0
  · rw [if_pos hnone]
    constructor
    · rintro ⟨ret, k', heq, hexited, halive, -⟩
      obtain ⟨rfl, rfl⟩ := Prod.mk.inj (Option.some.inj heq)
      have hno : ∀ m, ¬ k.Exited caller m := by
        intro m hm
        obtain ⟨m', -, hret, -⟩ := hexited ⟨m, hm⟩
        cases hret
      refine Or.inl ⟨hnone, fun m => ⟨hno m, fun hm => ?_⟩⟩
      exact Bool.false_ne_true (halive hno ⟨m, hm⟩).1
    · rintro (⟨-, hno⟩ | ⟨hne, -⟩)
      · exact ⟨_, _, rfl, fun ⟨m, hm⟩ => absurd hm (hno m).1,
          fun _ ⟨m, hm⟩ => absurd hm (hno m).2, fun _ => rfl⟩
      · exact absurd hnone hne
  · rw [if_neg hnone]
    constructor
    · rintro ⟨ret, k', heq, hexited, halive, hchildless⟩
      obtain ⟨k₁, hrelease, heq⟩ := Option.map_eq_some_iff.mp heq
      obtain ⟨rfl, rfl⟩ := Prod.mk.inj heq
      by_cases hex : ∃ m, k.Exited caller m
      · obtain ⟨m, hm, hret, hout⟩ := hexited hex
        rw [handedOut_threadRelease hrelease] at hout
        obtain rfl := eq_of_eraseP_eq hm.1 hout.symm
        simp only [WaitReturn.mk.injEq, Option.some.injEq] at hret
        exact Or.inr ⟨hnone, hm, hret.2.2.symm, Option.isSome_iff_exists.mpr ⟨_, hrelease⟩⟩
      · rw [not_exists] at hex
        by_cases hal : ∃ m, k.Alive caller m
        · exact absurd (halive hex hal).1 Bool.false_ne_true
        · cases hchildless fun m => ⟨hex m, fun hm => hal ⟨m, hm⟩⟩
    · rintro (⟨hzero, -⟩ | ⟨-, hm, htid, hrelease⟩)
      · exact absurd hzero hnone
      · obtain ⟨k₁, hrelease⟩ := Option.isSome_iff_exists.mp hrelease
        have hout := handedOut_threadRelease hrelease
        rw [hrelease]
        exact ⟨_, _, rfl, fun _ => ⟨_, hm, by rw [htid], hout⟩,
          fun hno => absurd hm (hno _), fun hno => absurd hm (hno _).1⟩

/-! ### Runs -/

/-- No thread in use has a list of children. -/
def Lined.Childless (s : Lined) : Prop := s.mem.Childless

theorem Lined.childless_start (h : k.Booted) : (Lined.start k).Childless := h.atRest.children

theorem Lined.Childless.step {s s' : Lined} (h : s.Childless) {op : LineOp O}
    (hstep : lineStep c s op = some s') : s'.Childless :=
  Mem.Childless.step h hstep

/-- **When waiting for any child works**, in any state that a run from the start of the kernel
reaches: when the thread has neither children nor zombies. -/
theorem waitAny_iff (c : ThreadConf) (k : Mem) (ops : List (LineOp O)) (s : Lined)
    (fuel item caller : ℕ) (hboot : k.Booted) (hrun : run (lineStep c) (.start k) ops = some s)
    (hcaller : InUse s.mem.log caller) :
    s.mem.AnySound c fuel item caller ↔ s.mem.AnyFits c fuel caller := by
  have hchildless : Lined.Childless s :=
    run_invariant (Lined.childless_start hboot) (fun _ _ _ h hs => h.step hs) hrun
  exact anySound_iff (hchildless caller hcaller)

/-- The thread with the id 1 creates the one with the id 2. -/
def oneChild : List (LineOp Unit) :=
  [.thread (.apdPdxMerge 5 0 0 0 ⟨7, 7⟩ (apdAt 100)),
    .thread (.threadCreate 5 100 0 0 0 (threadAt 10 30)),
    .thread (.threadCreate 5 100 10 0 0 (threadAt 12 31))]

/-- The second thread has nobody to wait for. -/
theorem waitAny_iff_oneChild : ∃ s, run (lineStep smallConf) (.start Mem.boot) oneChild = some s ∧
    s.mem.AnySound smallConf 5 51 12 := by
  have hend : (run (lineStep smallConf) (.start Mem.boot) oneChild).map (fun s =>
      (handedOut s.mem.log, s.mem.firstZombie 12, s.mem.parentOf 10, s.mem.parentOf 12))
        = some ([(12, 100), (10, 100)], 0, 0, 10) := by
    decide +kernel
  obtain ⟨s, hrun, hs⟩ := Option.map_eq_some_iff.mp hend
  simp only [Prod.mk.injEq] at hs
  obtain ⟨hout, hzombie, hten, htwelve⟩ := hs
  have hcaller : InUse s.mem.log 12 := by
    unfold InUse
    rw [hout]
    decide
  have hno : ∀ m, InUse s.mem.log m → s.mem.parentOf m ≠ 12 := by
    intro m hm
    unfold InUse at hm
    rw [hout] at hm
    rcases List.mem_cons.mp hm with rfl | hm
    · rw [htwelve]
      decide
    · obtain rfl := List.mem_singleton.mp hm
      rw [hten]
      decide
  refine ⟨s, hrun, (waitAny_iff smallConf Mem.boot oneChild s 5 51 12 Mem.boot_booted hrun
    hcaller).mpr (Or.inl ⟨hzombie, fun m => ⟨fun hm => ?_, fun hm => ?_⟩⟩)⟩
  · exact hno m hm.1 hm.2.1
  · exact hno m hm.1 hm.2.1

/-- The child exits, and the first thread is told the id 0. -/
theorem waitAny_wrong_id :
    ¬ ∀ (c : ThreadConf) (k : Mem) (ops : List (LineOp Unit)) (s : Lined) (caller : ℕ), k.Booted →
      run (lineStep c) (.start k) ops = some s → InUse s.mem.log caller →
        ∃ fuel, ∀ item, s.mem.AnySound c fuel item caller := by
  intro h
  have hend : (run (lineStep smallConf) (.start Mem.boot)
      (oneChild ++ [.thread (.threadDelete 5 50 2 0 10)])).map (fun s =>
        (handedOut s.mem.log, [s.mem.firstZombie 10, (s.mem.mthread.cell 10).children,
          s.mem.parentOf 10, s.mem.parentOf 12, (s.mem.mthread.cell 12).tid],
          decide ((s.mem.mthread.cell 12).state = .zombie)))
            = some ([(12, 100), (10, 100)], [12, 0, 0, 10, 2], true) := by
    decide +kernel
  obtain ⟨s, hrun, hs⟩ := Option.map_eq_some_iff.mp hend
  simp only [Prod.mk.injEq, decide_eq_true_eq, List.cons.injEq, and_true] at hs
  obtain ⟨hout, ⟨hzombie, hchildren, hten, htwelve, htid⟩, hstate⟩ := hs
  have hin : ∀ m, InUse s.mem.log m ↔ m = 12 ∨ m = 10 := by
    intro m
    unfold InUse
    rw [hout]
    simp
  obtain ⟨fuel, hsound⟩ := h smallConf Mem.boot _ s 10 Mem.boot_booted hrun
    ((hin 10).mpr (Or.inr rfl))
  obtain ⟨ret, k', heq, hexited, -, -⟩ := hsound 0
  obtain ⟨m, hm, hret, -⟩ := hexited ⟨12, (hin 12).mpr (Or.inl rfl), htwelve, hstate⟩
  rw [threadWait_any hchildren, hzombie, if_neg (by decide)] at heq
  obtain ⟨k₁, -, heq⟩ := Option.map_eq_some_iff.mp heq
  obtain ⟨rfl, -⟩ := Prod.mk.inj heq
  simp only [WaitReturn.mk.injEq, Option.some.injEq] at hret
  rcases (hin m).mp hm.1 with rfl | rfl
  · rw [htid] at hret
    cases hret.2.2
  · have hparent := hm.2.1
    rw [hten] at hparent
    cases hparent

end Mungi
