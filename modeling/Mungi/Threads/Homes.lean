import Mungi.Threads.Owners

/-!
# Threads run in the APDs they were created for

The task of a thread belongs to one APD for good, and the pool of an APD hands out threads with
tasks of that APD, as long as no APD is made as a copy of one with a pool: the copy has the
same pool.

## Main definitions

* `Mem.AtHome` — threads in use and in pools have tasks of the right APDs.
* `Mem.Rightful` — the condition on calls.

## Main results

* `threads_at_home` — **threads run in the APDs they were created for** in all runs of such
  calls.
-/

namespace Mungi

open Chain Runs Mem

variable {O : Type} {c : ThreadConf} {k k' : Mem}

/-- Threads in use have tasks of the APDs they were created for, threads in a pool have tasks
of the pool's APD, and no thread is in two pools. -/
structure Mem.AtHome (k : Mem) : Prop where
  busy : ∀ m a, (m, a) ∈ handedOut k.log → k.apdOf m = a
  pool : ∀ a e, k.apd.live a = true → Reaches k.poolNext (k.apd.cell a).threads e →
    k.apdOf (k.apdThread.cell e).mthread = a
  apart : ∀ a b e e', k.apd.live a = true → k.apd.live b = true → a ≠ b →
    Reaches k.poolNext (k.apd.cell a).threads e → Reaches k.poolNext (k.apd.cell b).threads e' →
    (k.apdThread.cell e).mthread ≠ (k.apdThread.cell e').mthread

/-- The call is about APDs in memory and threads in use, and when it makes a copy of an APD,
the pool of that APD is empty. -/
def Mem.Rightful (c : ThreadConf) (k : Mem) : ThreadOp O → Prop
  | .threadCreate _ apd _ _ _ _ => k.apd.live apd = true
  | .threadPdxCreate _ apd _ _ => k.apd.live apd = true
  | .sysThreadReturn _ _ _ thread => InUse k.log thread
  | .threadDelete fuel _ tid _ caller => ∀ m ∈ k.deleteTarget fuel tid caller, InUse k.log m
  | .threadWait fuel _ tid caller => ∀ m ∈ k.waitTarget fuel tid caller, InUse k.log m
  | .threadDie _ _ thread => InUse k.log thread
  | .apdPdxMerge fuel now now' orig clist sup =>
    ∀ looked ∈ k.apdPdxCacheLookup c fuel now orig clist, looked.1.isNone →
      ∀ merged ∈ k.apdPdxMerge c fuel now now' orig clist sup, merged.1.isSome →
        orig = 0 ∨ looked.2.apd.live orig = true ∧ (looked.2.apd.cell orig).threads = 0
  | .apdClose _ apd => k.apd.live apd = true
  | .excptReg _ _ | .apdFromTemplate _ _ _ | .apdFindOrCreate _ _ _ _ _ => True

instance (c : ThreadConf) (k : Mem) : ∀ op : ThreadOp O, Decidable (k.Rightful c op)
  | .threadCreate .. | .threadPdxCreate .. | .sysThreadReturn .. | .threadDelete ..
  | .threadWait .. | .threadDie .. | .excptReg .. | .apdFromTemplate .. | .apdFindOrCreate ..
  | .apdPdxMerge .. | .apdClose .. => by
    unfold Mem.Rightful
    infer_instance

/-- An APD has at least as many users as threads, and a marked one has some. -/
def EnoughUsers (n : ℕ) (users : ℤ) (closing : Bool) : Prop :=
  (n : ℤ) ≤ users ∧ (closing = true → users ≠ 0)

theorem enoughUsers_tally : Tally EnoughUsers where
  le := fun h => h.1
  closing := fun {n users} h => by
    have := h.1
    have := h.2 rfl
    omega
  fresh := ⟨le_refl _, nofun⟩
  create := fun {n users closing} h => by
    have := h.1
    exact ⟨by push_cast; omega, fun _ => by omega⟩
  release := fun {n users closing} h hne => by
    have := h.1
    exact ⟨by push_cast at this; omega, hne⟩
  close := fun h hne => ⟨h.1, fun _ => hne⟩

/-- A user that is no thread does no harm. -/
theorem EnoughUsers.leak {n : ℕ} {users : ℤ} {closing : Bool} (h : EnoughUsers n users closing) :
    EnoughUsers n (users + 1) closing := by
  have := h.1
  exact ⟨by omega, fun _ => by omega⟩

/-- The invariant gives the threads their homes. -/
theorem Owned.atHome {T : ℕ → ℤ → Bool → Prop} (h : Owned T k) : k.AtHome := by
  have hpool : ∀ a e, k.apd.live a = true → Reaches k.poolNext (k.apd.cell a).threads e →
      k.Linked (k.apdThread.cell e).mthread e a := by
    intro a e ha he
    obtain ⟨l, hl, hlinked⟩ := h.placed.pool a ha
    exact (hlinked e (hl.mem_of_reaches he)).1
  refine ⟨fun m a hm => ?_, fun a e ha he => (hpool a e ha he).apd, ?_⟩
  · obtain ⟨-, e, he⟩ := h.placed.home m a hm
    exact he.apd
  · intro a b e e' ha hb hab he he' heq
    have h₁ := hpool a e ha he
    have h₂ := hpool b e' hb he'
    rw [← heq] at h₂
    exact hab (h₁.unique h₂).2

/-- In a rightful merge the copy has as many users as it should have. -/
theorem Owned.copied {fuel now now' orig : ℕ} {clist : Cap} {sup : ApdSupply}
    {r : Option (ℕ × ApdCacheId)} {k₁ : Mem} (h : Owned EnoughUsers k₁)
    (hr : k.Rightful c (.apdPdxMerge fuel now now' orig clist sup : ThreadOp O))
    (hlook : k.apdPdxCacheLookup c fuel now orig clist = some (none, k₁))
    (hm : k.apdPdxMerge c fuel now now' orig clist sup = some (r, k')) (hne : r ≠ none) :
    orig = 0 ∨ k₁.apd.live orig = true ∧ (k₁.apd.cell orig).threads = 0 ∧
      EnoughUsers 0 (k₁.apd.cell orig).users (k₁.apd.cell orig).closing := by
  rcases hr _ hlook rfl _ hm (Option.isSome_iff_ne_none.mpr hne) with h0 | ⟨hlive, hthreads⟩
  · exact Or.inl h0
  · obtain ⟨hle, hcl⟩ := h.tally orig hlive
    exact Or.inr ⟨hlive, hthreads, by push_cast; omega, hcl⟩

/-- **One call keeps the invariant.** -/
theorem Owned.step_rightful {op : ThreadOp O} (h : Owned EnoughUsers k) (hr : k.Rightful c op)
    (hs : threadStep c k op = some k') : Owned EnoughUsers k' := by
  have ht := enoughUsers_tally
  cases op with
  | threadCreate fuel apd parent supplied size sup =>
    obtain ⟨⟨⟨m, start⟩, k₁⟩, hc, rfl⟩ := Option.map_eq_some_iff.mp hs
    exact h.threadCreate ht hr (fun _ => EnoughUsers.leak) hc
  | threadPdxCreate fuel apd caller sup =>
    obtain ⟨⟨m, k₁⟩, hc, rfl⟩ := Option.map_eq_some_iff.mp hs
    exact h.threadPdxCreate ht hr (fun _ => EnoughUsers.leak) hc
  | sysThreadReturn fuel item status thread => exact h.sysThreadReturn ht hr hs
  | threadDelete fuel item tid status caller =>
    obtain ⟨⟨goes, k₁⟩, hd, rfl⟩ := Option.map_eq_some_iff.mp hs
    exact h.threadDelete ht hr hd
  | threadWait fuel item tid caller =>
    obtain ⟨⟨ret, k₁⟩, hw, rfl⟩ := Option.map_eq_some_iff.mp hs
    exact h.threadWait ht hr hw
  | threadDie fuel item thread => exact h.threadDie ht hr hs
  | excptReg thread handler =>
    obtain rfl := Option.some.inj hs
    exact h.excptReg handler
  | apdFromTemplate os pd sup =>
    obtain ⟨⟨a, k₁⟩, hm, rfl⟩ := Option.map_eq_some_iff.mp hs
    exact h.apdFromTemplate ht hm
  | apdFindOrCreate os fuel addr pd sup =>
    obtain ⟨⟨a, k₁⟩, hm, rfl⟩ := Option.map_eq_some_iff.mp hs
    exact h.apdFindOrCreate ht hm
  | apdPdxMerge fuel now now' orig clist sup =>
    obtain ⟨⟨r, k₁⟩, hm, rfl⟩ := Option.map_eq_some_iff.mp hs
    exact h.apdPdxMerge ht (fun k₂ hlook hne h₂ => h₂.copied hr hlook hm hne) hm
  | apdClose fuel apd =>
    obtain ⟨⟨freed, k₁⟩, hc, rfl⟩ := Option.map_eq_some_iff.mp hs
    exact h.apdClose ht hr hc

/-- **Threads run in the APDs they were created for**, in every run of such calls. -/
theorem threads_at_home (c : ThreadConf) (k k' : Mem) (ops : List (ThreadOp O)) (hboot : k.Booted)
    (hops : Along (threadStep c) (Mem.Rightful c) k ops)
    (hrun : run (threadStep c) k ops = some k') : k'.AtHome :=
  (run_invariant_along (fun _ _ _ h hr hs => h.step_rightful hr hs) ops k k' hboot.owned hops
    hrun).atHome

/-! ### Runs -/

/-- A machine. -/
def smallConf : ThreadConf := ⟨8, 100, 12, 0, 4⟩

/-- A system Clist. -/
def someSys : SysCap := ⟨⟨1, 0⟩, by decide⟩

/-- The answers for a new APD. -/
def apdAt (apd : ℕ) : ApdSupply := ⟨apd, 1, some someSys⟩

/-- The answers for a new thread. -/
def threadAt (mthread apdThread : ℕ) : ThreadSupply :=
  ⟨mthread, 20, 21, apdThread, 4096, 8192, some ⟨1, 0, 0⟩, false⟩

/-- A PDX thread returns, the APD is copied, and a PDX thread is created in the copy. -/
def poolCopied : List (ThreadOp Unit) :=
  [.apdPdxMerge 5 0 0 0 ⟨7, 7⟩ (apdAt 100), .threadCreate 5 100 0 0 0 (threadAt 10 30),
    .threadPdxCreate 5 100 10 (threadAt 12 31), .sysThreadReturn 5 0 0 12,
    .apdPdxMerge 5 0 0 100 ⟨8, 8⟩ (apdAt 101), .threadPdxCreate 5 101 10 (threadAt 13 32)]

/-- The thread of the copy runs in the APD that was copied. -/
theorem threads_not_at_home :
    ¬ ∀ (c : ThreadConf) (k k' : Mem) (ops : List (ThreadOp Unit)), k.Booted →
      run (threadStep c) k ops = some k' → k'.AtHome := by
  intro h
  have hend : (run (threadStep smallConf) Mem.boot poolCopied).map
      (fun k => (handedOut k.log, k.apdOf 12)) = some ([(12, 101), (10, 100)], 100) := by
    decide +kernel
  obtain ⟨k', hrun, hk'⟩ := Option.map_eq_some_iff.mp hend
  obtain ⟨hout, hof⟩ := Prod.mk.inj hk'
  have hhome := (h smallConf Mem.boot k' poolCopied Mem.boot_booted hrun).busy 12 101
    (by rw [hout]; exact List.mem_cons_self)
  rw [hof] at hhome
  revert hhome
  decide

/-- The APD is copied while the PDX thread runs. -/
def poolNotCopied : List (ThreadOp Unit) :=
  [.apdPdxMerge 5 0 0 0 ⟨7, 7⟩ (apdAt 100), .threadCreate 5 100 0 0 0 (threadAt 10 30),
    .threadPdxCreate 5 100 10 (threadAt 12 31), .apdPdxMerge 5 0 0 100 ⟨8, 8⟩ (apdAt 101),
    .sysThreadReturn 5 0 0 12, .threadPdxCreate 5 100 10 (threadAt 13 32)]

theorem threads_at_home_poolNotCopied : ∃ k',
    run (threadStep smallConf) Mem.boot poolNotCopied = some k' ∧ k'.AtHome := by
  have hrun : (run (threadStep smallConf) Mem.boot poolNotCopied).isSome = true := by
    decide +kernel
  obtain ⟨k', hk'⟩ := Option.isSome_iff_exists.mp hrun
  exact ⟨k', hk', threads_at_home smallConf Mem.boot k' poolNotCopied Mem.boot_booted
    (by decide +kernel) hk'⟩

end Mungi
