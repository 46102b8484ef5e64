import Mungi.Threads.Homes

/-!
# Replies to PDX calls

A PDX thread has a pointer to the structure of its caller, and when it returns, the reply goes
to the L4 id found there.  This is the caller's, as long as the caller is not deleted during
the call, and its structure is not taken for another thread.

## Main definitions

* `inProgress` — the PDX calls in progress, as the log tells.
* `RepliedRightly` — a reply goes to the caller, which is still in the call.
* `Mem.Orderly` — the condition on calls.

## Main results

* `replies_reach_callers` — **replies reach the callers** in all runs of such calls.
-/

namespace Mungi

open Chain Runs Mem

variable {O : Type} {c : ThreadConf} {k k' k'' : Mem} {fuel a m : ℕ} {l : List Event}

/-! ### Calls in progress -/

/-- The PDX calls in progress: the PDX thread, the caller, and the L4 id of the caller.  A call
ends with the reply, or when one of the two is deleted or its structure is used again, or when
the caller is made to run its handler. -/
def inProgress : List Event → List (ℕ × ℕ × L4Id)
  | [] => []
  | .called m caller l4id :: l => (m, caller, l4id) :: inProgress l
  | .created m _ :: l => (inProgress l).filter fun t => t.1 ≠ m ∧ t.2.1 ≠ m
  | .deleted m :: l => (inProgress l).filter fun t => t.1 ≠ m ∧ t.2.1 ≠ m
  | .interrupted m :: l => (inProgress l).filter fun t => t.2.1 ≠ m
  | .replied m _ :: l => (inProgress l).filter fun t => t.1 ≠ m
  | .released _ :: l | .closed _ _ :: l | .merged _ _ _ _ _ :: l
  | .bound _ _ _ _ _ _ _ _ _ :: l => inProgress l

/-- The threads that were created, and neither deleted nor released since. -/
def running : List Event → List ℕ
  | [] => []
  | .created m _ :: l => m :: running l
  | .deleted m :: l | .released m :: l => (running l).filter fun t => t ≠ m
  | .called _ _ _ :: l | .interrupted _ :: l | .replied _ _ :: l | .closed _ _ :: l
  | .merged _ _ _ _ _ :: l | .bound _ _ _ _ _ _ _ _ _ :: l => running l

/-- The thread is the caller in a call in progress. -/
def IsCaller (l : List Event) (m : ℕ) : Prop := ∃ t ∈ inProgress l, t.2.1 = m

instance (l : List Event) (m : ℕ) : Decidable (IsCaller l m) :=
  inferInstanceAs (Decidable (∃ t ∈ inProgress l, t.2.1 = m))

/-- The structure is that of a thread that runs or is in a call. -/
def Occupied (l : List Event) (m : ℕ) : Prop :=
  m ∈ running l ∨ ∃ t ∈ inProgress l, t.1 = m ∨ t.2.1 = m

instance (l : List Event) (m : ℕ) : Decidable (Occupied l m) :=
  inferInstanceAs (Decidable (m ∈ running l ∨ ∃ t ∈ inProgress l, t.1 = m ∨ t.2.1 = m))

/-- A reply is for a call in progress, and goes to the caller. -/
def RepliedRightly : Event → List Event → Prop
  | .replied m l4id, l => ∃ t ∈ inProgress l, t.1 = m ∧ t.2.2 = l4id
  | _, _ => True

instance (e : Event) (l : List Event) : Decidable (RepliedRightly e l) := by
  cases e <;> unfold RepliedRightly <;> infer_instance

/-- Threads are created in unused structures, a thread that returns is running and not in a
call, and no thread is deleted, or made to run its handler, while it is the caller in a call. -/
def Mem.Orderly (k : Mem) : ThreadOp O → Prop
  | .threadCreate _ apd _ _ _ sup => ∀ m ∈ k.takes apd sup, ¬ Occupied k.log m
  | .threadPdxCreate _ apd _ sup => ∀ m ∈ k.takes apd sup, ¬ Occupied k.log m
  | .sysThreadReturn _ _ _ thread => thread ∈ running k.log ∧ ¬ IsCaller k.log thread
  | .threadDelete fuel _ tid _ caller => ∀ m ∈ k.deleteTarget fuel tid caller, ¬ IsCaller k.log m
  | .threadDie _ _ thread => ¬ IsCaller k.log thread
  | .threadWait _ _ _ _ | .excptReg _ _ | .apdFromTemplate _ _ _ | .apdFindOrCreate _ _ _ _ _
  | .apdPdxMerge _ _ _ _ _ _ | .apdClose _ _ => True

instance (k : Mem) : ∀ op : ThreadOp O, Decidable (k.Orderly op)
  | .threadCreate .. | .threadPdxCreate .. | .sysThreadReturn .. | .threadDelete ..
  | .threadWait .. | .threadDie .. | .excptReg .. | .apdFromTemplate .. | .apdFindOrCreate ..
  | .apdPdxMerge .. | .apdClose .. => by
    unfold Mem.Orderly
    infer_instance

/-- The links of PDX threads lead to their callers. -/
structure Answering (k : Mem) : Prop where
  linked : ∀ m caller l4id, (m, caller, l4id) ∈ inProgress k.log →
    (k.mthread.cell m).PDX = caller ∧ (k.mthread.cell caller).l4id = l4id
  called : ∀ m ∈ running k.log, (k.mthread.cell m).PDX ≠ 0 →
    ∃ caller l4id, (m, caller, l4id) ∈ inProgress k.log
  replied : Each RepliedRightly k.log

theorem Mem.Booted.answering (h : k.Booted) : Answering k := by
  constructor <;> rw [h.log]
  · nofun
  · nofun
  · exact each_nil

/-! ### APDs -/

/-- Nothing happens to threads and calls. -/
structure Mem.Quiet (k k' : Mem) : Prop where
  threadPDX : ∀ q, (k'.mthread.cell q).PDX = (k.mthread.cell q).PDX
  threadL4id : ∀ q, (k'.mthread.cell q).l4id = (k.mthread.cell q).l4id
  inProgress : inProgress k'.log = inProgress k.log
  running : running k'.log = running k.log
  replied : Each RepliedRightly k.log → Each RepliedRightly k'.log

theorem Answering.quiet (h : Answering k) (hq : Quiet k k') : Answering k' where
  linked := fun m caller l4id hm => by
    rw [hq.threadPDX, hq.threadL4id]
    exact h.linked m caller l4id (hq.inProgress ▸ hm)
  called := fun m hm hpdx => by
    rw [hq.threadPDX] at hpdx
    rw [hq.inProgress]
    exact h.called m (hq.running ▸ hm) hpdx
  replied := hq.replied h.replied

theorem Mem.Quiet.trans (h : Quiet k k') (h' : Quiet k' k'') : Quiet k k'' where
  threadPDX := fun q => (h'.threadPDX q).trans (h.threadPDX q)
  threadL4id := fun q => (h'.threadL4id q).trans (h.threadL4id q)
  inProgress := h'.inProgress.trans h.inProgress
  running := h'.running.trans h.running
  replied := fun hr => h'.replied (h.replied hr)

theorem Mem.Quiet.of_eq (hthread : k'.mthread.cell = k.mthread.cell) (hlog : k'.log = k.log) :
    Quiet k k' := by
  constructor <;> intros <;> simp only [hthread, hlog]
  assumption

theorem Mem.Frame.quiet (h : Frame k k') : Quiet k k' where
  threadPDX := h.threadPDX
  threadL4id := h.threadL4id
  inProgress := by rw [h.log]
  running := by rw [h.log]
  replied := by
    rw [h.log]
    exact id

theorem Mem.apdClose_quiet {freed : Bool} (h : k.apdClose c fuel a = some (freed, k')) :
    Quiet k k' := by
  have hspec := apdClose_closed h
  dsimp only at hspec
  generalize hk₀ : (if (k.apd.cell a).closing then k else k.apdPdxCacheRemove a) = k₀ at hspec
  have h₀ : Quiet k k₀ := by
    rw [← hk₀]
    split_ifs
    all_goals exact .of_eq rfl rfl
  rcases hspec with ⟨-, rfl⟩ | ⟨-, pool, tasks, hfreed⟩
  · exact h₀.trans (.of_eq rfl rfl)
  · refine h₀.trans ⟨fun q => by rw [hfreed.threadCell], fun q => by rw [hfreed.threadCell], ?_, ?_,
      fun hr => ?_⟩
    all_goals rw [hfreed.log]
    · rfl
    · rfl
    · exact ⟨trivial, hr⟩

theorem Mem.apdPdxCacheLookup_quiet {now orig : ℕ} {clist : Cap} {r : Option (ℕ × ApdCacheId)}
    (h : k.apdPdxCacheLookup c fuel now orig clist = some (r, k')) : Quiet k k' := by
  unfold apdPdxCacheLookup at h
  split at h
  · obtain ⟨-, rfl⟩ := Prod.mk.inj (Option.some.inj h)
    exact .of_eq rfl rfl
  · dsimp only at h
    split_ifs at h
    · obtain ⟨⟨freed, k₁⟩, hclose, heq⟩ := Option.map_eq_some_iff.mp h
      obtain ⟨-, rfl⟩ := Prod.mk.inj heq
      exact apdClose_quiet hclose
    · obtain ⟨-, rfl⟩ := Prod.mk.inj (Option.some.inj h)
      exact .of_eq rfl rfl

theorem Mem.apdPdxCacheInsert_quiet {now orig new : ℕ} {clist : Cap} {id : ApdCacheId}
    (h : k.apdPdxCacheInsert c fuel now orig clist new = some (id, k')) : Quiet k k' := by
  unfold apdPdxCacheInsert at h
  split at h
  · obtain ⟨-, rfl⟩ := Prod.mk.inj (Option.some.inj h)
    exact .of_eq rfl rfl
  · obtain ⟨⟨freed, k₁⟩, hclose, heq⟩ := Option.map_eq_some_iff.mp h
    obtain ⟨-, rfl⟩ := Prod.mk.inj heq
    exact (apdClose_quiet hclose).trans (.of_eq rfl rfl)

theorem Mem.ApdsKept.quiet (h : ApdsKept k a k') : Quiet k k' :=
  .of_eq (by rw [h.mthread]) h.log

theorem Mem.apdPdxMerge_quiet {now now' orig : ℕ} {clist : Cap} {sup : ApdSupply}
    {r : Option (ℕ × ApdCacheId)}
    (h : k.apdPdxMerge c fuel now now' orig clist sup = some (r, k')) : Quiet k k' := by
  obtain ⟨⟨found, k₁⟩, hlook, h⟩ := Option.bind_eq_some_iff.mp h
  have h₁ := apdPdxCacheLookup_quiet hlook
  cases found with
  | some found =>
    obtain ⟨-, rfl⟩ := Prod.mk.inj (Option.some.inj h)
    exact h₁
  | none =>
    rcases apdPdxBuild_made h with ⟨-, hnot⟩ | ⟨k₂, id, -, hmade, hinsert⟩
    · exact h₁.trans hnot.quiet
    · have hmerged : Quiet k₂ (k₂.emit
          (.merged orig (k₁.apd.cell orig).serial clist sup.apd k₁.apdSerial)) :=
        ⟨fun _ => rfl, fun _ => rfl, rfl, rfl, fun hr => ⟨trivial, hr⟩⟩
      exact h₁.trans (hmade.quiet.trans (hmerged.trans (apdPdxCacheInsert_quiet hinsert)))

/-! ### The end of a thread -/

/-- A thread is released: it does not run any more. -/
theorem Answering.threadRelease (h : Answering k) (hr : k.threadRelease c fuel m = some k') :
    Answering k' ∧ (∀ q, (k'.mthread.cell q).PDX = (k.mthread.cell q).PDX) ∧
      (∀ q, (k'.mthread.cell q).l4id = (k.mthread.cell q).l4id) ∧
      inProgress k'.log = inProgress k.log ∧ m ∉ running k'.log := by
  obtain ⟨k₁, hpushed, hend⟩ := threadRelease_released hr
  have hin : inProgress k₁.log = inProgress k.log := by
    rw [hpushed.log]
    rfl
  have hrun : running k₁.log = (running k.log).filter fun t => t ≠ m := by
    rw [hpushed.log]
    rfl
  have h₁ : Answering k₁ := by
    refine ⟨fun p caller l4id hp => ?_, fun p hp hpdx => ?_, ?_⟩
    · rw [hpushed.threadPDX, hpushed.threadL4id]
      exact h.linked p caller l4id (hin ▸ hp)
    · rw [hrun] at hp
      rw [hpushed.threadPDX] at hpdx
      rw [hin]
      exact h.called p (List.mem_filter.mp hp).1 hpdx
    · rw [hpushed.log]
      exact ⟨trivial, h.replied⟩
  have hnot : m ∉ running k₁.log := by
    rw [hrun]
    intro hm
    simpa using (List.mem_filter.mp hm).2
  have hquiet : Quiet k₁ k' := by
    rcases hend with ⟨-, rfl⟩ | ⟨-, freed, hclose⟩
    · exact .of_eq rfl rfl
    · exact apdClose_quiet hclose
  refine ⟨h₁.quiet hquiet, fun q => ?_, fun q => ?_, hquiet.inProgress.trans hin, ?_⟩
  · rw [hquiet.threadPDX, hpushed.threadPDX]
  · rw [hquiet.threadL4id, hpushed.threadL4id]
  · rw [hquiet.running]
    exact hnot

theorem Answering.ended (events : List Event) (h : Answering { k with log := events ++ k.log })
    (he : Ended c m k events k') : Answering k' := by
  cases he with
  | kept frame => exact h.quiet frame.quiet
  | released frame fuel release => exact ((h.quiet frame.quiet).threadRelease release).1

/-- A thread that is not the caller in a call is deleted, or made to run its handler. -/
theorem Answering.delete (h : Answering k) (hm : ¬ IsCaller k.log m) :
    Answering (k.emit (.deleted m)) ∧ Answering (k.emit (.interrupted m)) := by
  have hcaller : ∀ p caller l4id, (p, caller, l4id) ∈ inProgress k.log → caller ≠ m := by
    rintro p caller l4id hp rfl
    exact hm ⟨_, hp, rfl⟩
  refine ⟨⟨fun p caller l4id hp => ?_, fun p hp hpdx => ?_, trivial, h.replied⟩,
    fun p caller l4id hp => ?_, fun p hp hpdx => ?_, trivial, h.replied⟩
  · exact h.linked p caller l4id (List.mem_filter.mp hp).1
  · obtain ⟨hp, hne⟩ := List.mem_filter.mp hp
    obtain ⟨caller, l4id, hcall⟩ := h.called p hp hpdx
    refine ⟨caller, l4id, List.mem_filter.mpr ⟨hcall, ?_⟩⟩
    exact decide_eq_true ⟨of_decide_eq_true hne, hcaller p caller l4id hcall⟩
  · exact h.linked p caller l4id (List.mem_filter.mp hp).1
  · obtain ⟨caller, l4id, hcall⟩ := h.called p hp hpdx
    exact ⟨caller, l4id, List.mem_filter.mpr ⟨hcall, decide_eq_true (hcaller p caller l4id hcall)⟩⟩

theorem Answering.threadDelete (h : Answering k) {item tid caller : ℕ} {status : ℤ} {goes : Bool}
    (hm : ∀ m ∈ k.deleteTarget fuel tid caller, ¬ IsCaller k.log m)
    (hd : k.threadDelete c fuel item tid status caller = some (goes, k')) : Answering k' := by
  rcases threadDelete_ended hd with rfl | ⟨m, htarget, hend | hend⟩
  · exact h
  · exact Answering.ended [.deleted m] (h.delete (hm m htarget)).1 hend
  · exact Answering.ended [.interrupted m] (h.delete (hm m htarget)).2 hend

/-- **A PDX thread that returns answers its caller.** -/
theorem Answering.sysThreadReturn (h : Answering k) {item : ℕ} {status : ℤ}
    (hm : m ∈ running k.log) (hcaller : ¬ IsCaller k.log m)
    (hr : k.sysThreadReturn c fuel item status m = some k') : Answering k' := by
  by_cases hpdx : (k.mthread.cell m).PDX = 0
  · obtain ⟨goes, hd⟩ := sysThreadReturn_other hpdx hr
    refine h.threadDelete (fun m' hm' => ?_) hd
    rw [deleteTarget_self hm']
    exact hcaller
  · obtain ⟨k₁, hrelease, rfl⟩ := sysThreadReturn_pdx hpdx hr
    have hframe := (Frame.refl k).l4taskThreadRemove m
    obtain ⟨h₁, hPDX, hl4id, hin, hnot⟩ := (h.quiet hframe.quiet).threadRelease hrelease
    -- the release leaves the link to the caller as it was
    obtain ⟨caller, l4id, hcall⟩ := h.called m hm hpdx
    obtain ⟨hlink, hid⟩ := h.linked m caller l4id hcall
    have hlog : inProgress k₁.log = inProgress k.log := by
      rw [hin, hframe.log]
    rw [hPDX, hframe.threadPDX, hlink, hl4id, hframe.threadL4id, hid]
    refine ⟨fun p caller' l4id' hp => ?_, fun p hp hne => ?_, ?_, h₁.replied⟩
    · exact h₁.linked p caller' l4id' (List.mem_filter.mp hp).1
    · obtain ⟨caller', l4id', hcall'⟩ := h₁.called p hp hne
      refine ⟨caller', l4id', List.mem_filter.mpr ⟨hcall', decide_eq_true ?_⟩⟩
      rintro rfl
      exact hnot hp
    · exact ⟨_, hlog ▸ hcall, rfl, rfl⟩

/-! ### Creating -/

/-- **A creation in unused structures** keeps the links; the new thread is no PDX thread, or
there is a call for it. -/
theorem Answering.begun (h : Answering k) {sup : ThreadSupply} {caller : ℕ} {events : List Event}
    (hfree : ∀ m ∈ k.takes a sup, ¬ Occupied k.log m) (hb : Begun k a sup m caller events k')
    (hin : inProgress (events ++ k.log) = inProgress k.log ∨
      inProgress (events ++ k.log)
        = (m, caller, (k'.mthread.cell caller).l4id) :: inProgress k.log ∧ m ≠ 0)
    (hrun : ∀ p ∈ running (events ++ k.log), p ∈ running k.log ∨ p = m ∧ m ≠ 0 ∧
      (caller ≠ 0 → (m, caller, (k'.mthread.cell caller).l4id) ∈ inProgress (events ++ k.log)))
    (hreplied : Each RepliedRightly (events ++ k.log)) : Answering k' := by
  have hlog : k'.log = events ++ k.log := hb.apart.log
  have hold : ∀ q, Occupied k.log q → (k'.mthread.cell q).PDX = (k.mthread.cell q).PDX ∧
      (k'.mthread.cell q).l4id = (k.mthread.cell q).l4id := fun q hq =>
    ⟨hb.apart.threadPDX q fun hm => hfree q hm hq, hb.apart.threadL4id q fun hm => hfree q hm hq⟩
  have hlinked : ∀ p caller' l4id', (p, caller', l4id') ∈ inProgress k.log →
      (k'.mthread.cell p).PDX = caller' ∧ (k'.mthread.cell caller').l4id = l4id' := by
    intro p caller' l4id' hp
    obtain ⟨hpdx, hid⟩ := h.linked p caller' l4id' hp
    exact ⟨(hold p (Or.inr ⟨_, hp, Or.inl rfl⟩)).1.trans hpdx,
      (hold caller' (Or.inr ⟨_, hp, Or.inr rfl⟩)).2.trans hid⟩
  refine ⟨fun p caller' l4id' hp => ?_, fun p hp hpdx => ?_, by rw [hlog]; exact hreplied⟩
  · rw [hlog] at hp
    rcases hin with heq | ⟨heq, hm⟩
    · exact hlinked p caller' l4id' (heq ▸ hp)
    · rw [heq] at hp
      rcases List.mem_cons.mp hp with heq' | hp
      · obtain ⟨hp, heq'⟩ := Prod.mk.inj heq'
        obtain ⟨hcaller, hid⟩ := Prod.mk.inj heq'
        rw [hp, hcaller, hid]
        exact ⟨hb.pdx hm, rfl⟩
      · exact hlinked p caller' l4id' hp
  · rw [hlog] at hp ⊢
    rcases hrun p hp with hp | ⟨rfl, hm, hcall⟩
    · rw [(hold p (Or.inl hp)).1] at hpdx
      obtain ⟨caller', l4id', hcall⟩ := h.called p hp hpdx
      refine ⟨caller', l4id', ?_⟩
      rcases hin with heq | ⟨heq, -⟩
      · exact heq ▸ hcall
      · rw [heq]
        exact List.mem_cons_of_mem _ hcall
    · rw [hb.pdx hm] at hpdx
      exact ⟨caller, _, hcall hpdx⟩

/-- No call ends when an unused structure is taken. -/
theorem inProgress_created (hm : ¬ Occupied l m) (a : ℕ) :
    inProgress (.created m a :: l) = inProgress l := by
  refine List.filter_eq_self.mpr fun t ht => decide_eq_true ⟨?_, ?_⟩
  · rintro rfl
    exact hm (Or.inr ⟨t, ht, Or.inl rfl⟩)
  · rintro rfl
    exact hm (Or.inr ⟨t, ht, Or.inr rfl⟩)

theorem Answering.threadCreate (h : Answering k) {parent supplied size : ℕ} {sup : ThreadSupply}
    {start : Option (L4Id × ℕ)} (hfree : ∀ m ∈ k.takes a sup, ¬ Occupied k.log m)
    (hc : k.threadCreate c fuel a parent supplied size sup = some ((m, start), k')) :
    Answering k' := by
  have hb := threadCreate_begun hc
  by_cases hm : m = 0
  · rw [if_pos hm] at hb
    exact h.begun hfree hb (Or.inl rfl) (fun p hp => Or.inl hp) h.replied
  · rw [if_neg hm] at hb
    refine h.begun hfree hb (Or.inl (inProgress_created (hfree m (hb.taken hm)) a)) (fun p hp => ?_)
      ⟨trivial, h.replied⟩
    rcases List.mem_cons.mp hp with rfl | hp
    · exact Or.inr ⟨rfl, hm, fun h => absurd rfl h⟩
    · exact Or.inl hp

theorem Answering.threadPdxCreate (h : Answering k) {caller : ℕ} {sup : ThreadSupply}
    (hfree : ∀ m ∈ k.takes a sup, ¬ Occupied k.log m)
    (hc : k.threadPdxCreate c fuel a caller sup = some (m, k')) : Answering k' := by
  have hb := threadPdxCreate_begun hc
  by_cases hm : m = 0
  · rw [if_pos hm] at hb
    exact h.begun hfree hb (Or.inl rfl) (fun p hp => Or.inl hp) h.replied
  · rw [if_neg hm] at hb
    have hcreated := inProgress_created (hfree m (hb.taken hm)) a
    have hcalled : inProgress ([.called m caller (k'.mthread.cell caller).l4id, .created m a]
        ++ k.log) = (m, caller, (k'.mthread.cell caller).l4id) :: inProgress k.log := by
      rw [← hcreated]
      rfl
    refine h.begun hfree hb (Or.inr ⟨hcalled, hm⟩) (fun p hp => ?_) ⟨trivial, trivial, h.replied⟩
    rcases List.mem_cons.mp hp with rfl | hp
    · refine Or.inr ⟨rfl, hm, fun _ => ?_⟩
      rw [hcalled]
      exact List.mem_cons_self
    · exact Or.inl hp

/-! ### Runs -/

/-- **One call keeps the links.** -/
theorem Answering.step {op : ThreadOp O} (h : Answering k) (ho : k.Orderly op)
    (hs : threadStep c k op = some k') : Answering k' := by
  cases op with
  | threadCreate fuel apd parent supplied size sup =>
    obtain ⟨⟨⟨m, start⟩, k₁⟩, hc, rfl⟩ := Option.map_eq_some_iff.mp hs
    exact h.threadCreate ho hc
  | threadPdxCreate fuel apd caller sup =>
    obtain ⟨⟨m, k₁⟩, hc, rfl⟩ := Option.map_eq_some_iff.mp hs
    exact h.threadPdxCreate ho hc
  | sysThreadReturn fuel item status thread => exact h.sysThreadReturn ho.1 ho.2 hs
  | threadDelete fuel item tid status caller =>
    obtain ⟨⟨goes, k₁⟩, hd, rfl⟩ := Option.map_eq_some_iff.mp hs
    exact h.threadDelete ho hd
  | threadWait fuel item tid caller =>
    obtain ⟨⟨ret, k₁⟩, hw, rfl⟩ := Option.map_eq_some_iff.mp hs
    rcases threadWait_ended hw with hframe | ⟨m, -, hend⟩
    · exact h.quiet hframe.quiet
    · exact Answering.ended [] h hend
  | threadDie fuel item thread =>
    exact Answering.ended [.deleted thread] (h.delete ho).1 (threadDie_ended hs)
  | excptReg thread handler =>
    obtain rfl := Option.some.inj hs
    have hframe : Frame k (k.excptReg thread handler) :=
      (Frame.refl k).modThread thread fun _ => ⟨rfl, rfl, rfl, rfl⟩
    exact h.quiet hframe.quiet
  | apdFromTemplate os pd sup =>
    obtain ⟨⟨a, k₁⟩, hm, rfl⟩ := Option.map_eq_some_iff.mp hs
    rcases apdFromTemplate_made hm with ⟨-, hnot⟩ | ⟨-, hmade⟩
    · exact h.quiet hnot.quiet
    · exact h.quiet hmade.quiet
  | apdFindOrCreate os fuel addr pd sup =>
    obtain ⟨⟨a, k₁⟩, hm, rfl⟩ := Option.map_eq_some_iff.mp hs
    rcases apdFindOrCreate_made hm with rfl | ⟨-, hnot⟩ | ⟨-, hmade⟩
    · exact h
    · exact h.quiet hnot.quiet
    · exact h.quiet hmade.quiet
  | apdPdxMerge fuel now now' orig clist sup =>
    obtain ⟨⟨r, k₁⟩, hm, rfl⟩ := Option.map_eq_some_iff.mp hs
    exact h.quiet (apdPdxMerge_quiet hm)
  | apdClose fuel apd =>
    obtain ⟨⟨freed, k₁⟩, hc, rfl⟩ := Option.map_eq_some_iff.mp hs
    exact h.quiet (apdClose_quiet hc)

/-- **Replies reach the callers**, in every run of such calls. -/
theorem replies_reach_callers (c : ThreadConf) (k k' : Mem) (ops : List (ThreadOp O))
    (hboot : k.Booted) (hops : Along (threadStep c) Mem.Orderly k ops)
    (hrun : run (threadStep c) k ops = some k') : Each RepliedRightly k'.log :=
  (run_invariant_along (fun _ _ _ h ho hs => h.step ho hs) ops k k' hboot.answering hops
    hrun).replied

/-- A caller is deleted during its PDX call and reaped, and its structure is taken for another
thread, before the PDX thread returns. -/
def callerReused : List (ThreadOp Unit) :=
  [.apdPdxMerge 5 0 0 0 ⟨7, 7⟩ (apdAt 100), .threadCreate 5 100 0 0 0 (threadAt 10 30),
    .threadCreate 5 100 10 0 0 (threadAt 12 31), .threadPdxCreate 5 100 12 (threadAt 14 32),
    .threadDelete 5 40 2 0 10, .threadWait 5 0 0 10, .threadCreate 5 100 10 0 0 (threadAt 16 33),
    .sysThreadReturn 5 0 0 14]

/-- The reply goes to the other thread. -/
theorem reply_not_to_caller :
    ¬ ∀ (c : ThreadConf) (k k' : Mem) (ops : List (ThreadOp Unit)), k.Booted →
      run (threadStep c) k ops = some k' → Each RepliedRightly k'.log := by
  intro h
  have hend : (run (threadStep smallConf) Mem.boot callerReused).map
      (fun k => decide (Each RepliedRightly k.log)) = some false := by
    decide +kernel
  obtain ⟨k', hrun, hk'⟩ := Option.map_eq_some_iff.mp hend
  exact of_decide_eq_false hk' (h smallConf Mem.boot k' callerReused Mem.boot_booted hrun)

/-- Nested PDX calls return, and then the first caller is deleted. -/
def nestedCalls : List (ThreadOp Unit) :=
  [.apdPdxMerge 5 0 0 0 ⟨7, 7⟩ (apdAt 100), .threadCreate 5 100 0 0 0 (threadAt 10 30),
    .threadCreate 5 100 10 0 0 (threadAt 12 31), .threadPdxCreate 5 100 12 (threadAt 14 32),
    .threadPdxCreate 5 100 14 (threadAt 16 33), .sysThreadReturn 5 0 0 16,
    .sysThreadReturn 5 0 0 14, .threadDelete 5 40 2 0 10, .threadWait 5 0 0 10,
    .threadCreate 5 100 10 0 0 (threadAt 18 34)]

theorem replies_reach_callers_nestedCalls : ∃ k',
    run (threadStep smallConf) Mem.boot nestedCalls = some k' ∧ Each RepliedRightly k'.log := by
  have hrun : (run (threadStep smallConf) Mem.boot nestedCalls).isSome = true := by
    decide +kernel
  obtain ⟨k', hk'⟩ := Option.isSome_iff_exists.mp hrun
  exact ⟨k', hk', replies_reach_callers smallConf Mem.boot k' nestedCalls Mem.boot_booted
    (by decide +kernel) hk'⟩

end Mungi
