import Mungi.Threads.Steps

/-!
# Making APDs

An APD is made from a PD, or as a copy of another APD with a capability list added.  The making
may fail at several points, and then the structure is given back.

## Main definitions

* `Apd.use` — what an APD owns, and who uses it.
* `Mem.ApdsKept`, `Mem.NotMade`, `Mem.Made` — what a making does, and what it leaves alone.

## Main results

* `Mem.apdFromTemplate_made`, `Mem.apdFindOrCreate_made`, `Mem.apdPdxBuild_made` — **what the
  three makings do.**
-/

namespace Mungi

open Chain SearchLoop

variable {O : Type} {c : ThreadConf}

/-- Who uses an APD, whether it is closing, and what it owns. -/
def Apd.use (a : Apd) : ℤ × Bool × ℕ × ℕ := (a.users, a.closing, a.threads, a.tasks)

theorem Apd.use_eq {a b : Apd} (h : a.use = b.use) : a.users = b.users ∧
    a.closing = b.closing ∧ a.threads = b.threads ∧ a.tasks = b.tasks := by
  obtain ⟨h₁, h⟩ := Prod.mk.inj h
  obtain ⟨h₂, h⟩ := Prod.mk.inj h
  exact ⟨h₁, h₂, Prod.mk.inj h⟩

namespace Mem

variable {k k' k'' : Mem} {fuel now orig addr a : ℕ} {clist : Cap} {sup : ApdSupply}
  {os : Kernel O} {pd : ApdDesc} {x : Apd}

/-- All APDs stay as they are, but for one at `a`, which is not in memory then, and so does all
else; 0 is no address. -/
structure ApdsKept (k : Mem) (a : ℕ) (k' : Mem) : Prop where
  apd : ∀ b, b ≠ a ∨ k.apd.live b = true ∨ a = 0 → k'.apd.live b = k.apd.live b ∧
    (k'.apd.cell b).use = (k.apd.cell b).use ∧ (k'.apd.cell b).serial = (k.apd.cell b).serial
  task : k'.task = k.task
  mthread : k'.mthread = k.mthread
  apdThread : k'.apdThread = k.apdThread
  apdPdxCache : k'.apdPdxCache = k.apdPdxCache
  pdxCache : k'.pdxCache = k.pdxCache
  log : k'.log = k.log

/-- No APD is made at `a`; a serial number may be gone. -/
structure NotMade (k : Mem) (a : ℕ) (k' : Mem) : Prop extends ApdsKept k a k' where
  live : k'.apd.live = k.apd.live
  apdSerial : k'.apdSerial = k.apdSerial ∨ k'.apdSerial = (k.apdSerial + 1) % 2 ^ 64

/-- An APD is made at `a`, which owns what `x` owns. -/
structure Made (k : Mem) (a : ℕ) (x : Apd) (k' : Mem) : Prop extends ApdsKept k a k' where
  ne : a ≠ 0
  free : k.apd.live a = false
  live : ∀ b, k'.apd.live b = if b = a then true else k.apd.live b
  use : (k'.apd.cell a).use = x.use
  serial : (k'.apd.cell a).serial = k.apdSerial
  apdSerial : k'.apdSerial = (k.apdSerial + 1) % 2 ^ 64

theorem NotMade.refl (k : Mem) (a : ℕ) : NotMade k a k :=
  ⟨⟨fun _ _ => ⟨rfl, rfl, rfl⟩, rfl, rfl, rfl, rfl, rfl, rfl⟩, rfl, Or.inl rfl⟩

/-! ### Filling -/

/-- A serial number is drawn for the APD at `a`, of which other data may change too. -/
def Filled (k : Mem) (a : ℕ) (k' : Mem) : Prop :=
  ∃ x : Apd, k' = { k with
      apd := { k.apd with cell := Function.update k.apd.cell a x }
      apdSerial := (k.apdSerial + 1) % 2 ^ 64 } ∧
    x.use = (k.apd.cell a).use ∧ x.serial = k.apdSerial

theorem Filled.modApd (h : Filled k a k') {f : Apd → Apd}
    (hf : ∀ x, (f x).use = x.use ∧ (f x).serial = x.serial) : Filled k a (k'.modApd a f) := by
  obtain ⟨x, rfl, huse, hserial⟩ := h
  refine ⟨f x, ?_, (hf x).1.trans huse, (hf x).2.trans hserial⟩
  dsimp only [Mem.modApd, Heap.modify]
  rw [Function.update_self, Function.update_idem]

theorem apdFill_filled (k : Mem) (a : ℕ) (sup : ApdSupply) : Filled k a (k.apdFill a sup).2 := by
  have hserial : Filled k a { k.modApd a fun x => { x with serial := k.apdSerial } with
      apdSerial := (k.apdSerial + 1) % 2 ^ 64 } := ⟨_, rfl, rfl, rfl⟩
  have hvcache := hserial.modApd (f := fun x => { x with vcache := sup.vcache }) fun _ => ⟨rfl, rfl⟩
  unfold Mem.apdFill
  dsimp only
  split_ifs
  · exact hvcache
  · cases Mungi.apdFill sup.sys _ with
    | none => exact hvcache
    | some data => exact hvcache.modApd fun _ => ⟨rfl, rfl⟩
  · cases Mungi.apdFill sup.sys _ with
    | none => exact hserial
    | some data => exact hserial.modApd fun _ => ⟨rfl, rfl⟩

theorem apdFill_l4Tasks (k : Mem) (a : ℕ) (sup : ApdSupply) :
    (k.apdFill a sup).2.l4Tasks = k.l4Tasks := by
  obtain ⟨x, hx, -⟩ := apdFill_filled k a sup
  rw [hx]

/-! ### The three makings -/

/-- The block that is handed out was not in use. -/
theorem alloc_ne {apd : Heap Apd} (ha : a ≠ 0) (halloc : k.apd.alloc a x = some apd) {b : ℕ}
    (hb : b ≠ a ∨ k.apd.live b = true ∨ a = 0) : b ≠ a ∧ apd.live b = k.apd.live b ∧
      apd.cell b = k.apd.cell b := by
  have hne : b ≠ a := by
    rcases hb with hne | hlive | h0
    · exact hne
    · exact (Heap.alloc_live halloc hlive).1
    · exact absurd h0 ha
  exact ⟨hne, (Heap.live_alloc halloc b).trans (if_neg hne), Heap.cell_alloc_of_ne halloc hne⟩

/-- An APD that is made at `a` and given back. -/
theorem Filled.notMade {apd : Heap Apd} (ha : a ≠ 0) (halloc : k.apd.alloc a x = some apd)
    (h : Filled { k with apd } a k') : NotMade k a { k' with apd := k'.apd.free a } := by
  obtain ⟨y, rfl, -, -⟩ := h
  refine ⟨⟨fun b hb => ?_, rfl, rfl, rfl, rfl, rfl, rfl⟩, ?_, Or.inr rfl⟩
  · obtain ⟨hne, hlive, hcell⟩ := alloc_ne ha halloc hb
    refine ⟨(Heap.live_free_of_ne hne).trans hlive, ?_⟩
    dsimp only [Heap.cell_free]
    rw [Function.update_of_ne hne, hcell]
    exact ⟨rfl, rfl⟩
  · funext b
    rw [Heap.live_free]
    dsimp only
    rw [Heap.live_alloc halloc]
    split_ifs with hb
    · rw [hb, (Heap.alloc_eq_some.mp halloc).1]
    · rfl

theorem Filled.made {apd : Heap Apd} (ha : a ≠ 0) (halloc : k.apd.alloc a x = some apd)
    (h : Filled { k with apd } a k') : Made k a x k' := by
  obtain ⟨y, rfl, huse, hserial⟩ := h
  have hlive := Heap.live_alloc halloc
  have hfree := (Heap.alloc_eq_some.mp halloc).1
  refine ⟨⟨fun b hb => ?_, rfl, rfl, rfl, rfl, rfl, rfl⟩, ha, hfree, hlive, ?_, ?_, rfl⟩
  · obtain ⟨hne, hlive, hcell⟩ := alloc_ne ha halloc hb
    dsimp only
    rw [Function.update_of_ne hne, hcell]
    exact ⟨hlive, rfl, rfl⟩
  · dsimp only at huse ⊢
    rw [Function.update_self, huse, Heap.cell_alloc_self halloc]
  · dsimp only
    rw [Function.update_self, hserial]

/-- An APD that is given back at once. -/
theorem notMade_alloc {apd : Heap Apd} (ha : a ≠ 0) (halloc : k.apd.alloc a x = some apd) :
    NotMade k a { k with apd := apd.free a } := by
  refine ⟨⟨fun b hb => ?_, rfl, rfl, rfl, rfl, rfl, rfl⟩, ?_, Or.inl rfl⟩
  · obtain ⟨hne, hlive, hcell⟩ := alloc_ne ha halloc hb
    refine ⟨(Heap.live_free_of_ne hne).trans hlive, ?_⟩
    dsimp only [Heap.cell_free]
    rw [hcell]
    exact ⟨rfl, rfl⟩
  · funext b
    dsimp only
    rw [Heap.live_free, Heap.live_alloc halloc]
    split_ifs with hb
    · rw [hb, (Heap.alloc_eq_some.mp halloc).1]
    · rfl

/-- **What `apd_from_template` does.** -/
theorem apdFromTemplate_made (h : k.apdFromTemplate os pd sup = some (a, k')) :
    a = 0 ∧ NotMade k sup.apd k' ∨ a = sup.apd ∧ Made k a { Apd.zero with data := pd } k' := by
  unfold apdFromTemplate at h
  by_cases hsup : sup.apd = 0
  · rw [if_pos hsup] at h
    obtain ⟨rfl, rfl⟩ := Prod.mk.inj (Option.some.inj h)
    exact Or.inl ⟨rfl, .refl k sup.apd⟩
  · rw [if_neg hsup] at h
    obtain ⟨apd, halloc, h⟩ := Option.bind_eq_some_iff.mp h
    have hfilled := apdFill_filled { k with apd } sup.apd sup
    have hout : ∀ k₁ : Mem, NotMade k sup.apd { k₁ with apd := k₁.apd.free sup.apd } →
        some (0, { k₁ with apd := k₁.apd.free sup.apd }) = some (a, k') →
          a = 0 ∧ NotMade k sup.apd k' := by
      intro k₁ h₁ heq
      obtain ⟨rfl, rfl⟩ := Prod.mk.inj (Option.some.inj heq)
      exact ⟨rfl, h₁⟩
    have hearly := hout { k with apd } (notMade_alloc hsup halloc)
    dsimp only at h
    by_cases hn : pd.nApd > apdMaxEntry
    · rw [if_pos hn] at h
      exact Or.inl (hearly h)
    · rw [if_neg hn] at h
      split at h
      · exact Or.inl (hearly h)
      · split at h
        · next hfill =>
          rw [hfill] at hfilled
          exact Or.inl (hout _ (hfilled.notMade hsup halloc) h)
        · next hfill =>
          rw [hfill] at hfilled
          obtain ⟨rfl, rfl⟩ := Prod.mk.inj (Option.some.inj h)
          exact Or.inr ⟨rfl, hfilled.made hsup halloc⟩

/-- The memories differ in other data of APDs at most. -/
structure SameUse (k k' : Mem) : Prop where
  live : k'.apd.live = k.apd.live
  cell : ∀ b, (k'.apd.cell b).use = (k.apd.cell b).use ∧
    (k'.apd.cell b).serial = (k.apd.cell b).serial
  task : k'.task = k.task
  mthread : k'.mthread = k.mthread
  apdThread : k'.apdThread = k.apdThread
  apdPdxCache : k'.apdPdxCache = k.apdPdxCache
  pdxCache : k'.pdxCache = k.pdxCache
  log : k'.log = k.log
  apdSerial : k'.apdSerial = k.apdSerial

theorem SameUse.refl (k : Mem) : SameUse k k :=
  ⟨rfl, fun _ => ⟨rfl, rfl⟩, rfl, rfl, rfl, rfl, rfl, rfl, rfl⟩

theorem SameUse.modApd (h : SameUse k k') (p : ℕ) {f : Apd → Apd}
    (hf : ∀ x, (f x).use = x.use ∧ (f x).serial = x.serial) : SameUse k (k'.modApd p f) where
  live := h.live
  cell := fun b =>
    ⟨(Heap.modify_field (fun x => (hf x).1) b).trans (h.cell b).1,
      (Heap.modify_field (fun x => (hf x).2) b).trans (h.cell b).2⟩
  task := h.task
  mthread := h.mthread
  apdThread := h.apdThread
  apdPdxCache := h.apdPdxCache
  pdxCache := h.pdxCache
  log := h.log
  apdSerial := h.apdSerial

theorem SameUse.table (h : SameUse k k') (apdTable : ℕ → ℕ) : SameUse k { k' with apdTable } :=
  ⟨h.live, h.cell, h.task, h.mthread, h.apdThread, h.apdPdxCache, h.pdxCache, h.log, h.apdSerial⟩

theorem Made.sameUse (h : Made k a x k') (hs : SameUse k' k'') : Made k a x k'' where
  apd := fun b hb => by
    obtain ⟨h₁, h₂, h₃⟩ := h.apd b hb
    exact ⟨by rw [hs.live, h₁], (hs.cell b).1.trans h₂, (hs.cell b).2.trans h₃⟩
  task := hs.task.trans h.task
  mthread := hs.mthread.trans h.mthread
  apdThread := hs.apdThread.trans h.apdThread
  apdPdxCache := hs.apdPdxCache.trans h.apdPdxCache
  pdxCache := hs.pdxCache.trans h.pdxCache
  log := hs.log.trans h.log
  ne := h.ne
  free := h.free
  live := fun b => by rw [hs.live, h.live]
  use := (hs.cell a).1.trans h.use
  serial := (hs.cell a).2.trans h.serial
  apdSerial := hs.apdSerial.trans h.apdSerial

/-- **What `apd_find_or_create` does.** -/
theorem apdFindOrCreate_made (h : k.apdFindOrCreate c os fuel addr pd sup = some (a, k')) :
    k' = k ∨ a = 0 ∧ NotMade k sup.apd k' ∨ a = sup.apd ∧ Made k a { Apd.zero with data := pd } k' := by
  obtain ⟨found, -, h⟩ := Option.bind_eq_some_iff.mp h
  by_cases hfound : found ≠ 0
  · rw [if_pos hfound] at h
    exact Or.inl (Prod.mk.inj (Option.some.inj h)).2.symm
  · rw [if_neg hfound] at h
    obtain ⟨⟨a', k₁⟩, hmade, h⟩ := Option.map_eq_some_iff.mp h
    refine Or.inr ?_
    dsimp only at h
    by_cases ha : a' = 0
    · rw [if_pos ha] at h
      obtain ⟨rfl, rfl⟩ := Prod.mk.inj h
      rcases apdFromTemplate_made hmade with hnot | ⟨-, hmade⟩
      · exact Or.inl hnot
      · exact absurd ha hmade.ne
    · rw [if_neg ha] at h
      obtain ⟨rfl, hk'⟩ := Prod.mk.inj h
      rcases apdFromTemplate_made hmade with ⟨rfl, -⟩ | ⟨hsup, hmade⟩
      · exact absurd rfl ha
      · refine Or.inr ⟨hsup, ?_⟩
        have hsame := (SameUse.refl k₁).modApd a' (f := fun x =>
          { x with pd := addr, next := k₁.apdTable (pdHash c addr) }) fun _ => ⟨rfl, rfl⟩
        rw [← hk']
        refine hmade.sameUse (SameUse.modApd (SameUse.table ?_ _) a' fun _ => ⟨rfl, rfl⟩)
        split_ifs
        · exact hsame
        · exact hsame.modApd _ fun _ => ⟨rfl, rfl⟩

/-! ### The table of tasks -/

/-- Making an APD from a PD leaves the table of tasks alone. -/
theorem apdFromTemplate_l4Tasks (h : k.apdFromTemplate os pd sup = some (a, k')) :
    k'.l4Tasks = k.l4Tasks := by
  unfold apdFromTemplate at h
  by_cases hsup : sup.apd = 0
  · rw [if_pos hsup] at h
    rw [← (Prod.mk.inj (Option.some.inj h)).2]
  · rw [if_neg hsup] at h
    obtain ⟨apd, -, h⟩ := Option.bind_eq_some_iff.mp h
    have hout : ∀ k₁ : Mem, k₁.l4Tasks = k.l4Tasks →
        some (0, { k₁ with apd := k₁.apd.free sup.apd }) = some (a, k') →
          k'.l4Tasks = k.l4Tasks := by
      intro k₁ h₁ heq
      rw [← (Prod.mk.inj (Option.some.inj heq)).2]
      exact h₁
    have hfill := apdFill_l4Tasks { k with apd } sup.apd sup
    dsimp only at h
    split_ifs at h
    · exact hout { k with apd } rfl h
    · split at h
      · exact hout { k with apd } rfl h
      · split at h
        · next heq =>
          rw [heq] at hfill
          exact hout _ hfill h
        · next heq =>
          rw [heq] at hfill
          rw [← (Prod.mk.inj (Option.some.inj h)).2]
          exact hfill

theorem apdFindOrCreate_l4Tasks (h : k.apdFindOrCreate c os fuel addr pd sup = some (a, k')) :
    k'.l4Tasks = k.l4Tasks := by
  obtain ⟨found, -, h⟩ := Option.bind_eq_some_iff.mp h
  split_ifs at h
  · rw [← (Prod.mk.inj (Option.some.inj h)).2]
  · obtain ⟨⟨a', k₁⟩, hmade, h⟩ := Option.map_eq_some_iff.mp h
    have htable := apdFromTemplate_l4Tasks hmade
    dsimp only at h
    split_ifs at h
    · rw [← (Prod.mk.inj h).2]
      exact htable
    all_goals
      rw [← (Prod.mk.inj h).2]
      exact htable

/-! ### Copies -/

/-- What a copy of the APD `orig` owns: the tasks are its own. -/
def cloned (k : Mem) (orig new : ℕ) : Apd :=
  if orig = 0 ∨ orig = new then Apd.zero else { k.apd.cell orig with tasks := 0 }

/-- What `apd_pdx_merge` does when the cache has missed, and that the tasks stay in their table
until the new APD goes to the cache. -/
theorem apdPdxBuild_tabled {r : Option (ℕ × ApdCacheId)}
    (h : k.apdPdxBuild c fuel now orig clist sup = some (r, k')) :
    r = none ∧ NotMade k sup.apd k' ∧ k'.l4Tasks = k.l4Tasks ∨ ∃ k₁ id, r = some (sup.apd, id) ∧
      Made k sup.apd (k.cloned orig sup.apd) k₁ ∧ k₁.l4Tasks = k.l4Tasks ∧
      (k₁.emit (.merged orig (k.apd.cell orig).serial clist sup.apd k.apdSerial)).apdPdxCacheInsert
        c fuel now orig clist sup.apd = some (id, k') := by
  unfold apdPdxBuild at h
  by_cases hsup : sup.apd = 0
  · rw [if_pos hsup] at h
    obtain ⟨rfl, rfl⟩ := Prod.mk.inj (Option.some.inj h)
    exact Or.inl ⟨rfl, .refl k sup.apd, rfl⟩
  · rw [if_neg hsup] at h
    obtain ⟨apd, halloc, h⟩ := Option.bind_eq_some_iff.mp h
    dsimp only at h
    -- the copy is as good as a block with the copy in it
    have hclone : ∃ apd', k.apd.alloc sup.apd (k.cloned orig sup.apd) = some apd' ∧
        (if orig = 0 then ({ k with apd } : Mem) else ({ k with apd } : Mem).apdClone sup.apd orig)
          = { k with apd := apd' } := by
      obtain ⟨hfree, rfl⟩ := Heap.alloc_eq_some.mp halloc
      refine ⟨_, Heap.alloc_eq_some.mpr ⟨hfree, rfl⟩, ?_⟩
      unfold cloned
      by_cases horig : orig = 0
      · rw [if_pos horig, if_pos (Or.inl horig)]
      · rw [if_neg horig]
        unfold apdClone
        dsimp only [modApd, Heap.modify]
        rw [Function.update_idem]
        by_cases hself : orig = sup.apd
        · rw [if_pos (Or.inr hself), hself, Function.update_self]
          rfl
        · rw [if_neg (not_or.mpr ⟨horig, hself⟩), Function.update_of_ne hself]
    obtain ⟨apd', halloc', heq⟩ := hclone
    rw [heq] at h
    have hfilled := apdFill_filled { k with apd := apd' } sup.apd sup
    have htable : (({ k with apd := apd' } : Mem).apdFill sup.apd sup).2.l4Tasks = k.l4Tasks :=
      apdFill_l4Tasks { k with apd := apd' } sup.apd sup
    split at h
    · next k₁ hfill =>
      rw [hfill] at hfilled htable
      obtain ⟨rfl, rfl⟩ := Prod.mk.inj (Option.some.inj h)
      exact Or.inl ⟨rfl, hfilled.notMade hsup halloc', htable⟩
    · next k₁ hfill =>
      rw [hfill] at hfilled htable
      split at h
      · obtain ⟨rfl, rfl⟩ := Prod.mk.inj (Option.some.inj h)
        exact Or.inl ⟨rfl, hfilled.notMade hsup halloc', htable⟩
      · cases h
      · next i _ =>
        obtain ⟨data, -, h⟩ := Option.bind_eq_some_iff.mp h
        obtain ⟨⟨id, k₂⟩, hinsert, h⟩ := Option.map_eq_some_iff.mp h
        obtain ⟨rfl, rfl⟩ := Prod.mk.inj h
        have hmade := (hfilled.modApd (f := fun x =>
          { x with data := { data with nApd := data.nApd + 1 } }) fun _ => ⟨rfl, rfl⟩).made
            hsup halloc'
        refine Or.inr ⟨_, id, rfl, hmade, htable, ?_⟩
        rw [hmade.serial] at hinsert
        exact hinsert

/-- **What `apd_pdx_merge` does when the cache has missed**: the new APD goes to the cache. -/
theorem apdPdxBuild_made {r : Option (ℕ × ApdCacheId)}
    (h : k.apdPdxBuild c fuel now orig clist sup = some (r, k')) :
    r = none ∧ NotMade k sup.apd k' ∨ ∃ k₁ id, r = some (sup.apd, id) ∧
      Made k sup.apd (k.cloned orig sup.apd) k₁ ∧
      (k₁.emit (.merged orig (k.apd.cell orig).serial clist sup.apd k.apdSerial)).apdPdxCacheInsert
        c fuel now orig clist sup.apd = some (id, k') := by
  rcases apdPdxBuild_tabled h with ⟨hr, hnot, -⟩ | ⟨k₁, id, hr, hmade, -, hinsert⟩
  · exact Or.inl ⟨hr, hnot⟩
  · exact Or.inr ⟨k₁, id, hr, hmade, hinsert⟩

end Mem

end Mungi
