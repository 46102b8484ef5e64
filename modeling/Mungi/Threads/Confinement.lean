import Mungi.Threads.Bindings

/-!
# Fully locked APDs

A thread whose APD has all slots locked can neither insert nor delete, but its PDX calls go
through in more ways than one: what the caches have for them is taken without a look at the
locks, and so is an APD that is not made from that of the caller.

## Main definitions

* `Mem.MergeGranted`, `Mem.PdxThreadGranted` — an APD is made, and a thread is created.
* `Mem.GetsApd` — a PDX call gets an APD.
* `Mem.Confined` — a call is refused, and so are insertions and deletions.
* `SlotCall`, `slotCallStep` — the system with the calls that change slots.

## Main results

* `apdPdxMerge_isSome_iff`, `threadPdxCreate_ne_iff`, `sysPdxCall_iff` — **when a PDX call goes
  through.**
* `locked_confined_iff` — **when a thread with a locked APD is confined.**
* `locked_not_confined` — an APD is locked, and a PDX call goes through.
-/

namespace Mungi

open Chain Runs SearchLoop Mem

variable {O : Type} {c : ThreadConf} {k k' : Mem} {fuel a m now : ℕ}

/-! ### Making the APD -/

/-- `apd_fill` succeeds if there is a validation cache and a system Clist. -/
theorem Mem.apdFill_cases {sup : ApdSupply} {failed : Bool} (h : k.apdFill a sup = (failed, k')) :
    (failed = true ∧ ((k.apd.cell a).vcache = 0 ∧ sup.vcache = 0 ∨
        Mungi.apdFill sup.sys (k.apd.cell a).data = none)) ∨
      failed = false ∧ ((k.apd.cell a).vcache ≠ 0 ∨ sup.vcache ≠ 0) ∧
        Mungi.apdFill sup.sys (k.apd.cell a).data = some (k'.apd.cell a).data := by
  unfold Mem.apdFill at h
  extract_lets marked k₁ k₂ at h
  have h₁ : k₁.apd.cell a = { k.apd.cell a with serial := k.apdSerial } := by
    change (k.apd.modify a fun x => { x with serial := k.apdSerial }).cell a = _
    rw [Heap.cell_modify_self]
  have h₂ : (k₂.apd.cell a).data = (k.apd.cell a).data ∧
      ((k₂.apd.cell a).vcache = 0 ↔ (k.apd.cell a).vcache = 0 ∧ sup.vcache = 0) := by
    change ((ite _ _ _ : Mem).apd.cell a).data = _ ∧ (((ite _ _ _ : Mem).apd.cell a).vcache = 0 ↔ _)
    rw [h₁]
    split_ifs with hv
    · dsimp only
      rw [Heap.cell_modify_self, h₁]
      exact ⟨rfl, fun hsup => ⟨hv, hsup⟩, And.right⟩
    · rw [h₁]
      exact ⟨rfl, fun h => absurd h hv, fun h => absurd h.1 hv⟩
  rw [h₂.1] at h
  by_cases hv : (k₂.apd.cell a).vcache = 0
  · rw [if_pos hv] at h
    exact Or.inl ⟨(Prod.mk.inj h).1.symm, Or.inl (h₂.2.mp hv)⟩
  · rw [if_neg hv] at h
    split at h
    · next hnone => exact Or.inl ⟨(Prod.mk.inj h).1.symm, Or.inr hnone⟩
    · next data hsome =>
      obtain ⟨rfl, rfl⟩ := Prod.mk.inj h
      refine Or.inr ⟨rfl, not_and_or.mp (mt h₂.2.mpr hv), ?_⟩
      dsimp only
      rw [Heap.cell_modify_self, hsome]

/-- `apd_pdx_merge` gets what it needs for a new APD: a block, a validation cache if it does not
share one, a system Clist, and a slot for the Clist. -/
def Mem.MergeGranted (k : Mem) (orig : ℕ) (clist : Cap) (sup : ApdSupply) : Prop :=
  sup.apd ≠ 0 ∧ ((k.cloned orig sup.apd).vcache ≠ 0 ∨ sup.vcache ≠ 0) ∧
    (apdMergeSlots (some (k.cloned orig sup.apd).data) sup.sys clist).join.isSome

instance (orig : ℕ) (clist : Cap) (sup : ApdSupply) : Decidable (k.MergeGranted orig clist sup) :=
  inferInstanceAs (Decidable (_ ∧ _))

/-- The copy as the code makes it. -/
theorem Mem.apdClone_cell {apd : Heap Apd} {orig new : ℕ} {x : Apd}
    (halloc : k.apd.alloc new Apd.zero = some apd)
    (hx : (if orig = 0 then ({ k with apd } : Mem)
      else ({ k with apd } : Mem).apdClone new orig).apd.cell new = x) : x = k.cloned orig new := by
  obtain ⟨-, rfl⟩ := Heap.alloc_eq_some.mp halloc
  rw [← hx]
  unfold cloned
  by_cases horig : orig = 0
  · rw [if_pos horig, if_pos (Or.inl horig)]
    exact Function.update_self ..
  · rw [if_neg horig]
    unfold apdClone
    dsimp only
    rw [Heap.cell_modify_self]
    by_cases hself : orig = new
    · rw [if_pos (Or.inr hself), hself, Function.update_self]
      rfl
    · rw [if_neg (not_or.mpr ⟨horig, hself⟩), Function.update_of_ne hself]

/-- **When the cache has missed, `apd_pdx_merge` makes an APD** if it gets what it needs. -/
theorem Mem.apdPdxBuild_isSome_iff {orig : ℕ} {clist : Cap} {sup : ApdSupply}
    {r : Option (ℕ × ApdCacheId)} (h : k.apdPdxBuild c fuel now orig clist sup = some (r, k')) :
    r.isSome ↔ k.MergeGranted orig clist sup := by
  unfold apdPdxBuild at h
  by_cases hsup : sup.apd = 0
  · rw [if_pos hsup] at h
    obtain ⟨rfl, -⟩ := Prod.mk.inj (Option.some.inj h)
    exact iff_of_false nofun fun hg => hg.1 hsup
  · rw [if_neg hsup] at h
    obtain ⟨apd, halloc, h⟩ := Option.bind_eq_some_iff.mp h
    dsimp only at h
    generalize hk₁ : (if orig = 0 then ({ k with apd } : Mem)
      else ({ k with apd } : Mem).apdClone sup.apd orig) = k₁ at h
    have hcell : k₁.apd.cell sup.apd = k.cloned orig sup.apd :=
      apdClone_cell halloc (by rw [hk₁])
    generalize hfill : k₁.apdFill sup.apd sup = filled at h
    obtain ⟨failed, k₂⟩ := filled
    have hcases := apdFill_cases hfill
    rw [hcell] at hcases
    rcases hcases with ⟨rfl, hno⟩ | ⟨rfl, hvcache, hdata⟩
    · obtain ⟨rfl, -⟩ := Prod.mk.inj (Option.some.inj h)
      refine iff_of_false nofun fun ⟨_, hv, hnew⟩ => ?_
      rcases hno with hno | hno
      · exact hv.elim (fun h => h hno.1) fun h => h hno.2
      · unfold apdMergeSlots at hnew
        rw [Option.getD_some, hno] at hnew
        cases hnew
    · dsimp only at h
      split at h
      · next hfree =>
        obtain ⟨rfl, -⟩ := Prod.mk.inj (Option.some.inj h)
        refine iff_of_false nofun fun ⟨_, _, hnew⟩ => ?_
        simp only [apdMergeSlots, Option.getD_some, hdata, hfree, Option.join_some,
          Option.isSome_none, Bool.false_eq_true] at hnew
      · cases h
      · next i hfree =>
        obtain ⟨data, hset, h⟩ := Option.bind_eq_some_iff.mp h
        obtain ⟨⟨id, k₃⟩, -, h⟩ := Option.map_eq_some_iff.mp h
        obtain ⟨rfl, -⟩ := Prod.mk.inj h
        refine iff_of_true rfl ⟨hsup, hvcache, ?_⟩
        simp only [apdMergeSlots, Option.getD_some, hdata, hfree, hset, Option.map_some,
          Option.join_some, Option.isSome_some]

/-- The cache of APDs has an entry for the pair. -/
def Mem.Cached (c : ThreadConf) (k : Mem) (fuel now orig : ℕ) (clist : Cap) : Prop :=
  ∃ looked ∈ k.apdPdxCacheLookup c fuel now orig clist, looked.1.isSome

instance (orig : ℕ) (clist : Cap) : Decidable (k.Cached c fuel now orig clist) := by
  unfold Mem.Cached
  infer_instance

theorem Mem.apdClose_data {freed : Bool} (h : k.apdClose c fuel a = some (freed, k')) (b : ℕ) :
    (k'.apd.cell b).data = (k.apd.cell b).data ∧
      (k'.apd.cell b).vcache = (k.apd.cell b).vcache := by
  have hclosed := apdClose_closed h
  dsimp only at hclosed
  generalize hk₀ : (if (k.apd.cell a).closing then k else k.apdPdxCacheRemove a) = k₀ at hclosed
  have hapd : k₀.apd = k.apd := by
    rw [← hk₀]
    split_ifs <;> rfl
  rw [← hapd]
  rcases hclosed with ⟨-, rfl⟩ | ⟨-, pool, tasks, hfreed⟩
  · dsimp only
    refine ⟨Heap.modify_field (g := Apd.data) ?_ b, Heap.modify_field (g := Apd.vcache) ?_ b⟩
    · exact fun _ => rfl
    · exact fun _ => rfl
  · rw [hfreed.apdCell]
    exact ⟨rfl, rfl⟩

/-- A look at the cache leaves slots alone. -/
theorem Mem.apdPdxCacheLookup_data {orig : ℕ} {clist : Cap} {r : Option (ℕ × ApdCacheId)}
    (h : k.apdPdxCacheLookup c fuel now orig clist = some (r, k')) (b : ℕ) :
    (k'.apd.cell b).data = (k.apd.cell b).data ∧
      (k'.apd.cell b).vcache = (k.apd.cell b).vcache := by
  unfold apdPdxCacheLookup at h
  split at h
  · obtain ⟨-, rfl⟩ := Prod.mk.inj (Option.some.inj h)
    exact ⟨rfl, rfl⟩
  · dsimp only at h
    split_ifs at h
    · obtain ⟨⟨freed, k₁⟩, hclose, heq⟩ := Option.map_eq_some_iff.mp h
      obtain ⟨-, rfl⟩ := Prod.mk.inj heq
      exact apdClose_data hclose b
    · obtain ⟨-, rfl⟩ := Prod.mk.inj (Option.some.inj h)
      exact ⟨rfl, rfl⟩

/-- **When `apd_pdx_merge` returns an APD.** -/
theorem Mem.apdPdxMerge_isSome_iff {now' orig : ℕ} {clist : Cap} {sup : ApdSupply}
    {r : Option (ℕ × ApdCacheId)}
    (h : k.apdPdxMerge c fuel now now' orig clist sup = some (r, k')) :
    r.isSome ↔ k.Cached c fuel now orig clist ∨ k.MergeGranted orig clist sup := by
  obtain ⟨⟨found, k₁⟩, hlook, h⟩ := Option.bind_eq_some_iff.mp h
  cases found with
  | some found =>
    obtain ⟨rfl, -⟩ := Prod.mk.inj (Option.some.inj h)
    exact iff_of_true rfl (Or.inl ⟨_, hlook, rfl⟩)
  | none =>
    have hmiss : ¬k.Cached c fuel now orig clist := by
      rintro ⟨looked, hlooked, hsome⟩
      rw [Option.mem_def, hlook] at hlooked
      obtain rfl := Option.some.inj hlooked
      cases hsome
    have hcell : (k₁.cloned orig sup.apd).data = (k.cloned orig sup.apd).data ∧
        (k₁.cloned orig sup.apd).vcache = (k.cloned orig sup.apd).vcache := by
      obtain ⟨hdata, hvcache⟩ := apdPdxCacheLookup_data hlook orig
      unfold cloned
      split_ifs
      · exact ⟨rfl, rfl⟩
      · exact ⟨hdata, hvcache⟩
    rw [apdPdxBuild_isSome_iff h, or_iff_right hmiss]
    unfold MergeGranted
    rw [hcell.1, hcell.2]

/-! ### Creating the thread -/

/-- `task_new` gets what it asks for, and there is an L4 task left. -/
def Mem.TaskGranted (c : ThreadConf) (k : Mem) (sup : ThreadSupply) : Prop :=
  sup.task ≠ 0 ∧ sup.upcall ≠ 0 ∧ ∃ i < c.taskCount, k.l4Tasks i = 0

/-- The task of the APD that has room for a thread, `some 0` if there is none. -/
def Mem.roomyTask (k : Mem) (fuel apd : ℕ) : Option ℕ :=
  seek k.taskNext (fun t => (k.task.cell t).threadFree ≠ 0) fuel (k.apd.cell apd).tasks

/-- `thread_pdx_create` gets what it asks for: nothing if the pool has a thread. -/
def Mem.PdxThreadGranted (c : ThreadConf) (k : Mem) (fuel apd : ℕ) (sup : ThreadSupply) : Prop :=
  if (k.apd.cell apd).threads ≠ 0 then
    (k.apdThread.cell (k.apd.cell apd).threads).mthread ≠ 0
  else
    sup.mthread ≠ 0 ∧ sup.apdThread ≠ 0 ∧
      if k.roomyTask fuel apd = some 0 then k.TaskGranted c sup ∧ sup.started.isSome
      else sup.upcallCreate = false

instance (fuel apd : ℕ) (sup : ThreadSupply) : Decidable (k.PdxThreadGranted c fuel apd sup) := by
  unfold Mem.PdxThreadGranted Mem.TaskGranted
  infer_instance

section Creation
variable {sup : ThreadSupply}

theorem Mem.taskNew_ne_iff {t : ℕ} (h : k.taskNew c sup = some (t, k')) :
    t ≠ 0 ↔ k.TaskGranted c sup := by
  unfold taskNew at h
  by_cases htask : sup.task = 0
  · rw [if_pos htask] at h
    obtain ⟨rfl, -⟩ := Prod.mk.inj (Option.some.inj h)
    exact iff_of_false (fun h => h rfl) fun hg => hg.1 htask
  · rw [if_neg htask] at h
    obtain ⟨task, -, h⟩ := Option.bind_eq_some_iff.mp h
    dsimp only at h
    by_cases hupcall : sup.upcall = 0
    · rw [if_pos hupcall] at h
      obtain ⟨rfl, -⟩ := Prod.mk.inj (Option.some.inj h)
      exact iff_of_false (fun h => h rfl) fun hg => hg.2.1 hupcall
    · rw [if_neg hupcall] at h
      obtain ⟨mthread, -, h⟩ := Option.map_eq_some_iff.mp h
      split at h
      · next hnone =>
        obtain ⟨rfl, -⟩ := Prod.mk.inj h
        refine iff_of_false (fun h => h rfl) fun ⟨_, _, i, hi, hfree⟩ => ?_
        exact List.find?_eq_none.mp hnone i (List.mem_range.mpr hi) (decide_eq_true hfree)
      · next i hfind =>
        obtain ⟨rfl, -⟩ := Prod.mk.inj h
        have hfree := List.find?_some hfind
        exact iff_of_true htask ⟨htask, hupcall, i,
          List.mem_range.mp (List.mem_of_find?_eq_some hfind), of_decide_eq_true hfree⟩

theorem Mem.findTask_cases {t : ℕ} {isNew : Bool}
    (h : k.findTask c fuel a sup = some ((t, isNew), k')) :
    if k.roomyTask fuel a = some 0 then (t ≠ 0 ↔ k.TaskGranted c sup) ∧ (t ≠ 0 → isNew = true)
    else t ≠ 0 ∧ isNew = false := by
  obtain ⟨t₀, hseek, h⟩ := Option.bind_eq_some_iff.mp h
  rw [show k.roomyTask fuel a = some t₀ from hseek]
  by_cases ht : t₀ = 0
  · rw [if_neg (not_not.mpr ht)] at h
    rw [if_pos (congrArg some ht)]
    obtain ⟨⟨r, k₁⟩, hnew, h⟩ := Option.map_eq_some_iff.mp h
    rw [← taskNew_ne_iff hnew]
    dsimp only at h
    split_ifs at h with hr
    · obtain ⟨heq, -⟩ := Prod.mk.inj h
      obtain ⟨rfl, rfl⟩ := Prod.mk.inj heq
      exact ⟨iff_of_false (fun h => h rfl) (not_not.mpr hr), fun h => absurd rfl h⟩
    · obtain ⟨heq, -⟩ := Prod.mk.inj h
      obtain ⟨rfl, rfl⟩ := Prod.mk.inj heq
      exact ⟨Iff.rfl, fun _ => rfl⟩
  · rw [if_pos ht] at h
    rw [if_neg fun heq => ht (Option.some.inj heq)]
    obtain ⟨heq, -⟩ := Prod.mk.inj (Option.some.inj h)
    obtain ⟨rfl, rfl⟩ := Prod.mk.inj heq
    exact ⟨ht, rfl⟩

theorem Mem.makeMthread_cases {parent : ℕ} {isNew : Bool}
    (h : k.makeMthread c fuel a parent sup = some ((m, isNew), k')) :
    (m ≠ 0 ↔ sup.mthread ≠ 0 ∧ sup.apdThread ≠ 0 ∧
      (k.roomyTask fuel a = some 0 → k.TaskGranted c sup)) ∧
      (m ≠ 0 → (isNew = true ↔ k.roomyTask fuel a = some 0)) := by
  unfold makeMthread at h
  by_cases hm : sup.mthread = 0
  · rw [if_pos hm] at h
    obtain ⟨heq, -⟩ := Prod.mk.inj (Option.some.inj h)
    obtain ⟨rfl, -⟩ := Prod.mk.inj heq
    exact ⟨iff_of_false (fun h => h rfl) fun hg => hg.1 hm, fun h => absurd rfl h⟩
  · rw [if_neg hm] at h
    obtain ⟨mthread, -, h⟩ := Option.bind_eq_some_iff.mp h
    obtain ⟨⟨⟨t, isNew'⟩, k₁⟩, hfind, h⟩ := Option.bind_eq_some_iff.mp h
    have hcases := findTask_cases hfind
    change if k.roomyTask fuel a = some 0 then (t ≠ 0 ↔ k.TaskGranted c sup) ∧ _ else _ at hcases
    dsimp only at h
    by_cases ht : t = 0
    · rw [if_pos ht] at h
      obtain ⟨heq, -⟩ := Prod.mk.inj (Option.some.inj h)
      obtain ⟨rfl, -⟩ := Prod.mk.inj heq
      refine ⟨iff_of_false (fun h => h rfl) fun hg => ?_, fun h => absurd rfl h⟩
      split_ifs at hcases with hroom
      · exact hcases.1.mpr (hg.2.2 hroom) ht
      · exact hcases.1 ht
    · rw [if_neg ht] at h
      by_cases hentry : sup.apdThread = 0
      · rw [if_pos hentry] at h
        obtain ⟨heq, -⟩ := Prod.mk.inj (Option.some.inj h)
        obtain ⟨rfl, -⟩ := Prod.mk.inj heq
        exact ⟨iff_of_false (fun h => h rfl) fun hg => hg.2.1 hentry, fun h => absurd rfl h⟩
      · rw [if_neg hentry] at h
        obtain ⟨apdThread, -, h⟩ := Option.map_eq_some_iff.mp h
        obtain ⟨heq, -⟩ := Prod.mk.inj h
        obtain ⟨rfl, rfl⟩ := Prod.mk.inj heq
        split_ifs at hcases with hroom
        · exact ⟨iff_of_true hm ⟨hm, hentry, fun _ => hcases.1.mp ht⟩, fun _ =>
            iff_of_true (hcases.2 ht) hroom⟩
        · exact ⟨iff_of_true hm ⟨hm, hentry, fun h => absurd h hroom⟩, fun _ =>
            iff_of_false (by rw [hcases.2]; exact Bool.false_ne_true) hroom⟩

/-- **When `thread_pdx_create` creates a thread.** -/
theorem Mem.threadPdxCreate_ne_iff {caller : ℕ}
    (h : k.threadPdxCreate c fuel a caller sup = some (m, k')) :
    m ≠ 0 ↔ k.PdxThreadGranted c fuel a sup := by
  obtain ⟨⟨got, k₁⟩, hget, h⟩ := Option.bind_eq_some_iff.mp h
  have hthreads : ((k.modApd a fun x => { x with users := x.users + 1 }).apd.cell a).threads
      = (k.apd.cell a).threads := by
    dsimp only
    rw [Heap.cell_modify_self]
  have hroom : (k.modApd a fun x => { x with users := x.users + 1 }).roomyTask fuel a
      = k.roomyTask fuel a := by
    unfold roomyTask
    dsimp only
    rw [Heap.cell_modify_self]
    rfl
  unfold PdxThreadGranted
  unfold threadGetMthread at hget
  dsimp only at hget h
  by_cases hpool : (k.apd.cell a).threads = 0
  · rw [if_neg (not_not.mpr (hthreads.trans hpool))] at hget
    rw [if_neg (not_not.mpr hpool)]
    obtain ⟨⟨⟨new, isNew⟩, k₂⟩, hmake, heq⟩ := Option.map_eq_some_iff.mp hget
    obtain ⟨rfl, rfl⟩ := Prod.mk.inj heq
    obtain ⟨hne, hnew⟩ := makeMthread_cases hmake
    rw [hroom] at hne hnew
    change new ≠ 0 ↔ _ ∧ _ ∧ (_ → k.TaskGranted c sup) at hne
    dsimp only at h
    by_cases hzero : new = 0
    · rw [if_pos hzero] at h
      obtain ⟨rfl, -⟩ := Prod.mk.inj (Option.some.inj h)
      refine iff_of_false (fun h => h rfl) fun ⟨hm, hentry, hg⟩ => hne.mpr ⟨hm, hentry, ?_⟩ hzero
      intro hfull
      rw [if_pos hfull] at hg
      exact hg.1
    · rw [if_neg hzero] at h
      obtain ⟨k₃, -, h⟩ := Option.map_eq_some_iff.mp h
      obtain ⟨hm, hentry, hg⟩ := hne.mp hzero
      by_cases hfull : k.roomyTask fuel a = some 0
      · rw [if_pos ((hnew hzero).mpr hfull)] at h
        rw [if_pos hfull]
        split at h
        · next hnone =>
          obtain ⟨rfl, -⟩ := Prod.mk.inj h
          refine iff_of_false (fun h => h rfl) fun ⟨_, _, _, hstarted⟩ => ?_
          rw [hnone] at hstarted
          cases hstarted
        · next ret hsome =>
          obtain ⟨rfl, -⟩ := Prod.mk.inj h
          exact iff_of_true hzero ⟨hm, hentry, hg hfull, by rw [hsome]; rfl⟩
      · rw [if_neg (mt (hnew hzero).mp hfull)] at h
        rw [if_neg hfull]
        split_ifs at h with hfail
        · obtain ⟨rfl, -⟩ := Prod.mk.inj h
          exact iff_of_false (fun h => h rfl) fun ⟨_, _, hok⟩ => by
            rw [hok] at hfail
            cases hfail.2
        · obtain ⟨rfl, -⟩ := Prod.mk.inj h
          exact iff_of_true hzero ⟨hm, hentry, Bool.eq_false_iff.mpr fun hup => hfail ⟨rfl, hup⟩⟩
  · rw [if_pos fun h0 => hpool (hthreads.symm.trans h0)] at hget
    rw [if_pos hpool]
    obtain ⟨rfl, -⟩ := Prod.mk.inj (Option.some.inj hget)
    have htaken : ((k.modApd a fun x => { x with users := x.users + 1 }).takePooled a caller).1
        = (k.apdThread.cell (k.apd.cell a).threads).mthread := by
      unfold takePooled
      dsimp only
      rw [Heap.cell_modify_self]
    rw [← htaken]
    dsimp only at h
    by_cases hzero :
      ((k.modApd a fun x => { x with users := x.users + 1 }).takePooled a caller).1 = 0
    · rw [if_pos hzero] at h
      obtain ⟨rfl, -⟩ := Prod.mk.inj (Option.some.inj h)
      exact iff_of_false (fun h => h rfl) (not_not.mpr hzero)
    · rw [if_neg hzero] at h
      obtain ⟨k₃, -, h⟩ := Option.map_eq_some_iff.mp h
      rw [if_neg Bool.false_ne_true, if_neg fun h => Bool.false_ne_true h.1] at h
      obtain ⟨rfl, -⟩ := Prod.mk.inj h
      exact Iff.rfl

end Creation

/-! ### PDX calls -/

/-- A PDX call gets an APD for the Clist `clist`. -/
def Mem.ClistGetsApd (c : ThreadConf) (k : Mem) (a : PdxArgs O) (clist : Cap) : Prop :=
  if a.pd = pdMerge then
    k.Cached c a.fuel a.merge (k.apdOf a.caller) clist ∨
      k.MergeGranted (k.apdOf a.caller) clist a.sup
  else if a.pd = pdEmpty then
    k.Cached c a.fuel a.merge 0 clist ∨ k.MergeGranted 0 clist a.sup
  else
    (∃ found ∈ (k.askFor a a.askingPd).validateObj a.pd mExecute, found.isSome) ∧
      ∃ made ∈ k.apdFindOrCreate c a.askingPd.kernel a.fuel a.pd a.desc a.supPd, made.1 ≠ 0 ∧
        (made.2.Cached c a.fuel a.merge made.1 clist ∨ made.2.MergeGranted made.1 clist a.sup)

/-- A PDX call gets an APD: from the PDX cache, or for the Clist that is found for the entry
point. -/
def Mem.GetsApd (c : ThreadConf) (k : Mem) (a : PdxArgs O) : Prop :=
  (∃ apd ∈ k.pdxcacheLookup c a.lookup (k.apdOf a.caller) a.proc a.pd, apd ≠ 0) ∨
    ∃ found ∈ pdxCallClist (k.askFor a a.asking) a.proc, ∃ clist ∈ found, k.ClistGetsApd c a clist

theorem Mem.apdPdxMerge_ne {now' orig : ℕ} {clist : Cap} {sup : ApdSupply} {apd : ℕ}
    {id : ApdCacheId}
    (h : k.apdPdxMerge c fuel now now' orig clist sup = some (some (apd, id), k')) : apd ≠ 0 := by
  obtain ⟨⟨found, k₁⟩, hlook, h⟩ := Option.bind_eq_some_iff.mp h
  rcases apdPdxCacheLookup_cases hlook with ⟨rfl, -⟩ | ⟨-, i, -, hne, -, -, -, rfl⟩
  · rcases apdPdxBuild_made h with ⟨hnone, -⟩ | ⟨k₂, id', hsome, hmade, -⟩
    · cases hnone
    · obtain ⟨rfl, -⟩ := Prod.mk.inj (Option.some.inj hsome)
      exact hmade.ne
  · obtain ⟨heq, -⟩ := Prod.mk.inj (Option.some.inj h)
    obtain ⟨rfl, -⟩ := Prod.mk.inj (Option.some.inj heq)
    exact hne

theorem Mem.pdxApd_isSome_iff {a : PdxArgs O} {clist : Cap} {r : Option (ℕ × ApdCacheId)}
    (h : k.pdxApd c a clist = some (r, k')) :
    (r.isSome ↔ k.ClistGetsApd c a clist) ∧ ∀ apd id, r = some (apd, id) → apd ≠ 0 := by
  unfold pdxApd at h
  unfold ClistGetsApd
  split_ifs at h ⊢ with hmerge hempty
  · exact ⟨apdPdxMerge_isSome_iff h, fun apd id hr => apdPdxMerge_ne (hr ▸ h)⟩
  · exact ⟨apdPdxMerge_isSome_iff h, fun apd id hr => apdPdxMerge_ne (hr ▸ h)⟩
  · obtain ⟨found, hfound, h⟩ := Option.bind_eq_some_iff.mp h
    cases found with
    | none =>
      obtain ⟨rfl, -⟩ := Prod.mk.inj (Option.some.inj h)
      refine ⟨iff_of_false nofun ?_, nofun⟩
      rintro ⟨⟨found, hmem, hsome⟩, -⟩
      rw [Option.mem_def, hfound] at hmem
      obtain rfl := Option.some.inj hmem
      cases hsome
    | some found =>
      dsimp only at h
      unfold apdPdxFindOrCreate at h
      rw [if_neg (show ¬a.pd = 0 from hempty)] at h
      obtain ⟨⟨apd, k₁⟩, hmade, h⟩ := Option.bind_eq_some_iff.mp h
      have hiff : (∃ made ∈ k.apdFindOrCreate c a.askingPd.kernel a.fuel a.pd a.desc a.supPd,
          made.1 ≠ 0 ∧ (made.2.Cached c a.fuel a.merge made.1 clist ∨
            made.2.MergeGranted made.1 clist a.sup)) ↔
          apd ≠ 0 ∧ (k₁.Cached c a.fuel a.merge apd clist ∨ k₁.MergeGranted apd clist a.sup) := by
        simp only [hmade, Option.mem_some, exists_eq_left']
      have hvalid : ∃ found ∈ (k.askFor a a.askingPd).validateObj a.pd mExecute, found.isSome :=
        ⟨_, hfound, rfl⟩
      rw [hiff, and_iff_right hvalid]
      dsimp only at h
      by_cases hapd : apd = 0
      · rw [if_pos hapd] at h
        obtain ⟨rfl, -⟩ := Prod.mk.inj (Option.some.inj h)
        exact ⟨iff_of_false nofun fun hm => hm.1 hapd, nofun⟩
      · rw [if_neg hapd] at h
        exact ⟨(apdPdxMerge_isSome_iff h).trans (and_iff_right hapd).symm, fun apd id hr =>
          apdPdxMerge_ne (hr ▸ h)⟩

theorem Mem.pdxCallApd_ne_iff {a : PdxArgs O} {apd : ℕ}
    (h : k.pdxCallApd c a = some (apd, k')) : apd ≠ 0 ↔ k.GetsApd c a := by
  obtain ⟨hit, hlook, h⟩ := Option.bind_eq_some_iff.mp h
  unfold GetsApd
  by_cases hhit : hit ≠ 0
  · rw [if_pos hhit] at h
    obtain ⟨rfl, -⟩ := Prod.mk.inj (Option.some.inj h)
    exact iff_of_true hhit (Or.inl ⟨_, hlook, hhit⟩)
  · rw [if_neg hhit] at h
    have hmiss : ¬∃ apd ∈ k.pdxcacheLookup c a.lookup (k.apdOf a.caller) a.proc a.pd, apd ≠ 0 := by
      rintro ⟨apd, hmem, hne⟩
      rw [Option.mem_def, hlook] at hmem
      exact hhit (Option.some.inj hmem ▸ hne)
    rw [or_iff_right hmiss]
    obtain ⟨found, hfound, h⟩ := Option.bind_eq_some_iff.mp h
    rw [hfound]
    cases found with
    | none =>
      obtain ⟨rfl, -⟩ := Prod.mk.inj (Option.some.inj h)
      refine iff_of_false (fun h => h rfl) ?_
      rintro ⟨_, ⟨⟩, _, ⟨⟩, _⟩
    | some clist =>
      obtain ⟨⟨made, k₁⟩, hmade, h⟩ := Option.map_eq_some_iff.mp h
      obtain ⟨hiff, hne⟩ := pdxApd_isSome_iff hmade
      have hclist : (∃ found ∈ some (some clist), ∃ cl ∈ found, k.ClistGetsApd c a cl) ↔
          k.ClistGetsApd c a clist := by
        simp only [Option.mem_some, exists_eq_left']
      rw [hclist, ← hiff]
      cases made with
      | none =>
        obtain ⟨rfl, -⟩ := Prod.mk.inj h
        exact iff_of_false (fun h => h rfl) nofun
      | some made =>
        obtain ⟨rfl, -⟩ := Prod.mk.inj h
        exact iff_of_true (hne _ _ rfl) rfl

/-- The PDX call gets an APD, and its thread is created. -/
def Mem.GoesThrough (c : ThreadConf) (k : Mem) (a : PdxArgs O) : Prop :=
  k.GetsApd c a ∧ ∀ got ∈ k.pdxCallApd c a, got.2.PdxThreadGranted c a.fuel got.1 a.thread

/-- **When `sys_pdx_call` succeeds.** -/
theorem Mem.sysPdxCall_iff {a : PdxArgs O} {ok : Bool} (h : k.sysPdxCall c a = some (ok, k')) :
    ok = true ↔ k.GoesThrough c a := by
  unfold GoesThrough
  obtain ⟨⟨apd, k₁⟩, hgot, h⟩ := Option.bind_eq_some_iff.mp h
  have hall : (∀ got ∈ k.pdxCallApd c a, got.2.PdxThreadGranted c a.fuel got.1 a.thread) ↔
      k₁.PdxThreadGranted c a.fuel apd a.thread := by
    simp only [hgot, Option.mem_some, forall_eq']
  rw [hall, ← pdxCallApd_ne_iff hgot]
  by_cases hapd : apd = 0
  · rw [if_pos hapd] at h
    obtain ⟨rfl, -⟩ := Prod.mk.inj (Option.some.inj h)
    exact iff_of_false Bool.false_ne_true fun hg => hg.1 hapd
  · rw [if_neg hapd] at h
    obtain ⟨⟨m, k₂⟩, hcreate, heq⟩ := Option.map_eq_some_iff.mp h
    obtain ⟨rfl, -⟩ := Prod.mk.inj heq
    rw [decide_eq_true_iff, and_iff_right hapd]
    exact threadPdxCreate_ne_iff hcreate

/-! ### Locked slots -/

section Locked
variable {apd : ApdDesc}

/-- No slot is free for the Clist. -/
theorem apdMergeSlots_locked (h : apd.nLocked = apdMaxEntry) (sys : Option SysCap) (clist : Cap) :
    (apdMergeSlots (some apd) sys clist).join = none := by
  cases hslots : (apdMergeSlots (some apd) sys clist).join with
  | none => rfl
  | some new =>
    obtain ⟨cap, i, -, hle, hin, -⟩ := apdMergeSlots_eq_some (Option.join_eq_some_iff.mp hslots)
    rw [Option.getD_some, h] at hle
    omega

theorem apdSlotInsert_locked (h : apd.nLocked = apdMaxEntry) (os : Kernel O) {clist passwd : ℕ}
    {pos : ℤ} {r : ℕ × ApdDesc} (hr : apdSlotInsert os apd clist passwd pos = some r) :
    r.1 ≠ 0 := by
  unfold apdSlotInsert at hr
  split_ifs at hr with h₁ h₂ h₃
  · obtain rfl := Option.some.inj hr
    exact one_ne_zero
  · obtain rfl := Option.some.inj hr
    exact show stOvfl ≠ 0 by decide
  · obtain rfl := Option.some.inj hr
    exact show stLock ≠ 0 by decide
  · omega

theorem sysApdInsert_locked {asking : Asking O} (h : asking.apd.nLocked = apdMaxEntry) {clist : ℕ}
    {pos : ℤ} {r : ℕ × ApdDesc} (hr : sysApdInsert asking clist pos = some r) : r.1 ≠ 0 := by
  obtain ⟨found, -, hr⟩ := Option.bind_eq_some_iff.mp hr
  cases found with
  | none =>
    obtain rfl := Option.some.inj hr
    exact one_ne_zero
  | some cap => exact apdSlotInsert_locked h _ hr

/-- Deleting slots is refused, if all slots in use are slots. -/
theorem apdSlotDelete_locked (h : apd.nLocked = apdMaxEntry) :
    (∀ pos, ∃ r ∈ apdSlotDelete apd pos, r.1 ≠ 0) ↔ apd.nApd ≤ apdMaxEntry := by
  refine ⟨fun hall => ?_, fun hn pos => ?_⟩
  · by_contra hn
    obtain ⟨r, hr, -⟩ := hall apdMaxEntry
    unfold apdSlotDelete at hr
    rw [if_neg (by omega)] at hr
    obtain ⟨s, -, hr⟩ := Option.bind_eq_some_iff.mp hr
    obtain ⟨s', hset, -⟩ := Option.map_eq_some_iff.mp hr
    have hin := (ApdDesc.setSlot_eq_some.mp hset).1
    omega
  · unfold apdSlotDelete
    rw [if_pos (by omega)]
    split_ifs
    · exact ⟨_, rfl, show stLock ≠ 0 by decide⟩
    · exact ⟨_, rfl, one_ne_zero⟩

end Locked

/-- The PDX call is refused, and so are all insertions and deletions by the caller. -/
structure Mem.Confined (c : ThreadConf) (k : Mem) (a : PdxArgs O) : Prop where
  pdxCall : ∀ r ∈ k.sysPdxCall c a, r.1 = false
  insert : ∀ (asking : Asking O) clist pos, ∀ r ∈ sysApdInsert (k.askFor a asking) clist pos,
    r.1 ≠ 0
  delete : ∀ pos, ∃ r ∈ apdSlotDelete (k.apd.cell (k.apdOf a.caller)).data pos, r.1 ≠ 0

/-- The ways out of a locked APD: the PDX cache has an APD for the call, or there is a Clist for
it, and the cache of APDs has one for that with the APD of the caller, or it is not the APD of
the caller that is copied. -/
def Mem.WayOut (c : ThreadConf) (k : Mem) (a : PdxArgs O) : Prop :=
  (∃ apd ∈ k.pdxcacheLookup c a.lookup (k.apdOf a.caller) a.proc a.pd, apd ≠ 0) ∨
    ∃ found ∈ pdxCallClist (k.askFor a a.asking) a.proc, ∃ clist ∈ found,
      if a.pd = pdMerge then k.Cached c a.fuel a.merge (k.apdOf a.caller) clist
      else k.ClistGetsApd c a clist

instance (a : PdxArgs O) (clist : Cap) : Decidable (k.ClistGetsApd c a clist) := by
  unfold Mem.ClistGetsApd
  infer_instance

instance (a : PdxArgs O) : Decidable (k.WayOut c a) := by
  unfold Mem.WayOut
  infer_instance

theorem Mem.getsApd_iff_wayOut {a : PdxArgs O}
    (hlocked : (k.apd.cell (k.apdOf a.caller)).data.nLocked = apdMaxEntry)
    (hapd : k.apdOf a.caller ≠ 0) (hnew : a.sup.apd ≠ k.apdOf a.caller) :
    k.GetsApd c a ↔ k.WayOut c a := by
  have hgranted : ∀ clist, ¬k.MergeGranted (k.apdOf a.caller) clist a.sup := by
    rintro clist ⟨-, -, hslots⟩
    unfold cloned at hslots
    rw [if_neg (not_or.mpr ⟨hapd, hnew.symm⟩), apdMergeSlots_locked hlocked] at hslots
    cases hslots
  unfold GetsApd WayOut
  refine or_congr_right (exists_congr fun found => and_congr_right fun _ =>
    exists_congr fun clist => and_congr_right fun _ => ?_)
  unfold ClistGetsApd
  split_ifs
  · exact or_iff_left (hgranted clist)
  · exact Iff.rfl
  · exact Iff.rfl

/-- The calls of before, and those that change the slots of the APD of the caller. -/
inductive SlotCall (O : Type) where
  | call (op : CallOp O)
  | apdInsert (caller : ℕ) (asking : Asking O) (clist : ℕ) (pos : ℤ)
  | apdDelete (caller : ℕ) (pos : ℤ)
  | apdLock (caller : ℕ) (pos : ℤ)

/-- The APD of the caller gets other slots. -/
def Timed.setSlots (s : Timed) (caller : ℕ) (data : ApdDesc) : Timed :=
  { s with mem := s.mem.modApd (s.mem.apdOf caller) fun a => { a with data } }

/-- One call at a time. -/
def slotCallStep (c : ThreadConf) (s : Timed) : SlotCall O → Option Timed
  | .call op => callStep c s op
  | .apdInsert caller asking clist pos =>
    let apd := (s.mem.apd.cell (s.mem.apdOf caller)).data
    (sysApdInsert { asking with apd } clist pos).map fun r => s.setSlots caller r.2
  | .apdDelete caller pos =>
    (apdSlotDelete (s.mem.apd.cell (s.mem.apdOf caller)).data pos).map fun r =>
      s.setSlots caller r.2
  | .apdLock caller pos =>
    some (s.setSlots caller (apdSlotLock (s.mem.apd.cell (s.mem.apdOf caller)).data pos).2)

/-- An APD is made, and its thread locks all slots. -/
def lockedApd : List (SlotCall ℕ) :=
  [.call (.thread (.apdFromTemplate pdxKernel oneSlot (apdAt 100))),
    .call (.thread (.threadCreate 5 100 0 0 0 (taskFor 10 0))), .apdLock 10 (-1)]

end Mungi
