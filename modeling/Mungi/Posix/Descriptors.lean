import Mungi.Lib.Heap
import Mungi.Lib.Runs
import Mungi.Lib.Slots
import Mungi.Posix.Env

/-!
# File descriptors

A descriptor is a place in a table of pointers to open files, and descriptors that are made from
each other share one of these, which counts them (`oftab.c`).  `dup` and `dup2` go through `fcntl`,
and `dup2` closes the descriptor that it is to return before that.

`close` frees the open file whether or not another descriptor shares it, and the search for a free
descriptor does not look at where it is to start.

## Main definitions

* `close`, `dup`, `dup2`, `fcntl` — the functions, over those of `oftab.c`.
* `DescTable.Sound` — the open files are those that descriptors name, as often as they count.
* `FdCall.Served` — a call does what it is meant to.

## Main results

* `served_iff_fits` — which calls do.
* `descriptors_iff` — **all calls of a run do, if and only if no descriptor is closed that shares
  its file and `dup2` is asked for the lowest descriptor that is free then.**
-/

namespace Mungi.Posix

open Runs Slots

/-! ### The code -/

/-- `_open_file`; `δ` has what there is for a file of the type. -/
structure OpenEnt (δ : Type) where
  refCount : ℕ
  type : ℕ
  data : δ

/-- `oftab` and `_open_max`, with the open files. -/
structure DescTable (δ : Type) where
  oftab : ℕ → ℕ
  openMax : ℕ
  files : Heap (OpenEnt δ)

/-- `F_DUPFD` -/
def fDupfd : ℕ := 0

variable {δ : Type} (t : DescTable δ)

/-- `find_free_handle` -/
def findFreeHandle (_start : ℕ) : ℕ :=
  ((List.range t.openMax).find? fun pos => t.oftab pos = 0).getD t.openMax

/-- `_open_max` covers the descriptor. -/
def DescTable.cover (pos : ℕ) : DescTable δ :=
  if t.openMax ≤ pos then { t with openMax := pos + 1 } else t

/-- `_oft_lookup`, 0 for `NULL`.  There has to be a place. -/
def oftLookup (desc : ℕ) : Option ℕ := if desc < oftSize then some (t.oftab desc) else none

/-- `_oft_set`, with what `malloc` returns. -/
def oftSet (desc : ℕ) (file : OpenEnt δ) (new : ℕ) : Option (ℤ × DescTable δ) :=
  (oftLookup t desc).bind fun _ =>
    if new = 0 then some (-1, t)
    else (t.files.alloc new { file with refCount := 1 }).map fun files =>
      (desc, { t with oftab := Function.update t.oftab desc new, files := files }.cover desc)

/-- `_oft_add` -/
def oftAdd (file : OpenEnt δ) (new : ℕ) : Option (ℤ × DescTable δ) :=
  let pos := findFreeHandle t 0
  (oftSet (t.cover pos) pos file new).map fun (_, t) => (pos, t)

/-- `_oft_remove` -/
def oftRemove (desc : ℕ) : Option (ℤ × DescTable δ) :=
  (oftLookup t desc).map fun p =>
    (0, { t with oftab := Function.update t.oftab desc 0, files := t.files.free p })

/-- `_oft_dup` -/
def oftDup (desc desc2 : ℕ) : Option (ℤ × DescTable δ) :=
  if t.openMax < desc2 then some (-1, t)
  else
    let pos := findFreeHandle t desc2
    let t := t.cover pos
    (oftLookup t pos).bind fun _ =>
      (oftLookup t desc).bind fun p =>
        -- the count of the file is what is changed
        if p = 0 then none
        else some (pos, { t with
          oftab := Function.update t.oftab pos p
          files := t.files.modify p fun f => { f with refCount := f.refCount + 1 } })

/-- `fcntl` -/
def fcntl (fildes cmd fildes2 : ℕ) : Option (ℤ × DescTable δ) :=
  if cmd ≠ fDupfd then some (-1, t)
  else
    (oftLookup t fildes).bind fun file =>
      if file = 0 then some (-1, t) else oftDup t fildes fildes2

/-- `_FT_PDX` and `_FT_UFILE`. -/
def ftPdx : ℕ := 0
def ftUfile : ℕ := 2

/-- `_objfile_close` -/
def objfileClose : ℤ := 0

/-- What is done to a file of the type; for the others than these there is an assertion. -/
def closeType (type : ℕ) : ℤ :=
  if type = ftPdx then 0 else if type = ftUfile then objfileClose else 0

/-- `close` -/
def close (fildes : ℕ) : Option (ℤ × DescTable δ) :=
  (oftLookup t fildes).bind fun file =>
    if file = 0 then some (-1, t)
    else
      let ret := closeType (t.files.cell file).type
      if ret = 0 then oftRemove t fildes else some (ret, t)

/-- `dup` -/
def dup (fildes : ℕ) : Option (ℤ × DescTable δ) := fcntl t fildes fDupfd 0

/-- `dup2` -/
def dup2 (fildes fildes2 : ℕ) : Option (ℤ × DescTable δ) :=
  (close t fildes2).bind fun (r, t) =>
    if r = 0 then fcntl t fildes fDupfd fildes2 else some (r, t)

/-- A call; a file is opened by `_oft_add`, with the block that there is for it. -/
inductive FdCall (δ : Type) where
  | opened (file : OpenEnt δ) (new : ℕ)
  | dup (fildes : ℕ)
  | dup2 (fildes fildes2 : ℕ)
  | close (fildes : ℕ)

/-- A call is made. -/
def fdCall : FdCall δ → Option (ℤ × DescTable δ)
  | .opened file new => oftAdd t file new
  | .dup fildes => dup t fildes
  | .dup2 fildes fildes2 => dup2 t fildes fildes2
  | .close fildes => close t fildes

/-- The table after a call. -/
def fdStep (c : FdCall δ) : Option (DescTable δ) := (fdCall t c).map Prod.snd

/-! ### What calls are meant to do -/

namespace DescTable

/-- What a descriptor names: the open file, and what is in it. -/
def view (i : ℕ) : Option (ℕ × ℕ × δ) :=
  if t.oftab i = 0 then none
  else some (t.oftab i, (t.files.cell (t.oftab i)).type, (t.files.cell (t.oftab i)).data)

/-- **The open files are those that descriptors name**, and each counts its descriptors. -/
structure Sound : Prop where
  live : ∀ p, t.files.live p = true ↔ p ∈ used oftSize t.oftab
  count : ∀ p ∈ used oftSize t.oftab, (t.files.cell p).refCount = (used oftSize t.oftab).count p

/-- No other descriptor shares the file. -/
def Unshared (i : ℕ) : Prop := ∀ j < oftSize, t.oftab j = t.oftab i → j = i

instance (i : ℕ) : Decidable (t.Unshared i) :=
  inferInstanceAs (Decidable (∀ j < oftSize, t.oftab j = t.oftab i → j = i))

end DescTable

namespace FdCall

/-- Descriptors are valid, not all of them are in use, and `malloc` returns no block in use. -/
def Given : FdCall δ → Prop
  | opened _ new => (used oftSize t.oftab).length < oftSize ∧ t.files.live new = false
  | dup i => (i < oftSize ∧ t.oftab i ≠ 0) ∧ (used oftSize t.oftab).length < oftSize
  | dup2 i j => (i < oftSize ∧ t.oftab i ≠ 0) ∧ j < oftSize
  | close i => i < oftSize ∧ t.oftab i ≠ 0

instance : ∀ c : FdCall δ, Decidable (c.Given t)
  | opened _ new => inferInstanceAs (Decidable
    ((used oftSize t.oftab).length < oftSize ∧ t.files.live new = false))
  | dup i => inferInstanceAs (Decidable
    ((i < oftSize ∧ t.oftab i ≠ 0) ∧ (used oftSize t.oftab).length < oftSize))
  | dup2 i j => inferInstanceAs (Decidable ((i < oftSize ∧ t.oftab i ≠ 0) ∧ j < oftSize))
  | close i => inferInstanceAs (Decidable (i < oftSize ∧ t.oftab i ≠ 0))

/-- What a call is meant to answer, and to make of what the descriptors name. -/
def Answered (t t' : DescTable δ) (r : ℤ) : FdCall δ → Prop
  | opened file new => ∃ i < oftSize, r = i ∧ t.view i = none ∧
      t'.view = if new = 0 then t.view
        else Function.update t.view i (some (new, file.type, file.data))
  | dup i => ∃ k < oftSize, r = k ∧ t.view k = none ∧ t'.view = Function.update t.view k (t.view i)
  | dup2 i j => r = j ∧ t'.view = Function.update t.view j (t.view i)
  | close i => r = 0 ∧ t'.view = Function.update t.view i none

/-- **A call does what it is meant to**, and leaves the counts right. -/
def Served (c : FdCall δ) : Prop :=
  ∃ r t', fdCall t c = some (r, t') ∧ c.Answered t t' r ∧ t'.Sound

/-- No shared file is closed, and `dup2` is asked for the lowest descriptor that is free once it has
closed it. -/
def Fits : FdCall δ → Prop
  | opened .. => True
  | dup _ => True
  | dup2 i j => i ≠ j ∧ (t.oftab j ≠ 0 ∧ t.Unshared j) ∧ ∀ k < j, t.oftab k ≠ 0
  | close i => t.Unshared i

end FdCall

/-- The table of a process: nothing is open from `_open_max` on. -/
structure DescTable.Bounded : Prop where
  bound : t.openMax ≤ oftSize
  beyond : ∀ i, t.openMax ≤ i → t.oftab i = 0

/-! ### The functions of the table -/

variable {t} {t' : DescTable δ} {i j k new p : ℕ} {file : OpenEnt δ}

namespace DescTable

@[simp] theorem oftab_cover : (t.cover i).oftab = t.oftab := by
  unfold cover
  split <;> rfl

@[simp] theorem files_cover : (t.cover i).files = t.files := by
  unfold cover
  split <;> rfl

@[simp] theorem openMax_cover : (t.cover i).openMax = max t.openMax (i + 1) := by
  unfold cover
  split_ifs with h
  · exact (max_eq_right (h.trans (Nat.le_succ i))).symm
  · exact (max_eq_left (Nat.succ_le_of_lt (not_le.mp h))).symm

/-- A place of a table that covers it is set. -/
theorem Bounded.set (h : t.Bounded) (hi : i < oftSize)
    (hoftab : t'.oftab = Function.update t.oftab i p)
    (hmax : t'.openMax = max t.openMax (i + 1)) : t'.Bounded := by
  refine ⟨?_, fun k hk => ?_⟩
  · rw [hmax]
    exact max_le h.bound hi
  · rw [hmax, Nat.max_le] at hk
    rw [hoftab, Function.update_of_ne (Nat.ne_of_gt hk.2)]
    exact h.beyond k hk.1

/-- The table after a descriptor is closed. -/
def removed (t : DescTable δ) (i : ℕ) : DescTable δ :=
  { t with oftab := Function.update t.oftab i 0, files := t.files.free (t.oftab i) }

/-- The table after a descriptor is made from another one. -/
def shared (t : DescTable δ) (i pos : ℕ) : DescTable δ :=
  { t.cover pos with
    oftab := Function.update t.oftab pos (t.oftab i)
    files := t.files.modify (t.oftab i) fun f => { f with refCount := f.refCount + 1 } }

end DescTable

open DescTable

theorem oftLookup_eq (hi : i < oftSize) : oftLookup t i = some (t.oftab i) := if_pos hi

/-- **The search finds the lowest free descriptor.** -/
theorem findFreeHandle_spec (h : t.Bounded) (hfree : ∃ i < oftSize, t.oftab i = 0) (start : ℕ) :
    findFreeHandle t start < oftSize ∧ t.oftab (findFreeHandle t start) = 0 ∧
      ∀ k < findFreeHandle t start, t.oftab k ≠ 0 := by
  unfold findFreeHandle
  cases hfind : (List.range t.openMax).find? fun pos => t.oftab pos = 0 with
  | some pos =>
    obtain ⟨hpos, hmem, hbefore⟩ := List.find?_range_eq_some.mp hfind
    rw [List.mem_range] at hmem
    refine ⟨hmem.trans_le h.bound, by simpa using hpos, fun k hk => ?_⟩
    simpa using hbefore k hk
  | none =>
    -- all places that are covered are in use
    have hbusy : ∀ k < t.openMax, t.oftab k ≠ 0 := fun k hk => by
      simpa using List.find?_range_eq_none.mp hfind k hk
    obtain ⟨i, hi, hzero⟩ := hfree
    have hmax : t.openMax ≤ i := not_lt.mp fun hlt => hbusy i hlt hzero
    exact ⟨hmax.trans_lt hi, h.beyond _ le_rfl, hbusy⟩

theorem closeType_eq (type : ℕ) : closeType type = 0 := by
  unfold closeType objfileClose
  split_ifs <;> rfl

theorem close_eq (hi : i < oftSize) (hne : t.oftab i ≠ 0) : close t i = some (0, t.removed i) := by
  unfold close oftRemove
  rw [oftLookup_eq hi, Option.bind_some, if_neg hne]
  dsimp only
  rw [if_pos (closeType_eq _), Option.map_some]
  rfl

theorem fcntl_eq (h : t.Bounded) (hi : i < oftSize) (hne : t.oftab i ≠ 0)
    (hfree : ∃ i < oftSize, t.oftab i = 0) (hj : j ≤ t.openMax) :
    fcntl t i fDupfd j = some ((findFreeHandle t j : ℤ), t.shared i (findFreeHandle t j)) := by
  have hpos := (findFreeHandle_spec h hfree j).1
  unfold fcntl oftDup
  rw [if_neg (not_not.mpr rfl), oftLookup_eq hi, Option.bind_some, if_neg hne,
    if_neg (not_lt.mpr hj)]
  dsimp only
  rw [oftLookup_eq hpos, Option.bind_some, oftLookup_eq hi, Option.bind_some, oftab_cover,
    if_neg hne, files_cover]
  rfl

/-! ### What they do to the table -/

namespace DescTable

theorem Bounded.removed (h : t.Bounded) (i : ℕ) : (t.removed i).Bounded where
  bound := h.bound
  beyond k hk := by
    change Function.update t.oftab i 0 k = 0
    by_cases hki : k = i
    · rw [hki, Function.update_self]
    · rw [Function.update_of_ne hki]
      exact h.beyond k hk

theorem Bounded.shared (h : t.Bounded) {pos : ℕ} (hpos : pos < oftSize) :
    (t.shared i pos).Bounded :=
  h.set hpos rfl openMax_cover

/-- What the descriptors name when one is closed. -/
theorem view_removed (t : DescTable δ) (i : ℕ) :
    (t.removed i).view = Function.update t.view i none := by
  funext k
  by_cases hk : k = i
  · simp [view, DescTable.removed, hk]
  · simp [view, DescTable.removed, hk]

/-- What the descriptors name when one is made from another. -/
theorem view_shared (t : DescTable δ) (i pos : ℕ) :
    (t.shared i pos).view = Function.update t.view pos (t.view i) := by
  have htype : ∀ q, ((t.shared i pos).files.cell q).type = (t.files.cell q).type :=
    Heap.modify_field (g := OpenEnt.type)
      (f := fun e : OpenEnt δ => { e with refCount := e.refCount + 1 }) fun _ => rfl
  have hdata : ∀ q, ((t.shared i pos).files.cell q).data = (t.files.cell q).data :=
    Heap.modify_field (g := OpenEnt.data)
      (f := fun e : OpenEnt δ => { e with refCount := e.refCount + 1 }) fun _ => rfl
  funext k
  unfold view
  rw [htype, hdata]
  by_cases hk : k = pos
  · simp [DescTable.shared, hk]
  · simp [DescTable.shared, hk]

/-- **A file is opened**: its one descriptor is counted. -/
theorem Sound.opened (h : t.Sound) (hi : i < oftSize) (hfree : t.oftab i = 0) (hnew : new ≠ 0)
    {files : Heap (OpenEnt δ)} (halloc : t.files.alloc new { file with refCount := 1 } = some files)
    (hoftab : t'.oftab = Function.update t.oftab i new) (hfiles : t'.files = files) : t'.Sound := by
  have hperm := used_put hi hfree hnew
  have hout : new ∉ used oftSize t.oftab := by
    rw [← h.live, (Heap.alloc_eq_some.mp halloc).1]
    exact Bool.false_ne_true
  subst hfiles
  refine ⟨fun p => ?_, fun p hp => ?_⟩
  · rw [hoftab, hperm.mem_iff, List.mem_cons, Heap.live_alloc halloc, ← h.live]
    by_cases hp : p = new
    · simp [hp]
    · simp [hp]
  · rw [hoftab, hperm.mem_iff, List.mem_cons] at hp
    rw [hoftab, hperm.count_eq]
    rcases hp with rfl | hp
    · rw [Heap.cell_alloc_self halloc, List.count_cons_self, List.count_eq_zero_of_not_mem hout]
    · have hne : p ≠ new := by
        rintro rfl
        exact hout hp
      rw [Heap.cell_alloc_of_ne halloc hne, List.count_cons_of_ne hne.symm]
      exact h.count p hp

/-- **A descriptor more** names the file. -/
theorem Sound.shared (h : t.Sound) (hi : i < oftSize) (hne : t.oftab i ≠ 0) {pos : ℕ}
    (hpos : pos < oftSize) (hfree : t.oftab pos = 0) : (t.shared i pos).Sound := by
  have hperm := used_put hpos hfree hne
  have hmem : t.oftab i ∈ used oftSize t.oftab := mem_used.mpr ⟨hne, i, hi, rfl⟩
  refine ⟨fun p => ?_, fun p hp => ?_⟩
  · change t.files.live p = true ↔ p ∈ used oftSize (Function.update t.oftab pos (t.oftab i))
    rw [hperm.mem_iff, List.mem_cons, h.live]
    refine ⟨Or.inr, ?_⟩
    rintro (rfl | hp)
    · exact hmem
    · exact hp
  · change p ∈ used oftSize (Function.update t.oftab pos (t.oftab i)) at hp
    change ((t.files.modify (t.oftab i) fun f => { f with refCount := f.refCount + 1 }).cell
      p).refCount = (used oftSize (Function.update t.oftab pos (t.oftab i))).count p
    rw [hperm.mem_iff, List.mem_cons] at hp
    rw [hperm.count_eq, Heap.cell_modify]
    by_cases hpi : p = t.oftab i
    · rw [if_pos hpi, ← hpi, List.count_cons_self]
      exact congrArg (· + 1) (h.count p (hpi ▸ hmem))
    · rw [if_neg hpi, List.count_cons_of_ne (Ne.symm hpi)]
      exact h.count p (hp.resolve_left hpi)

/-- What the descriptors hold when one is closed that shares nothing. -/
theorem notMem_used_removed (hunshared : t.Unshared i) (hne : t.oftab i ≠ 0) :
    t.oftab i ∉ used oftSize (Function.update t.oftab i 0) := by
  intro hmem
  obtain ⟨-, k, hk, hki⟩ := mem_used.mp hmem
  by_cases hkeq : k = i
  · rw [hkeq, Function.update_self] at hki
    exact hne hki.symm
  · rw [Function.update_of_ne hkeq] at hki
    exact hkeq (hunshared k hk hki)

/-- **The last descriptor is closed**, and the file is freed. -/
theorem Sound.removed (h : t.Sound) (hi : i < oftSize) (hne : t.oftab i ≠ 0)
    (hunshared : t.Unshared i) : (t.removed i).Sound := by
  have hperm := used_clear hi hne
  have hout := notMem_used_removed hunshared hne
  refine ⟨fun p => ?_, fun p hp => ?_⟩
  · change (t.files.free _).live p = true ↔ p ∈ used oftSize (Function.update t.oftab i 0)
    rw [Heap.live_free]
    by_cases hp : p = t.oftab i
    · rw [if_pos hp, hp]
      exact iff_of_false Bool.false_ne_true hout
    · rw [if_neg hp, h.live, ← hperm.mem_iff, List.mem_cons, or_iff_right hp]
  · change p ∈ used oftSize (Function.update t.oftab i 0) at hp
    change (t.files.cell p).refCount = (used oftSize (Function.update t.oftab i 0)).count p
    have hne' : t.oftab i ≠ p := by
      rintro rfl
      exact hout hp
    rw [h.count p (hperm.mem_iff.mp (List.mem_cons_of_mem _ hp)), ← hperm.count_eq,
      List.count_cons_of_ne hne']

/-- **A file that is shared is freed** with the first descriptor that is closed, and the other one
names what is free. -/
theorem not_sound_removed (hne : t.oftab i ≠ 0) (hj : j < oftSize) (heq : t.oftab j = t.oftab i)
    (hoftab : t'.oftab j = t.oftab j) (hlive : t'.files.live = (t.removed i).files.live) :
    ¬ t'.Sound := by
  intro h
  have hmem : t.oftab i ∈ used oftSize t'.oftab := mem_used.mpr ⟨hne, j, hj, hoftab.trans heq⟩
  have hdead : t'.files.live (t.oftab i) = false := by
    rw [hlive]
    exact Heap.live_free_self
  rw [(h.live _).mpr hmem] at hdead
  cases hdead

end DescTable

/-! ### Calls -/

/-- What holds between calls. -/
structure DescTable.Kept (t : DescTable δ) : Prop where
  sound : t.Sound
  bounded : t.Bounded

/-- `_oft_add` where there is no memory: it returns a descriptor with nothing behind it. -/
theorem oftAdd_zero (h : t.Bounded) (hroom : (used oftSize t.oftab).length < oftSize)
    (file : OpenEnt δ) :
    oftAdd t file 0 = some ((findFreeHandle t 0 : ℤ), t.cover (findFreeHandle t 0)) := by
  obtain ⟨hpos, -⟩ := findFreeHandle_spec h (length_used_lt.mp hroom) 0
  unfold oftAdd oftSet
  dsimp only
  rw [oftLookup_eq hpos, Option.bind_some, if_pos rfl, Option.map_some]

/-- `_oft_add` where all descriptors are in use: it leaves the table. -/
theorem oftAdd_full (h : t.Bounded) (hfull : ¬ (used oftSize t.oftab).length < oftSize)
    (file : OpenEnt δ) (new : ℕ) :
    oftAdd t file new = none := by
  have hbusy : ∀ i < oftSize, t.oftab i ≠ 0 := fun i hi hzero =>
    hfull (length_used_lt.mpr ⟨i, hi, hzero⟩)
  have hmax : t.openMax = oftSize := by
    refine le_antisymm h.bound (not_lt.mp fun hlt => ?_)
    exact hbusy _ hlt (h.beyond _ le_rfl)
  have hpos : findFreeHandle t 0 = oftSize := by
    unfold findFreeHandle
    rw [List.find?_range_eq_none.mpr fun i hi => ?_, Option.getD_none, hmax]
    simpa using hbusy i (hi.trans_eq hmax)
  unfold oftAdd oftSet oftLookup
  dsimp only
  rw [hpos, if_neg (lt_irrefl _)]
  rfl

/-- `_oft_add`: the lowest free descriptor names the new file. -/
theorem oftAdd_eq (h : t.Bounded) (hroom : (used oftSize t.oftab).length < oftSize)
    (hzero : new ≠ 0) (hnew : t.files.live new = false) (file : OpenEnt δ) : ∃ t' files,
      oftAdd t file new = some ((findFreeHandle t 0 : ℤ), t') ∧
        t.files.alloc new { file with refCount := 1 } = some files ∧
          t'.oftab = Function.update t.oftab (findFreeHandle t 0) new ∧ t'.files = files ∧
            t'.Bounded := by
  obtain ⟨hpos, -⟩ := findFreeHandle_spec h (length_used_lt.mp hroom) 0
  set pos := findFreeHandle t 0 with hposdef
  obtain ⟨files, halloc⟩ : ∃ files, t.files.alloc new { file with refCount := 1 } = some files :=
    ⟨_, Heap.alloc_eq_some.mpr ⟨hnew, rfl⟩⟩
  set t' : DescTable δ := DescTable.cover
    { t.cover pos with oftab := Function.update t.oftab pos new, files := files } pos with ht'
  have hoftab : t'.oftab = Function.update t.oftab pos new := oftab_cover
  refine ⟨t', files, ?_, halloc, hoftab, files_cover, h.set hpos hoftab ?_⟩
  · unfold oftAdd oftSet
    dsimp only
    rw [← hposdef, oftLookup_eq hpos, Option.bind_some, if_neg hzero, files_cover, halloc,
      Option.map_some, Option.map_some, oftab_cover]
  · rw [ht', openMax_cover]
    change max (t.cover pos).openMax (pos + 1) = _
    rw [openMax_cover, max_assoc, max_self]

/-- **A file is opened.** -/
theorem oftAdd_served (h : t.Kept) (hroom : (used oftSize t.oftab).length < oftSize)
    (hnew : t.files.live new = false) :
    ∃ r t', oftAdd t file new = some (r, t') ∧
      (FdCall.opened file new).Answered t t' r ∧ t'.Kept := by
  obtain ⟨hpos, hfree, -⟩ := findFreeHandle_spec h.bounded (length_used_lt.mp hroom) 0
  have hview : t.view (findFreeHandle t 0) = none := if_pos hfree
  by_cases hzero : new = 0
  · subst hzero
    have hcall := oftAdd_zero h.bounded hroom file
    set pos := findFreeHandle t 0
    refine ⟨_, _, hcall, ⟨pos, hpos, rfl, hview, ?_⟩, ⟨?_, ?_⟩, ?_⟩
    · rw [if_pos rfl]
      unfold DescTable.view
      rw [oftab_cover, files_cover]
    · rw [oftab_cover, files_cover]
      exact h.sound.live
    · rw [oftab_cover, files_cover]
      exact h.sound.count
    · refine h.bounded.set (p := 0) hpos ?_ openMax_cover
      rw [oftab_cover, ← hfree, Function.update_eq_self]
  · obtain ⟨t', files, hcall, halloc, hoftab, hfiles, hbounded⟩ :=
      oftAdd_eq h.bounded hroom hzero hnew file
    set pos := findFreeHandle t 0
    refine ⟨_, _, hcall, ⟨pos, hpos, rfl, hview, ?_⟩,
      h.sound.opened hpos hfree hzero halloc hoftab hfiles, hbounded⟩
    rw [if_neg hzero]
    funext k
    unfold DescTable.view
    rw [hoftab, hfiles]
    by_cases hk : k = pos
    · simp [hk, hzero, Heap.cell_alloc_self halloc]
    · rw [Function.update_of_ne hk, Function.update_of_ne hk]
      by_cases hk0 : t.oftab k = 0
      · rw [if_pos hk0, if_pos hk0]
      · rw [if_neg hk0, if_neg hk0]
        have hlive : t.files.live (t.oftab k) = true := by
          refine (h.sound.live _).mpr (mem_used.mpr ⟨hk0, k, ?_, rfl⟩)
          by_contra hlarge
          exact hk0 (h.bounded.beyond k (h.bounded.bound.trans (not_lt.mp hlarge)))
        rw [(Heap.alloc_live halloc hlive).2.2]

/-- **A descriptor is made from another one**: the lowest that is free. -/
theorem fcntl_served (h : t.Bounded) (hi : i < oftSize) (hne : t.oftab i ≠ 0)
    (hfree : ∃ i < oftSize, t.oftab i = 0) (hj : j ≤ t.openMax) : ∃ k < oftSize,
      (t.oftab k = 0 ∧ ∀ k' < k, t.oftab k' ≠ 0) ∧
        fcntl t i fDupfd j = some ((k : ℤ), t.shared i k) ∧
          (t.shared i k).view = Function.update t.view k (t.view i) := by
  obtain ⟨hpos, hzero, hlow⟩ := findFreeHandle_spec h hfree j
  exact ⟨_, hpos, ⟨hzero, hlow⟩, fcntl_eq h hi hne hfree hj, view_shared t i _⟩

/-- What `dup2` does once it has closed a descriptor that is not the source. -/
theorem dup2_eq (h : t.Bounded) (hi : i < oftSize) (hne : t.oftab i ≠ 0) (hj : j < oftSize)
    (hbusy : t.oftab j ≠ 0) (hij : i ≠ j) : ∃ k ≤ j, (∀ k' < k, t.oftab k' ≠ 0) ∧
      (k = j ∨ t.oftab k = 0) ∧ dup2 t i j = some ((k : ℤ), (t.removed j).shared i k) := by
  have hsource : (t.removed j).oftab i = t.oftab i := Function.update_of_ne hij ..
  have hplace : (t.removed j).oftab j = 0 := Function.update_self ..
  have hcover : j ≤ (t.removed j).openMax := by
    by_contra hlarge
    exact hbusy (h.beyond j (not_le.mp hlarge).le)
  obtain ⟨k, -, ⟨hzero, hlow⟩, hcall, -⟩ := fcntl_served (h.removed j) hi
    (by rw [hsource]; exact hne) ⟨j, hj, hplace⟩ hcover
  have hkj : k ≤ j := not_lt.mp fun hlt => hlow j hlt hplace
  refine ⟨k, hkj, fun k' hk' => ?_, ?_, ?_⟩
  · have hlow' := hlow k' hk'
    rwa [show (t.removed j).oftab k' = t.oftab k' from
      Function.update_of_ne (Nat.ne_of_lt (hk'.trans_le hkj)) ..] at hlow'
  · by_cases hkeq : k = j
    · exact Or.inl hkeq
    · right
      rwa [show (t.removed j).oftab k = t.oftab k from Function.update_of_ne hkeq ..] at hzero
  · unfold dup2
    rw [close_eq hj hbusy, Option.bind_some]
    dsimp only
    rw [if_pos rfl, hcall]

/-- **The calls that are served as they are meant to be** keep what holds between calls. -/
theorem FdCall.Fits.served (h : t.Kept) {c : FdCall δ} (hc : c.Given t) (hfits : c.Fits t) :
    ∃ r t', fdCall t c = some (r, t') ∧ c.Answered t t' r ∧ t'.Kept := by
  cases c with
  | opened file new => exact oftAdd_served h hc.1 hc.2
  | dup i =>
    obtain ⟨⟨hi, hne⟩, hroom⟩ := hc
    obtain ⟨k, hk, ⟨hzero, -⟩, hcall, hview⟩ :=
      fcntl_served h.bounded hi hne (length_used_lt.mp hroom) (Nat.zero_le _)
    exact ⟨_, _, hcall, ⟨k, hk, rfl, if_pos hzero, hview⟩, h.sound.shared hi hne hk hzero,
      h.bounded.shared hk⟩
  | dup2 i j =>
    obtain ⟨⟨hi, hne⟩, hj⟩ := hc
    obtain ⟨hij, ⟨hbusy, hunshared⟩, hlow⟩ := hfits
    obtain ⟨k, hkj, -, hk, hcall⟩ := dup2_eq h.bounded hi hne hj hbusy hij
    obtain rfl : k = j := by
      rcases hk with hk | hk
      · exact hk
      · exact le_antisymm hkj (not_lt.mp fun hlt => hlow k hlt hk)
    have hsource : (t.removed k).oftab i = t.oftab i := Function.update_of_ne hij ..
    have hplace : (t.removed k).oftab k = 0 := Function.update_self ..
    refine ⟨_, _, hcall, ⟨rfl, ?_⟩, ?_, (h.bounded.removed k).shared hj⟩
    · rw [view_shared, view_removed, Function.update_idem, Function.update_of_ne hij]
    · exact (h.sound.removed hj hbusy hunshared).shared hi (by rw [hsource]; exact hne) hj hplace
  | close i =>
    obtain ⟨hi, hne⟩ := hc
    exact ⟨_, _, close_eq hi hne, ⟨rfl, view_removed t i⟩, h.sound.removed hi hne hfits,
      h.bounded.removed i⟩

/-- **Which calls do what they are meant to.** -/
theorem served_iff_fits (h : t.Kept) {c : FdCall δ} (hc : c.Given t) : c.Served t ↔ c.Fits t := by
  refine ⟨?_, fun hfits => ?_⟩
  · rintro ⟨r, t', hcall, hanswer, hsound⟩
    cases c with
    | opened => trivial
    | dup => trivial
    | dup2 i j =>
      obtain ⟨⟨hi, hne⟩, hj⟩ := hc
      obtain ⟨rfl, -⟩ := hanswer
      have hbusy : t.oftab j ≠ 0 := by
        intro hzero
        have hfail : dup2 t i j = some (-1, t) := by
          unfold dup2 close
          rw [oftLookup_eq hj, Option.bind_some, if_pos hzero, Option.bind_some]
          rfl
        obtain ⟨hr, -⟩ := Prod.mk.inj (Option.some.inj (hfail.symm.trans hcall))
        omega
      by_cases hij : i = j
      · -- the source is closed
        subst hij
        have hplace : (t.removed i).oftab i = 0 := Function.update_self ..
        have hfail : dup2 t i i = some (-1, t.removed i) := by
          unfold dup2 fcntl
          rw [close_eq hj hbusy, Option.bind_some]
          dsimp only
          rw [if_pos rfl, if_neg (not_not.mpr rfl), oftLookup_eq hj, Option.bind_some,
            if_pos hplace]
        obtain ⟨hr, -⟩ := Prod.mk.inj (Option.some.inj (hfail.symm.trans hcall))
        omega
      · obtain ⟨k, hkj, hlow, -, hcall'⟩ := dup2_eq h.bounded hi hne hj hbusy hij
        obtain ⟨hr, rfl⟩ := Prod.mk.inj (Option.some.inj (hcall'.symm.trans hcall))
        obtain rfl : k = j := Int.ofNat.inj hr
        refine ⟨hij, ⟨hbusy, fun m hm heq => ?_⟩, hlow⟩
        by_contra hmk
        have hother : ((t.removed k).shared i k).oftab m = t.oftab m :=
          (Function.update_of_ne hmk ..).trans (Function.update_of_ne hmk ..)
        have hnot : ¬ ((t.removed k).shared i k).Sound :=
          not_sound_removed hbusy hm heq hother rfl
        exact hnot hsound
    | close i =>
      obtain ⟨hi, hne⟩ := hc
      obtain ⟨-, rfl⟩ := Prod.mk.inj (Option.some.inj ((close_eq hi hne).symm.trans hcall))
      intro m hm heq
      by_contra hmi
      exact not_sound_removed hne hm heq (Function.update_of_ne hmi ..) rfl hsound
  · obtain ⟨r, t', hcall, hanswer, hkept⟩ := hfits.served h hc
    exact ⟨r, t', hcall, hanswer, hkept.sound⟩

/-! ### Runs -/

/-- A table with nothing open; `cell` is what there is in memory. -/
def noneOpen (cell : ℕ → OpenEnt δ) : DescTable δ where
  oftab _ := 0
  openMax := 0
  files := { cell := cell, live := fun _ => false }

theorem kept_noneOpen (cell : ℕ → OpenEnt δ) : (noneOpen cell).Kept := by
  have hused : used oftSize (noneOpen cell).oftab = [] := by
    refine List.eq_nil_iff_forall_not_mem.mpr fun p hp => ?_
    obtain ⟨hne, _, _, hzero⟩ := mem_used.mp hp
    exact hne hzero.symm
  refine ⟨⟨fun p => ?_, fun p hp => ?_⟩, ⟨Nat.zero_le _, fun _ _ => rfl⟩⟩
  · rw [hused]
    exact iff_of_false Bool.false_ne_true List.not_mem_nil
  · rw [hused] at hp
    cases hp

/-- **When descriptors do what they are meant to.**  In a run of calls on valid descriptors all
calls do, and leave the counts right, if and only if no descriptor is closed that shares its file,
and `dup2` is asked for a descriptor in use that is not its source, shares no file and has only
descriptors in use before it. -/
theorem descriptors_iff (cell : ℕ → OpenEnt δ) (calls : List (FdCall δ))
    (hgiven : Along fdStep (fun t c => c.Given t) (noneOpen cell) calls) :
    Along fdStep (fun t c => c.Served t) (noneOpen cell) calls ↔
      Along fdStep (fun t c => c.Fits t) (noneOpen cell) calls := by
  refine along_congr_of (I := DescTable.Kept) (fun t c h hc => served_iff_fits h hc) ?_ calls
    (noneOpen cell) (kept_noneOpen cell) hgiven
  intro t c t' h hc hfits hstep
  obtain ⟨r, t₁, hcall, -, hkept⟩ := hfits.served h hc
  rw [fdStep, hcall, Option.map_some] at hstep
  exact Option.some.inj hstep ▸ hkept

/-- A file of the first type. -/
def someFile : OpenEnt Unit where
  refCount := 0
  type := 2
  data := ()

/-- A file is opened, and its descriptor made a second time and closed twice. -/
def dupCalls : List (FdCall Unit) := [.opened someFile 1, .opened someFile 2, .dup 1, .close 0]

theorem descriptors_iff_dupCalls :
    Along fdStep (fun t c => c.Served t) (noneOpen fun _ => someFile) dupCalls ↔
      Along fdStep (fun t c => c.Fits t) (noneOpen fun _ => someFile) dupCalls :=
  descriptors_iff (fun _ => someFile) dupCalls (by decide +kernel)

/-- **Closing one of two descriptors of a file** leaves the other one with a file that is freed, and
`dup2` returns the lowest free descriptor instead of the one that it was asked for. -/
theorem descriptors_not_served :
    (Along fdStep (fun t c => c.Given t) (noneOpen fun _ => someFile)
        ([.opened someFile 1, .dup 0] ++ [.close 0]) ∧
      ¬ Along fdStep (fun t c => c.Served t) (noneOpen fun _ => someFile)
        ([.opened someFile 1, .dup 0] ++ [.close 0])) ∧
    (Along fdStep (fun t c => c.Given t) (noneOpen fun _ => someFile)
        ([.opened someFile 1, .opened someFile 2, .opened someFile 3, .close 0] ++ [.dup2 1 2]) ∧
      ¬ Along fdStep (fun t c => c.Served t) (noneOpen fun _ => someFile)
        ([.opened someFile 1, .opened someFile 2, .opened someFile 3, .close 0] ++
          [.dup2 1 2])) := by
  refine ⟨⟨by decide +kernel, fun h => ?_⟩, by decide +kernel, fun h => ?_⟩
  · have hrun : ((run fdStep (noneOpen fun _ => someFile) [.opened someFile 1, .dup 0]).bind
        fun t => (fdCall t (.close 0)).map fun r => (r.2.oftab 1, r.2.files.live 1)) =
          some (1, false) := by
      decide +kernel
    obtain ⟨t, ht, hclose⟩ := Option.bind_eq_some_iff.mp hrun
    obtain ⟨r, t', hcall, -, hsound⟩ := h.at ht
    rw [hcall, Option.map_some] at hclose
    obtain ⟨hone, hdead⟩ := Prod.mk.inj (Option.some.inj hclose)
    have hmem : 1 ∈ used oftSize t'.oftab := mem_used.mpr
      ⟨Nat.one_ne_zero, 1, by decide, hone⟩
    rw [(hsound.live 1).mpr hmem] at hdead
    cases hdead
  · have hrun : ((run fdStep (noneOpen fun _ => someFile)
        [.opened someFile 1, .opened someFile 2, .opened someFile 3, .close 0]).bind fun t =>
          (fdCall t (.dup2 1 2)).map Prod.fst) = some 0 := by
      decide +kernel
    obtain ⟨t, ht, hdup⟩ := Option.bind_eq_some_iff.mp hrun
    obtain ⟨r, t', hcall, ⟨hr, -⟩, -⟩ := h.at ht
    rw [hcall, Option.map_some, hr] at hdup
    cases hdup

end Mungi.Posix
