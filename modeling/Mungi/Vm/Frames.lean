import Mungi.Vm.LinkFields
import Mathlib.Data.Finset.Max
import Mathlib.Data.List.ReduceOption
import Mathlib.Data.List.Range

/-!
# Frames of memory

`vm_init` puts the frames between the boot images and its own tables on a list, and `alloc_frame`
takes them off.  Entries of the frame table are numbered by frames when the list is made, but
counted from `fbase` when a frame is handed out; and what `alloc_frame` takes for the end of the
list is the size of the collision table.

## Main definitions

* `VmBoot`, `vmInit` — the boot images, and what `vm_init` makes of the memory.
* `LinkState.takeFrame`, `LinkState.takeFrames` — one call of `alloc_frame`, and several.
* `VmBoot.FramesExact` — the calls hand out the frames that there are.
* `VmBoot.FramesGo` — the condition.

## Main results

* `takeFrames_eq` — what the calls take off the list.
* `frames_exact_iff` — **when exactly the frames that are free are handed out.**
-/

namespace Mungi

open Runs PageTables

/-! ### The start of the RAM pager -/

/-- `Dit_Phdr`, of a boot image. -/
structure DitPhdr where
  pBase : ℕ
  pSize : ℕ

/-- What the RAM pager finds at boot. -/
structure VmBoot where
  mem : VmMemory
  /-- `dhdr` -/
  dhdr : ℕ
  /-- `k` -/
  kinfo : ℕ
  /-- The first image; the others are `phdrs`. -/
  first : DitPhdr
  phdrs : List DitPhdr
  /-- `p_base` of the image `mungi.kernel`. -/
  kernelBase : ℕ

namespace VmBoot

variable (b : VmBoot)

/-- `fbase` -/
def fbase : ℕ := b.first.pBase / 2 ^ 12

/-- `PF2IND`, in an `uintptr_t`. -/
def pf2ind (x : ℕ) : ℕ := (x + 2 ^ 64 - b.fbase % 2 ^ 64) % 2 ^ 64

/-- `IND2PF`, returned as an `unsigned int`. -/
def ind2pf (x : ℕ) : ℕ := (x + b.fbase) % 2 ^ 32

end VmBoot

namespace LinkState

variable (t : VmSizes) (s : LinkState)

/-- `pte = add_pte(frame, frame, mode); ftable[pte->up.framenum].osrsrvd = OSRSRVD` -/
def addReserved (f : ℕ × ℕ) : Option LinkState :=
  (addPte t s.tables f.1 f.1 f.2).bind fun r =>
    r.1.bind fun pte => (r.2.read pte).map fun u =>
      { s with tables := r.2, osrsrvd := Function.update s.osrsrvd u.framenum 1 }

/-- The inner loop of `ftable_init`: the entries of the image are reserved.  None when there are
no such entries. -/
def reserveImage (b : VmBoot) (p : DitPhdr) : Option LinkState :=
  let i := b.pf2ind (p.pBase / 2 ^ 12) % 2 ^ 32
  let ff := b.pf2ind ((p.pBase + p.pSize) / 2 ^ 12)
  if t.maxFtable < ff ∧ i < ff then none
  else some { s with osrsrvd := fun j => if i ≤ j ∧ j < ff then 1 else s.osrsrvd j }

/-- The loop of `ftable_init` over its own frames. -/
def reserveTables (dsSize : ℕ) : LinkState :=
  { s with
    osrsrvd := fun j => if t.maxFtable - dsSize ≤ j ∧ j < t.maxFtable then 1 else s.osrsrvd j }

end LinkState

/-- The frames that `ptable_init` enters: the header of the images, the images from the kernel's
on, and the kernel information page. -/
def VmBoot.imageFrames (b : VmBoot) : List (ℕ × ℕ) :=
  (b.dhdr / 2 ^ 12, 0) ::
    ((List.range' (b.kernelBase / 2 ^ 12) (b.mem.memBot / 2 ^ 12 - b.kernelBase / 2 ^ 12)).map
      fun f => (f, 1)) ++ [(b.kinfo / 2 ^ 12, 1)]

/-- The frames that `vm_init` enters last, those of the tables. -/
def VmBoot.tableFrames (b : VmBoot) : List (ℕ × ℕ) :=
  (List.range' (b.mem.memTop / 2 ^ 12 - b.mem.dsSize) b.mem.dsSize).map fun f => (f, 1)

/-- `vm_init`, over memory with anything in it. -/
def vmInit (b : VmBoot) (page : ℕ → UsedPage) (locked : ℕ → Bool) (dirty freelist osrsrvd : ℕ → ℕ) :
    Option LinkState :=
  let t := b.mem.sizes
  (run (LinkState.addReserved t)
    ⟨ptableInit t page locked dirty, fun i => freelist i % 2 ^ 20, osrsrvd, 0, 0⟩
    b.imageFrames).bind fun s =>
      (run (fun s p => s.reserveImage t b p) s (b.first :: b.phdrs)).bind fun s =>
        run (LinkState.addReserved t)
          ((ftableInit b.mem s.tables s.freelist s.osrsrvd).reserveTables t b.mem.dsSize)
          b.tableFrames

/-! ### Taking frames -/

namespace LinkState

variable (t : VmSizes) (s : LinkState)

/-- `alloc_frame`: the entry it takes off the list, if there is one. -/
def takeFrame (c : ℕ × ℕ) : Option (Option ℕ × LinkState) :=
  (s.allocFrameFrom t (t.maxFtable + 1) s.front).bind fun r =>
    (s.allocFrame t c.1 c.2).map fun s => (r.1, s)

/-- Successive calls of `alloc_frame`. -/
def takeFrames : LinkState → List (ℕ × ℕ) → Option (List (Option ℕ))
  | _, [] => some []
  | s, c :: calls =>
    (s.takeFrame t c).bind fun r => (takeFrames r.2 calls).map fun taken => r.1 :: taken

end LinkState

namespace VmBoot

variable (b : VmBoot) (s : LinkState)

/-- The frame numbers returned. -/
def numbers (taken : List (Option ℕ)) : List ℕ := taken.reduceOption.map b.ind2pf

/-- A frame above the boot images and below the tables that is not reserved. -/
def FreeFrame (f : ℕ) : Prop :=
  b.mem.memBot ≤ 2 ^ 12 * f ∧ (2 ^ 12 * (f + 1) : ℤ) ≤ b.mem.ppftable ∧ s.osrsrvd f = 0

/-- **Exactly the free frames are handed out**: all calls return, no number twice and only those of
free frames, all of them before the list has run out, and the value that says so is no entry that
was on the list. -/
def FramesExact : Prop :=
  ∀ calls, ∃ taken, s.takeFrames b.mem.sizes calls = some taken ∧
    (b.numbers taken).Nodup ∧ (∀ f ∈ b.numbers taken, b.FreeFrame s f) ∧
      (∀ earlier later, taken = earlier ++ none :: later →
        ∀ f, b.FreeFrame s f → f ∈ b.numbers earlier) ∧
          some b.mem.sizes.maxCtable ∉ taken

/-- An entry of the list that will not be passed over. -/
def Listed (i : ℕ) : Prop :=
  b.mem.memBot / 2 ^ 12 ≤ i ∧ i < b.mem.sizes.maxFtable - b.mem.dsSize ∧ s.osrsrvd i = 0

/-- **The condition**: the links are wide enough, and unless nothing is on the list, entries are
counted from 0, and all that are listed are free frames whose number is not the end marker of the
collision table. -/
def FramesGo : Prop :=
  b.mem.sizes.frames < 2 ^ 20 ∧
    ∀ i, b.Listed s i → b.fbase % 2 ^ 32 = 0 ∧ b.FreeFrame s i ∧ i ≠ b.mem.sizes.maxCtable

/-- The layouts that `vm_init` is for: the tables are above the images, with an entry for each
frame. -/
structure Accepted : Prop where
  laidOut : b.mem.LaidOut
  whole : b.mem.sizes.maxFtable = b.mem.sizes.frames

end VmBoot

/-! ### What `vm_init` leaves -/

section Start
variable {b : VmBoot} {t : VmSizes} {s s' : LinkState}

/-- Entries get reserved, and the list stays. -/
structure LinkState.Reserves (s s' : LinkState) : Prop where
  freelist : s'.freelist = s.freelist
  front : s'.front = s.front
  osrsrvd : ∀ i, s.osrsrvd i ≠ 0 → s'.osrsrvd i ≠ 0

theorem LinkState.Reserves.addReserved {s₀ : LinkState} (h : s₀.Reserves s) {f : ℕ × ℕ}
    (hs : s.addReserved t f = some s') : s₀.Reserves s' := by
  obtain ⟨r, -, hs⟩ := Option.bind_eq_some_iff.mp hs
  obtain ⟨pte, -, hs⟩ := Option.bind_eq_some_iff.mp hs
  obtain ⟨u, -, rfl⟩ := Option.map_eq_some_iff.mp hs
  refine ⟨h.freelist, h.front, fun i hi => ?_⟩
  dsimp only
  rw [Function.update_apply]
  split_ifs
  · exact one_ne_zero
  · exact h.osrsrvd i hi

/-- The list from `i` on: each entry leads to the next one, or to the end, and those of the tables
are reserved. -/
structure VmBoot.Ready (b : VmBoot) (s : LinkState) (i : ℕ) : Prop where
  /-- A link has 20 bits. -/
  links : ∀ j, s.freelist j < 2 ^ 20
  next : ∀ j, i ≤ j → j < b.mem.sizes.maxFtable → s.freelist j =
    if j = (b.mem.sizes.maxFtable - (b.mem.dsSize + 1)) % 2 ^ 31 ∨ j + 1 = b.mem.sizes.maxFtable
    then b.mem.sizes.maxFtable % 2 ^ 20 else (j + 1) % 2 ^ 20
  reserved : ∀ j, i ≤ j → b.mem.sizes.maxFtable - b.mem.dsSize ≤ j →
    j < b.mem.sizes.maxFtable → s.osrsrvd j ≠ 0

theorem run_addReserved {l : List (ℕ × ℕ)} (h : run (LinkState.addReserved t) s l = some s') :
    s.Reserves s' :=
  run_invariant ⟨rfl, rfl, fun _ => id⟩ (fun _ _ _ hk hs => hk.addReserved hs) h

/-- The images have no entries on the list. -/
theorem run_reserveImage {l : List DitPhdr}
    (h : run (fun (s : LinkState) p => s.reserveImage t b p) s l = some s') :
    s'.freelist = s.freelist := by
  let I : LinkState → Prop := fun r => r.freelist = s.freelist
  have hstart : I s := rfl
  refine run_invariant hstart (fun r p r' hr hs => ?_) h
  dsimp only [LinkState.reserveImage] at hs
  split_ifs at hs
  obtain rfl := Option.some.inj hs
  exact hr

theorem VmBoot.Ready.mono {i j : ℕ} (h : b.Ready s i) (hij : i ≤ j) : b.Ready s j :=
  ⟨h.links, fun l hl => h.next l (hij.trans hl), fun l hl => h.reserved l (hij.trans hl)⟩

/-- **The list that `vm_init` leaves.** -/
theorem vmInit_ready {page : ℕ → UsedPage} {locked : ℕ → Bool} {dirty freelist osrsrvd : ℕ → ℕ}
    (h : vmInit b page locked dirty freelist osrsrvd = some s) :
    s.front = b.mem.memBot / 2 ^ 12 % 2 ^ 31 ∧ b.Ready s (b.mem.memBot / 2 ^ 12) := by
  obtain ⟨s₁, h₁, h⟩ := Option.bind_eq_some_iff.mp h
  obtain ⟨s₂, h₂, h⟩ := Option.bind_eq_some_iff.mp h
  have hold : ∀ j, s₂.freelist j < 2 ^ 20 := fun j => by
    rw [run_reserveImage h₂, (run_addReserved h₁).freelist]
    exact Nat.mod_lt _ (by decide)
  set made := (ftableInit b.mem s₂.tables s₂.freelist s₂.osrsrvd).reserveTables b.mem.sizes
    b.mem.dsSize
  have hkept : made.Reserves s := run_addReserved h
  refine ⟨hkept.front, fun i => ?_, fun i hbot hlt => ?_,
    fun i _ hlow hlt => hkept.osrsrvd i ?_⟩
  · rw [hkept.freelist]
    dsimp only [made, LinkState.reserveTables, ftableInit]
    rw [Function.update_apply]
    split_ifs
    · exact Nat.mod_lt _ (by decide)
    · exact Nat.mod_lt _ (by decide)
    · exact Nat.mod_lt _ (by decide)
    · exact hold i
  · have hin : b.mem.memBot / 2 ^ 12 ≤ i ∧ i < b.mem.sizes.maxFtable := ⟨hbot, hlt⟩
    rw [hkept.freelist]
    dsimp only [made, LinkState.reserveTables, ftableInit]
    rw [Function.update_apply, if_pos hin, ← ite_or]
  · dsimp only [made, LinkState.reserveTables]
    rw [if_pos ⟨hlow, hlt⟩]
    exact one_ne_zero

end Start

/-! ### What the calls take -/

section Calls
variable {b : VmBoot} {s s' : LinkState} {i : ℕ}

/-- The entries that are still to be taken, from `i` on. -/
def VmBoot.rest (b : VmBoot) (s : LinkState) (i : ℕ) : List ℕ :=
  (List.range' i (b.mem.sizes.maxFtable - b.mem.dsSize - i)).filter fun j => s.osrsrvd j = 0

theorem mem_rest {j : ℕ} : j ∈ b.rest s i ↔
    i ≤ j ∧ j < b.mem.sizes.maxFtable - b.mem.dsSize ∧ s.osrsrvd j = 0 := by
  unfold VmBoot.rest
  rw [List.mem_filter, List.mem_range'_1, decide_eq_true_eq]
  constructor
  · rintro ⟨⟨hi, hlt⟩, hfree⟩
    exact ⟨hi, by omega, hfree⟩
  · rintro ⟨hi, hlt, hfree⟩
    exact ⟨⟨hi, by omega⟩, hfree⟩

/-- An entry is passed over, or it is the next one to be taken. -/
theorem rest_of_lt (hi : i < b.mem.sizes.maxFtable - b.mem.dsSize) : b.rest s i =
    if s.osrsrvd i = 0 then i :: b.rest s (i + 1) else b.rest s (i + 1) := by
  unfold VmBoot.rest
  obtain ⟨n, hn⟩ : ∃ n, b.mem.sizes.maxFtable - b.mem.dsSize - i = n + 1 :=
    Nat.exists_eq_succ_of_ne_zero (by omega)
  have hrest : b.mem.sizes.maxFtable - b.mem.dsSize - (i + 1) = n := by omega
  rw [hn, hrest, List.range'_succ, List.filter_cons]
  simp only [decide_eq_true_eq]

theorem rest_of_le (hi : b.mem.sizes.maxFtable - b.mem.dsSize ≤ i) : b.rest s i = [] := by
  unfold VmBoot.rest
  rw [Nat.sub_eq_zero_of_le hi]
  rfl

/-- What is taken is taken for good: the entries from `i` on do not depend on those before. -/
theorem rest_congr (h : ∀ j, i ≤ j → j < b.mem.sizes.maxFtable → s'.osrsrvd j = s.osrsrvd j) :
    b.rest s' i = b.rest s i := by
  refine List.filter_congr fun j hj => ?_
  rw [List.mem_range'_1] at hj
  rw [h j hj.1 (by omega)]

/-- **How far `alloc_frame_off_list` comes**: to the first entry that is not reserved. -/
theorem allocFrameFrom_eq (hwhole : b.mem.sizes.maxFtable < 2 ^ 20) :
    ∀ fuel i, b.Ready s i → i ≤ b.mem.sizes.maxFtable →
      b.mem.sizes.maxFtable - i < fuel → ∃ front, i ≤ front ∧ front ≤ b.mem.sizes.maxFtable ∧
        s.allocFrameFrom b.mem.sizes fuel i = some ((b.rest s i).head?, front) ∧
          b.rest s front = (b.rest s i).tail ∧
            (∀ j, (b.rest s i).head? = some j → j < front) ∧
              ((b.rest s i).head? = none → front = b.mem.sizes.maxFtable) := by
  intro fuel
  induction fuel with
  | zero => omega
  | succ fuel ih =>
    intro i h hle hfuel
    rw [LinkState.allocFrameFrom]
    by_cases hend : i = b.mem.sizes.maxFtable
    · have hempty : b.rest s i = [] := rest_of_le (by omega)
      rw [if_pos hend, hempty]
      refine ⟨i, le_rfl, hle, rfl, hempty, ?_, fun _ => hend⟩
      rintro j ⟨⟩
    have hlt : i < b.mem.sizes.maxFtable := by omega
    rw [if_neg hend, if_neg (by omega)]
    -- the next entry of the list, or its end
    obtain ⟨hnext, hle', hsame⟩ : i < s.freelist i ∧ s.freelist i ≤ b.mem.sizes.maxFtable ∧
        b.rest s (s.freelist i) = b.rest s (i + 1) := by
      rw [h.next i le_rfl hlt]
      split_ifs with hlast
      · rw [Nat.mod_eq_of_lt hwhole]
        refine ⟨hlt, le_rfl, ?_⟩
        rw [rest_of_le (Nat.sub_le _ _), rest_of_le (by omega)]
      · rw [Nat.mod_eq_of_lt (by omega)]
        exact ⟨by omega, by omega, rfl⟩
    by_cases hfree : s.osrsrvd i = 0
    · have hlisted : i < b.mem.sizes.maxFtable - b.mem.dsSize := by
        by_contra hge
        exact h.reserved i le_rfl (by omega) hlt hfree
      rw [if_neg (not_not.mpr hfree), rest_of_lt hlisted, if_pos hfree]
      refine ⟨s.freelist i, by omega, hle', rfl, hsame, ?_, ?_⟩
      · rintro j hj
        rwa [← Option.some.inj hj]
      · rintro ⟨⟩
    · rw [if_pos hfree]
      obtain ⟨front, hfront, hmax, heq, htail, hhead, hnone⟩ :=
        ih (s.freelist i) (h.mono (by omega)) hle' (by omega)
      have hskip : b.rest s i = b.rest s (s.freelist i) := by
        rw [hsame]
        by_cases hlisted : i < b.mem.sizes.maxFtable - b.mem.dsSize
        · rw [rest_of_lt hlisted, if_neg hfree]
        · rw [rest_of_le (by omega), rest_of_le (by omega)]
      rw [hskip]
      exact ⟨front, by omega, hmax, heq, htail, hhead, hnone⟩

/-- What one call takes. -/
theorem takeFrame_eq (hwhole : b.mem.sizes.maxFtable < 2 ^ 20) (h : b.Ready s s.front)
    (hle : s.front ≤ b.mem.sizes.maxFtable) (c : ℕ × ℕ) : ∃ s',
      s.takeFrame b.mem.sizes c = some ((b.rest s s.front).head?, s') ∧ b.Ready s' s'.front ∧
        s'.front ≤ b.mem.sizes.maxFtable ∧ b.rest s' s'.front = (b.rest s s.front).tail := by
  obtain ⟨front, hfront, hmax, heq, htail, hhead, hnone⟩ :=
    allocFrameFrom_eq hwhole (b.mem.sizes.maxFtable + 1) s.front h hle (by omega)
  unfold LinkState.takeFrame LinkState.allocFrame
  rw [heq]
  refine ⟨_, rfl, ?_⟩
  dsimp only
  -- the entry that is written to is not on the list any more
  have hsame : ∀ j, front ≤ j → j < b.mem.sizes.maxFtable →
      Function.update s.osrsrvd ((b.rest s s.front).head?.getD b.mem.sizes.maxCtable) (c.1 % 2) j
        = s.osrsrvd j := by
    intro j hj hlt
    refine Function.update_of_ne ?_ ..
    rintro rfl
    cases hd : (b.rest s s.front).head? with
    | none =>
      have := hnone hd
      omega
    | some i =>
      rw [hd, Option.getD_some] at hj
      have := hhead i hd
      omega
  refine ⟨⟨h.links, fun j hj hlt => h.next j (hfront.trans hj) hlt, fun j hj hlow hlt => ?_⟩, hmax,
    ?_⟩
  · dsimp only
    rw [hsame j hj hlt]
    exact h.reserved j (hfront.trans hj) hlow hlt
  · rw [← htail]
    exact rest_congr hsame

/-- **What the calls take**: one entry of the list after the other. -/
theorem takeFrames_eq (hwhole : b.mem.sizes.maxFtable < 2 ^ 20) (calls : List (ℕ × ℕ)) :
    ∀ s : LinkState, b.Ready s s.front → s.front ≤ b.mem.sizes.maxFtable →
      s.takeFrames b.mem.sizes calls =
        some ((List.range calls.length).map fun k => (b.rest s s.front)[k]?) := by
  induction calls with
  | nil =>
    intro s _ _
    rfl
  | cons c calls ih =>
    intro s h hle
    obtain ⟨s', hs', h', hle', htail⟩ := takeFrame_eq hwhole h hle c
    rw [LinkState.takeFrames, hs', Option.bind_some, ih s' h' hle', htail, Option.map_some,
      List.length_cons, List.range_succ_eq_map, List.map_cons, List.map_map,
      List.head?_eq_getElem?]
    simp only [Function.comp_def, List.getElem?_tail]

/-- A link leads to no end marker that its field does not hold. -/
theorem allocFrameFrom_of_wide {t : VmSizes} (hwide : 2 ^ 20 ≤ t.maxFtable)
    (hlinks : ∀ i, s.freelist i < 2 ^ 20) : ∀ fuel i r, i < t.maxFtable →
      s.allocFrameFrom t fuel i = some r →
        ∃ j, j < t.maxFtable ∧ s.osrsrvd j = 0 ∧ r = (some j, s.freelist j) := by
  intro fuel
  induction fuel with
  | zero =>
    intro i r _ h
    cases h
  | succ fuel ih =>
    intro i r hi h
    rw [LinkState.allocFrameFrom, if_neg (by omega), if_neg (by omega)] at h
    split_ifs at h with hreserved
    · exact ih _ r ((hlinks i).trans_le hwide) h
    · exact ⟨i, hi, not_not.mp hreserved, (Option.some.inj h).symm⟩

/-- The entries that are not reserved. -/
def LinkState.unreserved (t : VmSizes) (s : LinkState) : Finset ℕ :=
  (Finset.range t.maxFtable).filter fun i => s.osrsrvd i = 0

/-- **The calls come to an end** when each reserves what it takes and the list has none. -/
theorem length_le_of_wide {t : VmSizes} (hwide : 2 ^ 20 ≤ t.maxFtable) (n : ℕ) :
    ∀ {s : LinkState} {taken : List (Option ℕ)}, (∀ i, s.freelist i < 2 ^ 20) →
      s.front < t.maxFtable → s.takeFrames t (List.replicate n (1, 0)) = some taken →
        n ≤ (s.unreserved t).card := by
  induction n with
  | zero =>
    intro s taken _ _ _
    exact Nat.zero_le _
  | succ n ih =>
    intro s taken hlinks hfront h
    obtain ⟨r, hr, h⟩ := Option.bind_eq_some_iff.mp h
    obtain ⟨rest, hrest, -⟩ := Option.map_eq_some_iff.mp h
    obtain ⟨q, hq, hr⟩ := Option.bind_eq_some_iff.mp hr
    obtain ⟨s', hs', rfl⟩ := Option.map_eq_some_iff.mp hr
    obtain ⟨j, hj, hfree, rfl⟩ := allocFrameFrom_of_wide hwide hlinks _ _ _ hfront hq
    unfold LinkState.allocFrame at hs'
    rw [hq] at hs'
    obtain rfl := Option.some.inj hs'
    refine Nat.succ_le_of_lt ((ih ?_ ?_ hrest).trans_lt (Finset.card_lt_card ?_))
    · exact hlinks
    · exact (hlinks j).trans_le hwide
    refine Finset.ssubset_iff_of_subset (fun i hi => ?_) |>.mpr ⟨j, ?_, ?_⟩
    · -- nothing is given back
      unfold LinkState.unreserved at hi ⊢
      rw [Finset.mem_filter] at hi ⊢
      refine ⟨hi.1, ?_⟩
      have hi' := hi.2
      dsimp only [Option.getD_some] at hi'
      rw [Function.update_apply] at hi'
      split_ifs at hi'
      exact hi'
    · exact Finset.mem_filter.mpr ⟨Finset.mem_range.mpr hj, hfree⟩
    · intro hmem
      have hzero := (Finset.mem_filter.mp hmem).2
      dsimp only [Option.getD_some] at hzero
      rw [Function.update_self] at hzero
      cases hzero

end Calls

/-! ### The frames that are free -/

section Free
variable {b : VmBoot} {s : LinkState} {i f : ℕ}

/-- What the tables are placed by. -/
theorem VmBoot.Accepted.places (h : b.Accepted) :
    b.mem.memBot / 2 ^ 12 < b.mem.sizes.maxFtable ∧ b.mem.sizes.maxFtable < 2 ^ 29 ∧
      (∀ i, i < b.mem.sizes.maxFtable - b.mem.dsSize →
        (2 ^ 12 * (i + 1) : ℤ) ≤ b.mem.ppftable) ∧
          ∀ i : ℕ, (2 ^ 12 * (i + 1) : ℤ) ≤ b.mem.ppftable → i < b.mem.sizes.maxFtable := by
  have habove := h.laidOut.above
  have hfewer := h.laidOut.fewer
  have hwhole := h.whole
  have hframes : b.mem.sizes.frames = b.mem.memTop / 2 ^ 12 := rfl
  have hsmall : b.mem.sizes.maxFtable < 2 ^ 29 := by
    unfold VmSizes.maxFtable VmSizes.ftableSize
    omega
  have hplace : b.mem.ppftable + 81920 ≤ b.mem.memTop ∧
      b.mem.memTop ≤ b.mem.ppftable + 2 ^ 34 := by
    unfold VmMemory.ppftable VmMemory.ftable VmMemory.ctable VmMemory.ptable maxPf
      VmSizes.ptableSize VmSizes.ctableSize VmSizes.ftableSize
    omega
  have hds : b.mem.memTop - b.mem.ppftable ≤ 2 ^ 12 * (b.mem.dsSize : ℤ) := by
    unfold VmMemory.dsSize
    omega
  refine ⟨by omega, hsmall, fun i hi => by omega, fun i hi => by omega⟩

/-- A free frame is on the list. -/
theorem VmBoot.FreeFrame.listed (h : b.FreeFrame s f) (hacc : b.Accepted)
    (hready : b.Ready s (b.mem.memBot / 2 ^ 12)) : b.Listed s f := by
  obtain ⟨hlow, hhigh, hfree⟩ := h
  refine ⟨by omega, ?_, hfree⟩
  by_contra hge
  exact hready.reserved f (by omega) (by omega) (hacc.places.2.2.2 f hhigh) hfree

/-- Numbers that are all on a list again are not moved. -/
theorem shift_eq_zero {l : List ℕ} {d : ℕ} (hne : l ≠ []) (hsmall : ∀ i ∈ l, i < 2 ^ 20)
    (hshift : ∀ i ∈ l, (i + d) % 2 ^ 32 ∈ l) : d % 2 ^ 32 = 0 := by
  obtain ⟨a, ha⟩ := List.exists_mem_of_ne_nil l hne
  by_contra hd
  by_cases hup : d % 2 ^ 32 < 2 ^ 20
  · -- the largest one would be moved up
    obtain ⟨m, hm, hmax⟩ := l.toFinset.exists_max_image id ⟨a, List.mem_toFinset.mpr ha⟩
    rw [List.mem_toFinset] at hm
    have hle := hmax _ (List.mem_toFinset.mpr (hshift m hm))
    have hlt := hsmall m hm
    dsimp only [id] at hle
    omega
  · -- the smallest one would be moved down
    obtain ⟨m, hm, hmin⟩ := l.toFinset.exists_min_image id ⟨a, List.mem_toFinset.mpr ha⟩
    rw [List.mem_toFinset] at hm
    have hle := hmin _ (List.mem_toFinset.mpr (hshift m hm))
    have hlt := hsmall m hm
    have hlt' := hsmall _ (hshift m hm)
    dsimp only [id] at hle
    omega

/-- The links are wide enough when all calls return. -/
theorem VmBoot.FramesExact.narrow (h : b.FramesExact s) (hfront : s.front < b.mem.sizes.maxFtable)
    (hlinks : ∀ i, s.freelist i < 2 ^ 20) : b.mem.sizes.maxFtable < 2 ^ 20 := by
  by_contra hwide
  obtain ⟨taken, htaken, -⟩ := h (List.replicate (b.mem.sizes.maxFtable + 1) (1, 0))
  have hle := length_le_of_wide (Nat.not_lt.mp hwide) _ hlinks hfront htaken
  have hcard := (Finset.card_filter_le (Finset.range b.mem.sizes.maxFtable)
    fun i => s.osrsrvd i = 0)
  rw [Finset.card_range] at hcard
  exact absurd (hle.trans hcard) (by omega)

/-- The entries that calls took. -/
theorem reduceOption_range (l : List ℕ) (n : ℕ) :
    ((List.range n).map fun k => l[k]?).reduceOption = l.take n := by
  induction n generalizing l with
  | zero => rfl
  | succ n ih =>
    rw [List.range_succ_eq_map, List.map_cons, List.map_map]
    cases l with
    | nil =>
      rw [List.getElem?_nil, List.reduceOption_cons_of_none, List.take_nil]
      simp [Function.comp_def]
    | cons a l =>
      rw [List.getElem?_cons_zero, List.reduceOption_cons_of_some, List.take_succ_cons]
      simpa [Function.comp_def] using ih l

/-- What was taken before the list ran out is all that was on it. -/
theorem take_of_none {l : List ℕ} {n : ℕ} {earlier later : List (Option ℕ)}
    (h : ((List.range n).map fun k => l[k]?) = earlier ++ none :: later) :
    earlier.reduceOption = l := by
  have hlen : earlier.length < n := by
    have := congrArg List.length h
    simp at this
    omega
  have hnone : l[earlier.length]? = none := by
    have hat := congrArg (fun l => l[earlier.length]?) h
    simpa [hlen] using hat
  have hearlier : earlier = (List.range earlier.length).map fun k => l[k]? := by
    have htake := congrArg (List.take earlier.length) h
    rw [← List.map_take, List.take_range, Nat.min_eq_left hlen.le, List.take_left] at htake
    exact htake.symm
  rw [hearlier, reduceOption_range]
  exact List.take_of_length_le (List.getElem?_eq_none_iff.mp hnone)

end Free

/-! ### Exactness -/

/-- **When exactly the frames that are free are handed out.** -/
theorem frames_exact_iff (b : VmBoot) (hacc : b.Accepted) (page : ℕ → UsedPage) (locked : ℕ → Bool)
    (dirty freelist osrsrvd : ℕ → ℕ) (s : LinkState)
    (hs : vmInit b page locked dirty freelist osrsrvd = some s) :
    b.FramesExact s ↔ b.FramesGo s := by
  obtain ⟨hfront, hready⟩ := vmInit_ready hs
  obtain ⟨hbot, hmax, hbelow, -⟩ := hacc.places
  have hwhole := hacc.whole
  rw [Nat.mod_eq_of_lt (by omega)] at hfront
  have hready' : b.Ready s s.front := by rwa [hfront]
  have hmem : ∀ i, i ∈ b.rest s s.front ↔ b.Listed s i := fun i => by
    rw [mem_rest, hfront]
    exact Iff.rfl
  have hlisted : ∀ f, b.FreeFrame s f → f ∈ b.rest s s.front := fun f hf =>
    (hmem f).mpr (hf.listed hacc hready)
  constructor
  · intro h
    have hnarrow := h.narrow (by omega) hready.links
    refine ⟨by omega, fun i hi => ?_⟩
    obtain ⟨taken, htaken, -, hfree, -, hend⟩ :=
      h (List.replicate (b.rest s s.front).length (0, 0))
    rw [takeFrames_eq hnarrow _ s hready' (by omega), Option.some.injEq,
      List.length_replicate] at htaken
    have hnumbers : b.numbers taken = (b.rest s s.front).map b.ind2pf := by
      unfold VmBoot.numbers
      rw [← htaken, reduceOption_range, List.take_length]
    rw [hnumbers] at hfree
    have hnumber : ∀ j ∈ b.rest s s.front, b.FreeFrame s (b.ind2pf j) := fun j hj =>
      hfree _ (List.mem_map_of_mem hj)
    have hsmall : ∀ j ∈ b.rest s s.front, j < 2 ^ 20 := by
      intro j hj
      have := ((hmem j).mp hj).2.1
      omega
    have hmemi := (hmem i).mpr hi
    have hzero : b.fbase % 2 ^ 32 = 0 := shift_eq_zero (List.ne_nil_of_mem hmemi) hsmall
      fun j hj => hlisted _ (hnumber j hj)
    have hsame : b.ind2pf i = i := by
      have := hsmall i hmemi
      unfold VmBoot.ind2pf
      omega
    refine ⟨hzero, hsame ▸ hnumber i hmemi, ?_⟩
    rintro rfl
    refine hend ?_
    rw [← htaken]
    obtain ⟨k, hk, hget⟩ := List.getElem_of_mem hmemi
    exact List.mem_map.mpr ⟨k, List.mem_range.mpr hk, by rw [← hget, List.getElem?_eq_getElem hk]⟩
  · rintro ⟨hframes, hgo⟩ calls
    have hnarrow : b.mem.sizes.maxFtable < 2 ^ 20 := by omega
    refine ⟨_, takeFrames_eq hnarrow calls s hready' (by omega), ?_⟩
    have hsame : (b.rest s s.front).map b.ind2pf = b.rest s s.front := by
      refine (List.map_congr_left fun i hi => ?_).trans (List.map_id _)
      have hi' := (hmem i).mp hi
      have hzero := (hgo i hi').1
      have := hi'.2.1
      unfold VmBoot.ind2pf
      dsimp only [id]
      omega
    have hnumbers : ∀ n, b.numbers ((List.range n).map fun k => (b.rest s s.front)[k]?)
        = (b.rest s s.front).take n := by
      intro n
      unfold VmBoot.numbers
      rw [reduceOption_range, List.map_take, hsame]
    rw [hnumbers]
    refine ⟨?_, fun f hf => ?_, fun earlier later heq f hf => ?_, fun hend => ?_⟩
    · exact ((List.nodup_range' 1).filter _).sublist (List.take_sublist _ _)
    · exact (hgo f ((hmem f).mp (List.mem_of_mem_take hf))).2.1
    · unfold VmBoot.numbers
      rw [take_of_none heq, hsame]
      exact hlisted f hf
    · obtain ⟨k, -, hk⟩ := List.mem_map.mp hend
      have hlast := (hmem _).mp (List.mem_of_getElem? hk)
      exact (hgo _ hlast).2.2 rfl

/-- Memory without anything in it. -/
def vmInitClear (b : VmBoot) : Option LinkState :=
  vmInit b (fun _ => ⟨0, 0, 0, 0⟩) (fun _ => false) (fun _ => 0) (fun _ => 0) fun _ => 0

/-- 64 frames, the first 17 of them with the images. -/
def boot64 : VmBoot := ⟨⟨2 ^ 18, 17 * 2 ^ 12, false⟩, 0x1000, 0, ⟨0, 0x4000⟩, [⟨0x4000, 0xd000⟩],
  0x4000⟩

theorem boot64_accepted : boot64.Accepted := ⟨⟨by decide +kernel, by decide +kernel⟩, by decide⟩

theorem frames_exact_iff_boot64 : ∃ s, vmInitClear boot64 = some s ∧ boot64.FramesExact s := by
  have hsome : (vmInitClear boot64).isSome := by decide +kernel
  obtain ⟨s, hs⟩ := Option.isSome_iff_exists.mp hsome
  refine ⟨s, hs, (frames_exact_iff boot64 boot64_accepted _ _ _ _ _ s hs).mpr ⟨by decide, ?_⟩⟩
  rintro i ⟨hlow, hhigh, hfree⟩
  have hbot : boot64.mem.memBot = 17 * 2 ^ 12 := rfl
  have hcoll : boot64.mem.sizes.maxCtable = 16 := by decide
  exact ⟨by decide, ⟨by omega, boot64_accepted.places.2.2.1 i hhigh, hfree⟩, by omega⟩

/-- The same, but the first image is in frame 1. -/
def bootShifted : VmBoot := { boot64 with first := ⟨0x1000, 0x3000⟩ }

/-- **A frame of the tables is handed out**: counted from the first image's frame, the last of the
list has the number of the one above it. -/
theorem frames_not_exact : ¬ ∀ (b : VmBoot), b.Accepted →
    ∀ (page : ℕ → UsedPage) (locked : ℕ → Bool) (dirty freelist osrsrvd : ℕ → ℕ) (s : LinkState),
      vmInit b page locked dirty freelist osrsrvd = some s → b.FramesExact s := by
  intro h
  have hrun : (vmInitClear bootShifted).map (fun s =>
      (s.takeFrames bootShifted.mem.sizes (List.replicate 25 (0, 0))).map bootShifted.numbers)
        = some (some (List.range' 18 25)) := by
    decide +kernel
  obtain ⟨s, hs, htaken⟩ := Option.map_eq_some_iff.mp hrun
  obtain ⟨taken, htaken, hnumbers⟩ := Option.map_eq_some_iff.mp htaken
  obtain ⟨taken', htaken', -, hfree, -⟩ := h bootShifted
    ⟨boot64_accepted.laidOut, boot64_accepted.whole⟩ _ _ _ _ _ s hs
    (List.replicate 25 (0, 0))
  obtain rfl := Option.some.inj (htaken.symm.trans htaken')
  rw [hnumbers] at hfree
  have hbelow := (hfree 42 (by decide)).2.1
  exact absurd hbelow (by decide)

end Mungi
