import Mungi.ApdSlots

/-!
# The slots as a list

The slots in use are those below `n_apd`, and a validation looks at no others
(`do_validate_obj`).  So a Clist that is inserted should make them one more, and one that is
merged in for a PDX call should be among them.

## Main definitions

* `ApdDesc.slots` — the slots in use.
* `Inserted`, `Merged` — what `apd_slot_insert` and `apd_pdx_merge` are to do.

## Main results

* `apd_slot_insert_iff`, `apd_pdx_merge_iff` — **when they do.**
-/

namespace Mungi

open SearchLoop

variable {O : Type}

namespace ApdDesc

/-- The slots in use. -/
def slots (apd : ApdDesc) : List Cap := (List.range apd.nApd.toNat).map fun i : ℕ => apd.clist i

/-- Slot `i` is empty, as `apd_pdx_merge` sees it. -/
def Empty (apd : ApdDesc) (i : ℤ) : Prop := (apd.clist i).address = 0

instance (apd : ApdDesc) (i : ℤ) : Decidable (apd.Empty i) := inferInstanceAs (Decidable (_ = _))

/-- No slot is taken but those in use. -/
def EmptyAbove (apd : ApdDesc) : Prop := ∀ i, apd.nApd ≤ i → i < apdMaxEntry → apd.Empty i

end ApdDesc

/-! ### Insertion -/

/-- `apd_slot_insert` is not to refuse the Clist and the position. -/
def Accepts (k : Kernel O) (apd : ApdDesc) (clist : ℕ) (pos : ℤ) : Prop :=
  ¬ (k.IsNotClist clist ∨ pos < 0 ∨ pos ≥ apdMaxEntry) ∧
    ¬ (apd.nApd = apdMaxEntry ∨ pos < apd.nLocked)

/-- `apd_slot_insert` has returned `r.1` and left the slots `r.2`, with the capability at its place
in the list. -/
structure Inserted (apd : ApdDesc) (cap : Cap) (pos : ℤ) (r : ℕ × ApdDesc) : Prop where
  ret : r.1 = 0
  slots : r.2.slots = apd.slots.insertIdx (min pos apd.nApd).toNat cap
  nApd : r.2.nApd = apd.nApd + 1
  nLocked : r.2.nLocked = apd.nLocked
  emptyAbove : r.2.EmptyAbove
  undo : apdSlotDelete r.2 (min pos apd.nApd) = some (0, apd)

section Insert
variable {apd : ApdDesc} {cap : Cap}

/-- A capability behind the slots in use. -/
theorem slots_push (h : 0 ≤ apd.nApd) :
    ApdDesc.slots ⟨fun j => if j = apd.nApd then cap else apd.clist j, apd.nLocked, apd.nApd + 1⟩ =
      apd.slots ++ [cap] := by
  obtain ⟨n, hn⟩ := Int.eq_ofNat_of_zero_le h
  unfold ApdDesc.slots
  dsimp only
  rw [hn, Int.toNat_natCast, Int.toNat_natCast_add_one, List.range_succ, List.map_append]
  congr 1
  · apply List.map_congr_left
    intro i hi
    have hlt := List.mem_range.mp hi
    rw [if_neg (by omega)]
  · simp

theorem length_slots : apd.slots.length = apd.nApd.toNat := by simp [ApdDesc.slots]

/-- **The capability goes behind the slots in use**, and to empty the slot undoes it if it was
empty with password 0. -/
theorem inserted_push (cap : Cap) (h : apd.InRange) (hfree : apd.nApd ≠ apdMaxEntry)
    (hlocked : apd.nLocked ≤ apd.nApd) (hempty : apd.EmptyAbove)
    (hnull : apd.clist apd.nApd = Cap.null) :
    Inserted apd cap apd.nApd
      (0, ⟨fun j => if j = apd.nApd then cap else apd.clist j, apd.nLocked, apd.nApd + 1⟩) := by
  obtain ⟨h₁, h₂, h₃, h₄⟩ := h
  have hlt : apd.nApd < apdMaxEntry := lt_of_le_of_ne h₄ hfree
  refine ⟨rfl, ?_, rfl, rfl, fun i hlo hhi => ?_, ?_⟩
  · rw [min_self, ← length_slots, List.insertIdx_length_self]
    exact slots_push h₃
  · dsimp only at hlo
    unfold ApdDesc.Empty
    dsimp only
    rw [if_neg (by omega)]
    exact hempty i (by omega) hhi
  · rw [min_self]
    have hin : ApdDesc.InRange ⟨fun j => if j = apd.nApd then cap else apd.clist j, apd.nLocked,
        apd.nApd + 1⟩ := ⟨h₁, h₂, by dsimp only; omega, by dsimp only; omega⟩
    obtain ⟨r, hr⟩ := apdSlotDelete_some hin apd.nApd
    have hout := apdSlotDelete_accepted hr (by dsimp only; omega)
    rw [hr, hout]
    dsimp only
    rw [add_sub_cancel_right]
    congr 2
    refine (ApdDesc.mk.injEq ..).mpr ⟨?_, rfl, rfl⟩
    funext j
    by_cases hj : j = apd.nApd
    · rw [if_pos hj, hj, hnull]
    · rw [if_neg hj, if_neg (by omega), if_neg hj]

end Insert

/-- **Insertion is list insertion** just at the first slot that is not in use.  The slots beyond it
may be any that are empty, with the counters in range; whatever is refused leaves the slots as
they were. -/
theorem apd_slot_insert_iff (k : Kernel O) {apd : ApdDesc} (h : apd.InRange)
    (hempty : apd.EmptyAbove) (clist passwd : ℕ) (pos : ℤ) :
    ∃ r, apdSlotInsert k apd clist passwd pos = some r ∧
      (¬ Accepts k apd clist pos → r.1 ≠ 0 ∧ r.2 = apd) ∧
      ((Accepts k apd clist pos → Inserted apd ⟨clist, passwd⟩ pos r) ↔
        (Accepts k apd clist pos → pos = apd.nApd ∧ apd.clist pos = Cap.null)) := by
  obtain ⟨r, hr⟩ := apdSlotInsert_some h k clist passwd pos
  refine ⟨r, hr, fun hno => ?_, forall_congr' fun ⟨hin, hfree⟩ => ?_⟩
  · unfold apdSlotInsert at hr
    split_ifs at hr with hbad hfull hovfl
    · cases hr
      exact ⟨one_ne_zero, rfl⟩
    · cases hr
      exact ⟨(by decide : stOvfl ≠ 0), rfl⟩
    · cases hr
      exact ⟨(by decide : stLock ≠ 0), rfl⟩
    · exact absurd ⟨hbad, hfull⟩ hno
  · obtain rfl := apdSlotInsert_accepted hr hin hfree
    rw [not_or, not_or] at hin
    rw [not_or] at hfree
    constructor
    · rintro ⟨-, -, hnum, -, -, hundo⟩
      dsimp only at hnum hundo
      obtain rfl : pos = apd.nApd := by omega
      have hout := (Prod.mk.inj (apdSlotDelete_accepted hundo (by dsimp only; omega))).2
      dsimp only at hout
      rw [hnum, add_sub_cancel_right] at hout
      exact ⟨rfl, (congrArg (fun a => a.clist apd.nApd) hout).trans (if_pos rfl)⟩
    · rintro ⟨rfl, hnull⟩
      have hpush := inserted_push ⟨clist, passwd⟩ h hfree.1 (by omega) hempty hnull
      have hclist : (fun j => if j = apd.nApd then (⟨clist, passwd⟩ : Cap)
          else if apd.nApd < j ∧ j ≤ apd.nApd then apd.clist (j - 1) else apd.clist j) =
          fun j => if j = apd.nApd then ⟨clist, passwd⟩ else apd.clist j := by
        funext j
        rw [if_neg (show ¬ (apd.nApd < j ∧ j ≤ apd.nApd) by omega)]
      rw [hclist, max_eq_right (by omega)]
      exact hpush

/-- Two slots in use, and no others taken. -/
def twoSlots : ApdDesc :=
  ⟨fun i => if i = 0 then ⟨0x1000, 11⟩ else if i = 1 then ⟨0x2000, 22⟩ else Cap.null, 0, 2⟩

theorem twoSlots_inRange : twoSlots.InRange := ⟨by decide, by decide, by decide, by decide⟩

theorem twoSlots_emptyAbove : twoSlots.EmptyAbove := by
  intro i hlo hhi
  change 2 ≤ i at hlo
  unfold ApdDesc.Empty twoSlots
  dsimp only
  rw [if_neg (by omega), if_neg (by omega)]
  rfl

/-- A third Clist behind the two. -/
theorem apd_slot_insert_behind : ∃ r, apdSlotInsert sharedKernel twoSlots 0x5000 33 2 = some r ∧
    Inserted twoSlots ⟨0x5000, 33⟩ 2 r := by
  obtain ⟨r, hr, -, hright⟩ :=
    apd_slot_insert_iff sharedKernel twoSlots_inRange twoSlots_emptyAbove 0x5000 33 2
  exact ⟨r, hr, hright.mpr (fun _ => ⟨rfl, rfl⟩) ⟨by decide, by decide⟩⟩

/-- Between the two: the second one moves up, and is no longer in use. -/
theorem apd_slot_insert_between : ¬ ∀ (k : Kernel ℕ) (apd : ApdDesc) (clist passwd : ℕ) (pos : ℤ)
    (r : ℕ × ApdDesc), apd.InRange → apd.EmptyAbove → Accepts k apd clist pos →
    apdSlotInsert k apd clist passwd pos = some r → Inserted apd ⟨clist, passwd⟩ pos r := by
  intro h
  obtain ⟨r, hr⟩ := apdSlotInsert_some twoSlots_inRange sharedKernel 0x5000 33 1
  have hnum := (h sharedKernel twoSlots 0x5000 33 1 r twoSlots_inRange twoSlots_emptyAbove
    ⟨by decide, by decide⟩ hr).nApd
  rw [apdSlotInsert_accepted hr (by decide) (by decide)] at hnum
  exact absurd hnum (by decide)

/-! ### The union for a PDX call -/

/-- `apd_pdx_merge` has made the APD `r` from the slots `apd`, or none; `sys` is the new system
Clist, if there is memory. -/
structure Merged (apd : ApdDesc) (sys : Option SysCap) (clist : Cap) (r : Option ApdDesc) :
    Prop where
  fails : r = none ↔ sys = none ∨ ∀ i, apd.nLocked ≤ i → i < apdMaxEntry → ¬ apd.Empty i
  pdx : ∀ new, r = some new → clist ∈ new.slots
  system : ∀ new, r = some new → ∃ cap, sys = some cap ∧ new.slots[0]? = some cap.1
  kept : ∀ new, r = some new → ∀ (i : ℕ) cap, 1 ≤ i → apd.slots[i]? = some cap →
    cap.address ≠ 0 → new.slots[i]? = some cap
  nApd_le : ∀ new, r = some new → new.nApd ≤ apdMaxEntry

/-- Where the Clist may go: an empty slot that is not locked, and not the one of the system
Clist. -/
def ApdDesc.Takes (apd : ApdDesc) (i : ℤ) : Prop :=
  1 ≤ i ∧ apd.nLocked ≤ i ∧ i < apdMaxEntry ∧ apd.Empty i

instance (apd : ApdDesc) (i : ℤ) : Decidable (apd.Takes i) :=
  inferInstanceAs (Decidable (_ ∧ _ ∧ _ ∧ _))

/-- What `apd_pdx_merge` does right with the system Clist `cap`.  If the Clist goes into a slot,
there is one that is in use or the next one, or the Clist is there already; and not all slots are
in use.  If it does not, slot 0 is not the only one that is empty. -/
def MergeRight (apd : ApdDesc) (cap : SysCap) (clist : Cap) : Prop :=
  ((∃ i, apd.Takes i) → max apd.nApd 1 < apdMaxEntry ∧
    ((∃ i, apd.Takes i ∧ i ≤ max apd.nApd 1) ∨ clist = cap.1 ∨
      ∃ i, 1 ≤ i ∧ i ≤ max apd.nApd 1 ∧ apd.clist i = clist)) ∧
  ((¬ ∃ i, apd.Takes i) → apd.nLocked = 0 → ¬ apd.Empty 0)

section Merge
variable {apd : ApdDesc} {cap : Cap}

theorem getElem?_slots {i : ℕ} :
    apd.slots[i]? = some cap ↔ (i : ℤ) < apd.nApd ∧ apd.clist i = cap := by
  unfold ApdDesc.slots
  rw [List.getElem?_map]
  by_cases hi : i < apd.nApd.toNat
  · rw [List.getElem?_range hi, Option.map_some, Option.some_inj]
    exact (and_iff_right (by omega)).symm
  · rw [List.getElem?_eq_none (by rw [List.length_range]; omega)]
    exact iff_of_false nofun fun h => hi (by omega)

theorem mem_slots : cap ∈ apd.slots ↔ ∃ i, 0 ≤ i ∧ i < apd.nApd ∧ apd.clist i = cap := by
  rw [List.mem_iff_getElem?]
  constructor
  · rintro ⟨i, hi⟩
    obtain ⟨hlt, hcap⟩ := getElem?_slots.mp hi
    exact ⟨i, Int.natCast_nonneg i, hlt, hcap⟩
  · rintro ⟨i, h0, hlt, hcap⟩
    obtain ⟨n, rfl⟩ := Int.eq_ofNat_of_zero_le h0
    exact ⟨n, getElem?_slots.mpr ⟨hlt, hcap⟩⟩

/-- **What `apd_pdx_merge` does to the slots**: the Clist goes into the first slot that takes it. -/
theorem apdMergeSlots_cases (h₀ : 0 ≤ apd.nLocked) (h₁ : 0 ≤ apd.nApd) (sys : SysCap)
    (clist : Cap) :
    ((¬ ∃ i, apd.Takes i) ∧ apdMergeSlots (some apd) (some sys) clist = some none) ∨
    ∃ i, apd.Takes i ∧ (∀ j, apd.Takes j → i ≤ j) ∧
      apdMergeSlots (some apd) (some sys) clist = some (some
        ⟨Function.update (Function.update apd.clist 0 sys.1) i clist, apd.nLocked,
          max apd.nApd 1 + 1⟩) := by
  have hzero : (Filled apd sys).clist 0 = sys.1 :=
    show Function.update apd.clist 0 sys.1 0 = sys.1 from Function.update_self ..
  have hother : ∀ {i}, i ≠ 0 → (Filled apd sys).clist i = apd.clist i := fun hi =>
    Function.update_of_ne hi ..
  have hnum : (Filled apd sys).nApd = max apd.nApd 1 := by
    dsimp only [Filled]
    split_ifs <;> omega
  have hfill : apdFill (some sys) apd = some (Filled apd sys) := rfl
  unfold apdMergeSlots
  rw [Option.getD_some, hfill]
  dsimp only
  rcases freeSlot_spec (show 0 ≤ (Filled apd sys).nLocked from h₀) with
    ⟨i, hlo, hhi, ⟨haddr, hfirst⟩, hfree⟩ | ⟨hno, hfree⟩
  · have hi : i ≠ 0 := by
      rintro rfl
      rw [hzero] at haddr
      exact sys.2 haddr
    have hlo' : apd.nLocked ≤ i := hlo
    rw [hother hi] at haddr
    refine Or.inr ⟨i, ⟨by omega, hlo, hhi, haddr⟩, fun j hj => ?_, ?_⟩
    · obtain ⟨hj₁, hj₂, -, hempty⟩ := hj
      by_contra hlt
      have hfull := hfirst j hj₂ (Int.not_le.mp hlt)
      rw [hother (by omega)] at hfull
      exact hfull hempty
    · rw [hfree]
      dsimp only
      rw [ApdDesc.setSlot_in ⟨by omega, hhi⟩, ← hnum]
      rfl
  · refine Or.inl ⟨?_, by rw [hfree]⟩
    rintro ⟨i, hi, hlo, hhi, hempty⟩
    refine hno i hlo hhi ?_
    rw [hother (by omega)]
    exact hempty

end Merge

/-- **The merge is a union** just when `MergeRight` says so.  The APD may be any with its counters
in range, or none (`NULL`), and the Clist any. -/
theorem apd_pdx_merge_iff {apd : Option ApdDesc} (h : ∀ a ∈ apd, a.InRange) (sys : Option SysCap)
    (clist : Cap) :
    ∃ r, apdMergeSlots apd sys clist = some r ∧
      (Merged (apd.getD apdZero) sys clist r ↔
        ∀ cap ∈ sys, MergeRight (apd.getD apdZero) cap clist) := by
  have hgetD : apdMergeSlots apd sys clist = apdMergeSlots (some (apd.getD apdZero)) sys clist := by
    cases apd <;> rfl
  have hin : (apd.getD apdZero).InRange := by
    cases apd with
    | none => exact apdZero_inRange
    | some a => exact h a rfl
  rw [hgetD]
  generalize apd.getD apdZero = apd at hin
  obtain ⟨h₁, h₂, h₃, h₄⟩ := hin
  cases sys with
  | none =>
    exact ⟨none, rfl, iff_of_true ⟨iff_of_true rfl (Or.inl rfl), nofun, nofun, nofun, nofun⟩ nofun⟩
  | some cap =>
    have hall : (∀ c ∈ some cap, MergeRight apd c clist) ↔ MergeRight apd cap clist :=
      ⟨fun hc => hc cap rfl, fun hc _ heq => Option.some.inj heq ▸ hc⟩
    rw [hall]
    rcases apdMergeSlots_cases h₁ h₃ cap clist with ⟨hno, hr⟩ | ⟨i, hi, hfirst, hr⟩
    · refine ⟨none, hr, ⟨fun hm => ⟨fun hex => absurd hex hno, fun _ hzero hempty => ?_⟩,
        fun hright => ⟨?_, nofun, nofun, nofun, nofun⟩⟩⟩
      · -- slot 0 is empty, and yet there is no new APD
        rcases hm.fails.mp rfl with hnone | hfull
        · cases hnone
        · exact hfull 0 hzero.le (by decide) hempty
      · refine iff_of_true rfl (Or.inr fun j hlo hhi hempty => ?_)
        by_cases hj : j = 0
        · subst hj
          exact hright.2 hno (by omega) hempty
        · exact hno ⟨j, by omega, hlo, hhi, hempty⟩
    · obtain ⟨hi₁, hi₂, hi₃, hempty⟩ := hi
      have hex : ∃ i, apd.Takes i := ⟨i, hi₁, hi₂, hi₃, hempty⟩
      refine ⟨_, hr, ⟨fun hm => ⟨fun _ => ⟨?_, ?_⟩, fun hno => absurd hex hno⟩,
        fun hright => ?_⟩⟩
      · have hle := hm.nApd_le _ rfl
        exact hle
      · obtain ⟨j, hj₁, hj₂, hj⟩ := mem_slots.mp (hm.pdx _ rfl)
        dsimp only at hj₂ hj
        by_cases hji : j = i
        · exact Or.inl ⟨i, ⟨hi₁, hi₂, hi₃, hempty⟩, by omega⟩
        · rw [Function.update_of_ne hji] at hj
          by_cases hj0 : j = 0
          · rw [hj0, Function.update_self] at hj
            exact Or.inr (Or.inl hj.symm)
          · rw [Function.update_of_ne hj0] at hj
            exact Or.inr (Or.inr ⟨j, by omega, by omega, hj⟩)
      · obtain ⟨hroom, hplace⟩ := hright.1 hex
        refine ⟨iff_of_false nofun ?_, ?_, ?_, ?_, ?_⟩
        · rintro (hnone | hfull)
          · cases hnone
          · exact hfull i hi₂ hi₃ hempty
        · rintro _ ⟨⟩
          rw [mem_slots]
          dsimp only
          rcases hplace with ⟨j, hj, hle⟩ | rfl | ⟨j, hj₁, hj₂, rfl⟩
          · have hij := hfirst j hj
            exact ⟨i, by omega, by omega, Function.update_self ..⟩
          · refine ⟨0, le_rfl, by omega, ?_⟩
            rw [Function.update_of_ne (by omega), Function.update_self]
          · refine ⟨j, by omega, by omega, ?_⟩
            by_cases hji : j = i
            · rw [hji, Function.update_self]
            · rw [Function.update_of_ne hji, Function.update_of_ne (by omega)]
        · rintro _ ⟨⟩
          refine ⟨cap, rfl, getElem?_slots.mpr ⟨?_, ?_⟩⟩
          · dsimp only
            omega
          · dsimp only
            rw [Function.update_of_ne (by omega)]
            exact Function.update_self ..
        · rintro _ ⟨⟩ j b hj hb haddr
          obtain ⟨hlt, rfl⟩ := getElem?_slots.mp hb
          refine getElem?_slots.mpr ⟨?_, ?_⟩
          · dsimp only
            omega
          · have hji : (j : ℤ) ≠ i := by
              rintro rfl
              exact haddr hempty
            dsimp only
            rw [Function.update_of_ne hji, Function.update_of_ne (by omega)]
        · rintro _ ⟨⟩
          exact hroom

/-- A PDX call with no domain of the caller's. -/
theorem apd_pdx_merge_null : ∃ r, apdMergeSlots none (some aSysCap) ⟨0x5000, 33⟩ = some r ∧
    Merged apdZero (some aSysCap) ⟨0x5000, 33⟩ r := by
  have hnone : ∀ a ∈ (none : Option ApdDesc), a.InRange := nofun
  obtain ⟨r, hr, hright⟩ := apd_pdx_merge_iff hnone (some aSysCap) ⟨0x5000, 33⟩
  have hzero : apdZero.Takes 1 ∧ 1 ≤ max apdZero.nApd 1 := by decide
  exact ⟨r, hr, hright.mpr fun cap _ => ⟨fun _ => ⟨by decide, Or.inl ⟨1, hzero⟩⟩,
    fun hno => absurd ⟨1, hzero.1⟩ hno⟩⟩

/-- Six slots are locked and two in use: the Clist goes behind those that are locked, where no
validation looks. -/
theorem apd_pdx_merge_locked : ¬ ∀ (apd : ApdDesc) (sys : Option SysCap) (clist : Cap)
    (r : Option ApdDesc), apd.InRange → apdMergeSlots (some apd) sys clist = some r →
    Merged apd sys clist r := by
  intro h
  have hslots : (apdMergeSlots (some { twoSlots with nLocked := 6 }) (some aSysCap)
      ⟨0x5000, 33⟩).map (fun r => r.map ApdDesc.slots) =
        some (some [⟨0x1000, 22⟩, ⟨0x2000, 22⟩, Cap.null]) := by decide +kernel
  obtain ⟨r, hr, hmap⟩ := Option.map_eq_some_iff.mp hslots
  obtain ⟨new, rfl, hnew⟩ := Option.map_eq_some_iff.mp hmap
  have hmem := (h _ _ _ _ ⟨by decide, by decide, by decide, by decide⟩ hr).pdx new rfl
  rw [hnew] at hmem
  exact absurd hmem (by decide)

end Mungi
