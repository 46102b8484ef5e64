import Mungi.Lib.ForLoop
import Mungi.Lib.Runs
import Mungi.Objects
import Mungi.Security

/-!
# The slots of an APD

An APD is made from a template that is written by a user (`apd_from_template`), and its
slots are then filled, emptied and locked by its threads (`apd.c`).  For a PDX call a copy is
made with one Clist more (`apd_pdx_merge`).  An index beyond the slots gives no result here.
The counters are signed bytes, and never get near the end of their range.

## Main definitions

* `apdFromTemplate`, `apdSlotInsert`, `apdSlotDelete`, `apdSlotLock`, `apdMergeSlots` — the
  functions, as far as the slots go.
* `ApdDesc.InRange` — the two counters are between 0 and `APD_MAX_ENTRY`.

## Main results

* `slotStep_outcome` — what a call does to the slots.
* `apd_slot_locked` — **locked slots keep what they hold.**
* `apd_slot_inRange` — **when no index leaves the slots.**
-/

namespace Mungi

open ForLoop SearchLoop Runs

variable {O : Type}

/-- `APD_MAX_ENTRY` -/
def apdMaxEntry : ℤ := 16

/-- `ST_LOCK` -/
def stLock : ℕ := 0x11

/-- `ST_OVFL` -/
def stOvfl : ℕ := 0x13

/-! ### The code -/

namespace ApdDesc

/-- Reading slot `i`. -/
def slot (apd : ApdDesc) (i : ℤ) : Option Cap :=
  if 0 ≤ i ∧ i < apdMaxEntry then some (apd.clist i) else none

/-- Writing slot `i`. -/
def setSlot (i : ℤ) (cap : Cap) (apd : ApdDesc) : Option ApdDesc :=
  if 0 ≤ i ∧ i < apdMaxEntry then some { apd with clist := Function.update apd.clist i cap }
  else none

/-- `clist[j] = clist[i]` -/
def moveSlot (i j : ℤ) (apd : ApdDesc) : Option ApdDesc := (apd.slot i).bind (apd.setSlot j)

end ApdDesc

/-- `validate_cap` -/
def validateCap (k : Kernel O) (cap : Cap) (access : Access) : Bool :=
  if access.IsPdx then false
  else
    match objectFind k cap.address with
    | none => false
    | some o => (doValidatePasswdStd (k.obj o) cap.passwd access).1 = .allowed

/-- A capability for a system Clist.  It comes from `object_create`, which does not make an
object at address 0. -/
def SysCap : Type := { cap : Cap // cap.address ≠ 0 }

/-- What `apd_fill` does to the slots; `sys` is for the new system Clist, if there is
memory. -/
def apdFill (sys : Option SysCap) (apd : ApdDesc) : Option ApdDesc :=
  sys.map fun cap =>
    { apd with
      nApd := if apd.nApd = 0 then 1 else apd.nApd
      clist := Function.update apd.clist 0 cap.1 }

/-- `apd_from_template` -/
def apdFromTemplate (k : Kernel O) (pd : ApdDesc) (sys : Option SysCap) : Option ApdDesc :=
  if pd.nApd > apdMaxEntry then none
  else
    match findUp (fun i => if validateCap k (pd.clist i) mRead then none else some i) 1
      (pd.nApd - 1).toNat with
    | some _ => none
    | none => apdFill sys pd

/-- `apd_slot_insert`: its result, and the slots. -/
def apdSlotInsert (k : Kernel O) (apd : ApdDesc) (clist passwd : ℕ) (pos : ℤ) :
    Option (ℕ × ApdDesc) :=
  if k.IsNotClist clist ∨ pos < 0 ∨ pos ≥ apdMaxEntry then some (1, apd)
  else if apd.nApd = apdMaxEntry ∨ pos < apd.nLocked then
    if apd.nApd = apdMaxEntry then some (stOvfl, apd) else some (stLock, apd)
  else
    (forDownM (fun i => ApdDesc.moveSlot i (i + 1)) pos (apd.nApd - pos).toNat apd).bind fun apd =>
      ({ apd with nApd := if pos + 1 ≤ apd.nApd then apd.nApd else pos + 1 }.setSlot pos
        ⟨clist, passwd⟩).map fun apd => (0, apd)

/-- `apd_slot_delete` -/
def apdSlotDelete (apd : ApdDesc) (pos : ℤ) : Option (ℕ × ApdDesc) :=
  if pos ≥ apd.nApd ∨ pos < apd.nLocked then
    if pos < apd.nLocked then some (stLock, apd) else some (1, apd)
  else
    let apd := { apd with nApd := apd.nApd - 1 }
    (forUpM (fun i => ApdDesc.moveSlot (i + 1) i) pos (apd.nApd - pos).toNat apd).bind fun apd =>
      (apd.setSlot (max pos apd.nApd) Cap.null).map fun apd => (0, apd)

/-- `apd_slot_lock` -/
def apdSlotLock (apd : ApdDesc) (pos : ℤ) : ℕ × ApdDesc :=
  if pos < 0 ∧ pos ≠ -1 ∨ pos ≥ apdMaxEntry then (1, apd)
  else if pos = -1 then (0, { apd with nLocked := apdMaxEntry })
  else if pos ≥ apd.nLocked then (0, { apd with nLocked := pos + 1 })
  else (1, apd)

/-- The slots after `memset`. -/
def apdZero : ApdDesc := ⟨fun _ => Cap.null, 0, 0⟩

/-- The loop of `apd_pdx_merge` that looks for an empty slot; it may read beyond the slots. -/
def freeSlot (apd : ApdDesc) : Option (Option ℤ) :=
  findUp (fun i =>
    match apd.slot i with
    | none => some none
    | some cap => if cap.address = 0 then some (some i) else none) apd.nLocked
    (apdMaxEntry - apd.nLocked).toNat

/-- What `apd_pdx_merge` does to the slots of the new APD when the cache has missed: `NULL`,
or the new APD. -/
def apdMergeSlots (apd : Option ApdDesc) (sys : Option SysCap) (clist : Cap) :
    Option (Option ApdDesc) :=
  match apdFill sys (apd.getD apdZero) with
  | none => some none
  | some new =>
    match freeSlot new with
    | none => some none
    | some none => none
    | some (some i) =>
      (new.setSlot i clist).map fun new => some { new with nApd := new.nApd + 1 }

/-- Calls of the three functions; the Clists in memory are what they are at the time. -/
inductive SlotOp where
  | insert (clists : ℕ → Clist) (clist passwd : ℕ) (pos : ℤ)
  | delete (pos : ℤ)
  | lock (pos : ℤ)

/-- One call, whether it succeeds or not. -/
def slotStep (k : Kernel O) (apd : ApdDesc) : SlotOp → Option ApdDesc
  | .insert clists clist passwd pos =>
    (apdSlotInsert (k.withClists clists) apd clist passwd pos).map Prod.snd
  | .delete pos => (apdSlotDelete apd pos).map Prod.snd
  | .lock pos => some (apdSlotLock apd pos).2

/-! ### What the calls do -/

theorem ApdDesc.moveSlot_eq_some {i j : ℤ} {apd apd' : ApdDesc} :
    ApdDesc.moveSlot i j apd = some apd' ↔
      (0 ≤ i ∧ i < apdMaxEntry) ∧ (0 ≤ j ∧ j < apdMaxEntry) ∧
        apd' = { apd with clist := Function.update apd.clist j (apd.clist i) } := by
  unfold ApdDesc.moveSlot ApdDesc.slot ApdDesc.setSlot
  by_cases hi : 0 ≤ i ∧ i < apdMaxEntry
  · rw [if_pos hi, Option.bind_some]
    by_cases hj : 0 ≤ j ∧ j < apdMaxEntry
    · rw [if_pos hj, Option.some_inj, eq_comm]
      exact ⟨fun h => ⟨hi, hj, h⟩, fun h => h.2.2⟩
    · rw [if_neg hj]
      exact iff_of_false nofun fun h => hj h.2.1
  · rw [if_neg hi]
    exact iff_of_false nofun fun h => hi h.1

/-- Moving slots up, where it works. -/
theorem forDownM_moveSlot {pos : ℤ} {n : ℕ} {apd apd' : ApdDesc}
    (h : forDownM (fun i => ApdDesc.moveSlot i (i + 1)) pos n apd = some apd') :
    apd' = { apd with
      clist := fun j => if pos < j ∧ j ≤ pos + n then apd.clist (j - 1) else apd.clist j } := by
  induction n generalizing apd with
  | zero =>
    obtain rfl := Option.some.inj h
    have hclist : apd.clist = fun j => if pos < j ∧ j ≤ pos + (0 : ℕ) then apd.clist (j - 1)
        else apd.clist j := by
      funext j
      rw [if_neg (by omega)]
    rw [← hclist]
  | succ n ih =>
    obtain ⟨apd₁, h₁, hrest⟩ := Option.bind_eq_some_iff.mp h
    obtain ⟨-, -, rfl⟩ := ApdDesc.moveSlot_eq_some.mp h₁
    rw [ih hrest]
    dsimp only
    congr 1
    funext j
    by_cases hj : j = pos + n + 1
    · subst hj
      rw [if_neg (by omega), Function.update_self, if_pos (by omega), add_sub_cancel_right]
    · rw [Function.update_of_ne hj]
      by_cases hin : pos < j ∧ j ≤ pos + n
      · rw [if_pos hin, if_pos (by omega), Function.update_of_ne (by omega)]
      · rw [if_neg hin, if_neg (by omega)]

/-- Moving slots down, where it works. -/
theorem forUpM_moveSlot {pos : ℤ} {n : ℕ} {apd apd' : ApdDesc}
    (h : forUpM (fun i => ApdDesc.moveSlot (i + 1) i) pos n apd = some apd') :
    apd' = { apd with
      clist := fun j => if pos ≤ j ∧ j < pos + n then apd.clist (j + 1) else apd.clist j } := by
  induction n generalizing apd' with
  | zero =>
    obtain rfl := Option.some.inj h
    have hclist : apd.clist = fun j => if pos ≤ j ∧ j < pos + (0 : ℕ) then apd.clist (j + 1)
        else apd.clist j := by
      funext j
      rw [if_neg (by omega)]
    rw [← hclist]
  | succ n ih =>
    obtain ⟨apd₁, hrest, h₁⟩ := Option.bind_eq_some_iff.mp h
    obtain ⟨-, -, rfl⟩ := ApdDesc.moveSlot_eq_some.mp h₁
    rw [ih hrest]
    dsimp only
    congr 1
    funext j
    by_cases hj : j = pos + n
    · subst hj
      rw [Function.update_self, if_neg (by omega), if_pos (by omega)]
    · rw [Function.update_of_ne hj]
      by_cases hin : pos ≤ j ∧ j < pos + n
      · rw [if_pos hin, if_pos (by omega)]
      · rw [if_neg hin, if_neg (by omega)]

/-- What a call does to the slots. -/
inductive SlotOutcome (k : Kernel O) (apd : ApdDesc) : SlotOp → ApdDesc → Prop where
  | same (op : SlotOp) : SlotOutcome k apd op apd
  | inserted (clists : ℕ → Clist) (clist passwd : ℕ) (pos : ℤ)
      (isClist : ¬ (k.withClists clists).IsNotClist clist) (nonneg : 0 ≤ pos)
      (lt : pos < apdMaxEntry) (free : apd.nApd ≠ apdMaxEntry) (unlocked : apd.nLocked ≤ pos) :
      SlotOutcome k apd (.insert clists clist passwd pos)
        ⟨fun j => if j = pos then ⟨clist, passwd⟩
          else if pos < j ∧ j ≤ apd.nApd then apd.clist (j - 1) else apd.clist j,
          apd.nLocked, max apd.nApd (pos + 1)⟩
  | deleted (pos : ℤ) (lt : pos < apd.nApd) (unlocked : apd.nLocked ≤ pos) :
      SlotOutcome k apd (.delete pos)
        ⟨fun j => if j = apd.nApd - 1 then Cap.null
          else if pos ≤ j ∧ j < apd.nApd - 1 then apd.clist (j + 1) else apd.clist j,
          apd.nLocked, apd.nApd - 1⟩
  | locked (pos n : ℤ) (le : min apd.nLocked apdMaxEntry ≤ n) (le_max : n ≤ apdMaxEntry) :
      SlotOutcome k apd (.lock pos) { apd with nLocked := n }

theorem ApdDesc.setSlot_eq_some {i : ℤ} {cap : Cap} {apd apd' : ApdDesc} :
    ApdDesc.setSlot i cap apd = some apd' ↔
      (0 ≤ i ∧ i < apdMaxEntry) ∧ apd' = { apd with clist := Function.update apd.clist i cap } := by
  unfold ApdDesc.setSlot
  by_cases hi : 0 ≤ i ∧ i < apdMaxEntry
  · rw [if_pos hi, Option.some_inj, eq_comm]
    exact ⟨fun h => ⟨hi, h⟩, fun h => h.2⟩
  · rw [if_neg hi]
    exact iff_of_false nofun fun h => hi h.1

/-- An insertion that is not refused. -/
theorem apdSlotInsert_accepted {k : Kernel O} {apd : ApdDesc} {clist passwd : ℕ} {pos : ℤ}
    {r : ℕ × ApdDesc} (h : apdSlotInsert k apd clist passwd pos = some r)
    (hin : ¬ (k.IsNotClist clist ∨ pos < 0 ∨ pos ≥ apdMaxEntry))
    (hfree : ¬ (apd.nApd = apdMaxEntry ∨ pos < apd.nLocked)) :
    r = (0, ⟨fun j => if j = pos then ⟨clist, passwd⟩
      else if pos < j ∧ j ≤ apd.nApd then apd.clist (j - 1) else apd.clist j,
      apd.nLocked, max apd.nApd (pos + 1)⟩) := by
  unfold apdSlotInsert at h
  rw [if_neg hin, if_neg hfree] at h
  obtain ⟨apd₂, hmove, hrest⟩ := Option.bind_eq_some_iff.mp h
  obtain ⟨apd₃, hset, rfl⟩ := Option.map_eq_some_iff.mp hrest
  obtain ⟨-, rfl⟩ := ApdDesc.setSlot_eq_some.mp hset
  rw [forDownM_moveSlot hmove]
  refine congrArg (Prod.mk 0) (ApdDesc.mk.injEq .. |>.mpr ⟨?_, rfl, ?_⟩)
  · funext j
    dsimp only
    by_cases hj : j = pos
    · rw [if_pos hj, hj, Function.update_self]
    · rw [if_neg hj, Function.update_of_ne hj]
      by_cases hin : pos < j ∧ j ≤ apd.nApd
      · rw [if_pos hin, if_pos (by omega)]
      · rw [if_neg hin, if_neg (by omega)]
  · dsimp only
    split_ifs <;> omega

/-- A deletion that is not refused. -/
theorem apdSlotDelete_accepted {apd : ApdDesc} {pos : ℤ} {r : ℕ × ApdDesc}
    (h : apdSlotDelete apd pos = some r) (hin : ¬ (pos ≥ apd.nApd ∨ pos < apd.nLocked)) :
    r = (0, ⟨fun j => if j = apd.nApd - 1 then Cap.null
      else if pos ≤ j ∧ j < apd.nApd - 1 then apd.clist (j + 1) else apd.clist j,
      apd.nLocked, apd.nApd - 1⟩) := by
  unfold apdSlotDelete at h
  rw [if_neg hin] at h
  obtain ⟨apd₂, hmove, hrest⟩ := Option.bind_eq_some_iff.mp h
  obtain ⟨apd₃, hset, rfl⟩ := Option.map_eq_some_iff.mp hrest
  obtain ⟨-, rfl⟩ := ApdDesc.setSlot_eq_some.mp hset
  rw [forUpM_moveSlot hmove]
  refine congrArg (Prod.mk 0) (ApdDesc.mk.injEq .. |>.mpr ⟨?_, rfl, rfl⟩)
  funext j
  dsimp only
  rw [max_eq_right (by omega)]
  by_cases hj : j = apd.nApd - 1
  · rw [if_pos hj, hj, Function.update_self]
  · rw [if_neg hj, Function.update_of_ne hj]
    by_cases hin : pos ≤ j ∧ j < apd.nApd - 1
    · rw [if_pos hin, if_pos (by omega)]
    · rw [if_neg hin, if_neg (by omega)]

/-- **What a call does**, whatever the counters are. -/
theorem slotStep_outcome (k : Kernel O) {apd apd' : ApdDesc} {op : SlotOp}
    (h : slotStep k apd op = some apd') : SlotOutcome k apd op apd' := by
  cases op with
  | insert clists clist passwd pos =>
    obtain ⟨⟨ret, apd₁⟩, hins, rfl⟩ := Option.map_eq_some_iff.mp h
    by_cases hbad : (k.withClists clists).IsNotClist clist ∨ pos < 0 ∨ pos ≥ apdMaxEntry
    · rw [apdSlotInsert, if_pos hbad] at hins
      cases hins
      exact .same _
    by_cases hfull : apd.nApd = apdMaxEntry ∨ pos < apd.nLocked
    · rw [apdSlotInsert, if_neg hbad, if_pos hfull] at hins
      split_ifs at hins <;> cases hins <;> exact .same _
    · obtain ⟨-, rfl⟩ := Prod.mk.inj (apdSlotInsert_accepted hins hbad hfull)
      rw [not_or, not_or] at hbad
      rw [not_or] at hfull
      obtain ⟨hclist, hneg, hmax⟩ := hbad
      exact .inserted clists clist passwd pos hclist (Int.not_lt.mp hneg) (Int.not_le.mp hmax)
        hfull.1 (Int.not_lt.mp hfull.2)
  | delete pos =>
    obtain ⟨⟨ret, apd₁⟩, hdel, rfl⟩ := Option.map_eq_some_iff.mp h
    by_cases hbad : pos ≥ apd.nApd ∨ pos < apd.nLocked
    · rw [apdSlotDelete, if_pos hbad] at hdel
      split_ifs at hdel <;> cases hdel <;> exact .same _
    · obtain ⟨-, rfl⟩ := Prod.mk.inj (apdSlotDelete_accepted hdel hbad)
      rw [not_or] at hbad
      exact .deleted pos (Int.not_le.mp hbad.1) (Int.not_lt.mp hbad.2)
  | lock pos =>
    obtain rfl := Option.some.inj h
    unfold apdSlotLock
    split_ifs with hbad hall hfree
    · exact .same _
    · exact .locked pos apdMaxEntry (by omega) le_rfl
    · rw [not_or] at hbad
      exact .locked pos (pos + 1) (by omega) (by omega)
    · exact .same _

/-! ### The counters -/

/-- The counters are between 0 and `APD_MAX_ENTRY`, so the slots in use and the locked ones
are slots of the APD. -/
structure ApdDesc.InRange (apd : ApdDesc) : Prop where
  nLocked_nonneg : 0 ≤ apd.nLocked
  nLocked_le : apd.nLocked ≤ apdMaxEntry
  nApd_nonneg : 0 ≤ apd.nApd
  nApd_le : apd.nApd ≤ apdMaxEntry

section InRange
variable {k : Kernel O} {apd apd' : ApdDesc} {op : SlotOp}

theorem ApdDesc.moveSlot_in {i j : ℤ} (hi : 0 ≤ i ∧ i < apdMaxEntry) (hj : 0 ≤ j ∧ j < apdMaxEntry)
    (apd : ApdDesc) : ApdDesc.moveSlot i j apd
      = some { apd with clist := Function.update apd.clist j (apd.clist i) } :=
  ApdDesc.moveSlot_eq_some.mpr ⟨hi, hj, rfl⟩

theorem ApdDesc.setSlot_in {i : ℤ} (hi : 0 ≤ i ∧ i < apdMaxEntry) (cap : Cap) (apd : ApdDesc) :
    ApdDesc.setSlot i cap apd = some { apd with clist := Function.update apd.clist i cap } :=
  ApdDesc.setSlot_eq_some.mpr ⟨hi, rfl⟩

theorem apdSlotInsert_some (h : apd.InRange) (k : Kernel O) (clist passwd : ℕ) (pos : ℤ) :
    ∃ r, apdSlotInsert k apd clist passwd pos = some r := by
  have hlocked := h.nLocked_nonneg
  have hmax := h.nApd_le
  unfold apdSlotInsert
  split_ifs with hbad hfull
  · exact ⟨_, rfl⟩
  · exact ⟨_, rfl⟩
  · exact ⟨_, rfl⟩
  · rw [forDownM_eq_some fun i apd h₁ h₂ =>
      ApdDesc.moveSlot_in ⟨by omega, by omega⟩ ⟨by omega, by omega⟩ apd, Option.bind_some,
      ApdDesc.setSlot_in ⟨by omega, by omega⟩]
    exact ⟨_, rfl⟩

theorem apdSlotDelete_some (h : apd.InRange) (pos : ℤ) : ∃ r, apdSlotDelete apd pos = some r := by
  have hlocked := h.nLocked_nonneg
  have hmax := h.nApd_le
  unfold apdSlotDelete
  split_ifs with hbad
  · exact ⟨_, rfl⟩
  · exact ⟨_, rfl⟩
  · have hmove : forUpM (fun i => ApdDesc.moveSlot (i + 1) i) pos (apd.nApd - 1 - pos).toNat
        { apd with nApd := apd.nApd - 1 } = some _ :=
      forUpM_eq_some (fun i apd h₁ h₂ => ApdDesc.moveSlot_in (by omega) (by omega) apd) _
    have hframe := forUpM_moveSlot hmove
    dsimp only at hmove ⊢
    rw [hmove, Option.bind_some, hframe, ApdDesc.setSlot_in (by dsimp only; omega)]
    exact ⟨_, rfl⟩

/-- With the counters in range no index leaves the slots. -/
theorem slotStep_some (h : apd.InRange) (k : Kernel O) (op : SlotOp) :
    ∃ apd', slotStep k apd op = some apd' := by
  cases op with
  | insert clists clist passwd pos =>
    obtain ⟨r, hr⟩ := apdSlotInsert_some h (k.withClists clists) clist passwd pos
    exact ⟨r.2, by rw [slotStep, hr]; rfl⟩
  | delete pos =>
    obtain ⟨r, hr⟩ := apdSlotDelete_some h pos
    exact ⟨r.2, by rw [slotStep, hr]; rfl⟩
  | lock pos => exact ⟨_, rfl⟩

theorem SlotOutcome.inRange (hout : SlotOutcome k apd op apd') (h : apd.InRange) :
    apd'.InRange := by
  obtain ⟨h₁, h₂, h₃, h₄⟩ := h
  cases hout with
  | same op => exact ⟨h₁, h₂, h₃, h₄⟩
  | inserted clists clist passwd pos isClist nonneg lt free unlocked =>
    exact ⟨h₁, h₂, by dsimp only; omega, by dsimp only; omega⟩
  | deleted pos lt unlocked => exact ⟨h₁, h₂, by dsimp only; omega, by dsimp only; omega⟩
  | locked pos n le le_max => exact ⟨by dsimp only; omega, le_max, h₃, h₄⟩

/-- **One call keeps what is locked.** -/
theorem SlotOutcome.keeps (hout : SlotOutcome k apd op apd') (h : apd.InRange) :
    apd.nLocked ≤ apd'.nLocked ∧ ∀ p, 0 ≤ p → p < apd.nLocked → apd'.clist p = apd.clist p := by
  cases hout with
  | same op => exact ⟨le_rfl, fun _ _ _ => rfl⟩
  | inserted clists clist passwd pos isClist nonneg lt free unlocked =>
    refine ⟨le_rfl, fun p h₁ h₂ => ?_⟩
    dsimp only
    rw [if_neg (by omega), if_neg (by omega)]
  | deleted pos lt unlocked =>
    refine ⟨le_rfl, fun p h₁ h₂ => ?_⟩
    dsimp only
    rw [if_neg (by omega), if_neg (by omega)]
  | locked pos n le le_max =>
    have hle := h.nLocked_le
    exact ⟨by dsimp only; omega, fun _ _ _ => rfl⟩

end InRange

/-! ### The copy for a PDX call -/

section Merge
variable {apd new : ApdDesc} {sys : Option SysCap} {clist : Cap}

/-- The slots that `apd_pdx_merge` looks at. -/
def Filled (apd : ApdDesc) (cap : SysCap) : ApdDesc :=
  { apd with
    nApd := if apd.nApd = 0 then 1 else apd.nApd
    clist := Function.update apd.clist 0 cap.1 }

/-- The search stays within the slots if it begins there, and takes the first empty slot. -/
theorem freeSlot_spec (h : 0 ≤ apd.nLocked) :
    (∃ i, apd.nLocked ≤ i ∧ i < apdMaxEntry ∧ ((apd.clist i).address = 0 ∧
      ∀ j, apd.nLocked ≤ j → j < i → (apd.clist j).address ≠ 0) ∧
        freeSlot apd = some (some i)) ∨
    (∀ i, apd.nLocked ≤ i → i < apdMaxEntry → (apd.clist i).address ≠ 0) ∧
      freeSlot apd = none := by
  have hslot : ∀ i, apd.nLocked ≤ i → i < apd.nLocked + (apdMaxEntry - apd.nLocked).toNat →
      apd.slot i = some (apd.clist i) := fun i h₁ h₂ => if_pos ⟨by omega, by omega⟩
  cases hfree : freeSlot apd with
  | none =>
    refine Or.inr ⟨fun i h₁ h₂ haddr => ?_, rfl⟩
    have hnone := findUp_eq_none.mp hfree i h₁ (by omega)
    rw [hslot i h₁ (by omega)] at hnone
    dsimp only at hnone
    rw [if_pos haddr] at hnone
    cases hnone
  | some r =>
    obtain ⟨i, h₁, h₂, hi, hbefore⟩ := findUp_eq_some.mp hfree
    rw [hslot i h₁ h₂] at hi
    obtain ⟨haddr, hr⟩ := Option.ite_none_right_eq_some.mp hi
    refine Or.inl ⟨i, h₁, by omega, ⟨haddr, fun j hj hji haddr => ?_⟩,
      congrArg some (Option.some.inj hr).symm⟩
    have hnone := hbefore j hj hji
    rw [hslot j hj (by omega)] at hnone
    dsimp only at hnone
    rw [if_pos haddr] at hnone
    cases hnone

theorem freeSlot_eq_some {i : ℤ} (h : freeSlot apd = some (some i)) :
    apd.nLocked ≤ i ∧ (0 ≤ i ∧ i < apdMaxEntry) ∧ (apd.clist i).address = 0 := by
  obtain ⟨j, h₁, -, hj, -⟩ := findUp_eq_some.mp h
  unfold ApdDesc.slot at hj
  by_cases hin : 0 ≤ j ∧ j < apdMaxEntry
  · rw [if_pos hin] at hj
    obtain ⟨haddr, hji⟩ := Option.ite_none_right_eq_some.mp hj
    obtain rfl := Option.some.inj (Option.some.inj hji)
    exact ⟨h₁, hin, haddr⟩
  · rw [if_neg hin] at hj
    cases hj

/-- **The new APD** for a PDX call: the Clist goes into the first empty slot that is not
locked. -/
theorem apdMergeSlots_eq_some {apd : Option ApdDesc}
    (h : apdMergeSlots apd sys clist = some (some new)) :
    ∃ cap i, sys = some cap ∧ (apd.getD apdZero).nLocked ≤ i ∧ (0 ≤ i ∧ i < apdMaxEntry) ∧
      ((Filled (apd.getD apdZero) cap).clist i).address = 0 ∧
      new = ⟨Function.update (Filled (apd.getD apdZero) cap).clist i clist,
        (apd.getD apdZero).nLocked, (Filled (apd.getD apdZero) cap).nApd + 1⟩ := by
  unfold apdMergeSlots at h
  cases sys with
  | none => cases h
  | some cap =>
    rw [show apdFill (some cap) (apd.getD apdZero) = some (Filled (apd.getD apdZero) cap) from rfl]
      at h
    dsimp only at h
    split at h
    · cases h
    · cases h
    · rename_i i hfree
      obtain ⟨hle, hin, haddr⟩ := freeSlot_eq_some hfree
      obtain ⟨s, hset, hnew⟩ := Option.map_eq_some_iff.mp h
      obtain ⟨-, rfl⟩ := ApdDesc.setSlot_eq_some.mp hset
      exact ⟨cap, i, rfl, hle, hin, haddr, (Option.some.inj hnew).symm⟩

/-- If the locked slots are counted right, there is a new APD or none. -/
theorem apdMergeSlots_some (h : 0 ≤ apd.nLocked) (sys : Option SysCap) (clist : Cap) :
    ∃ r, apdMergeSlots (some apd) sys clist = some r := by
  unfold apdMergeSlots
  cases sys with
  | none => exact ⟨none, rfl⟩
  | some cap =>
    rw [Option.getD_some, show apdFill (some cap) apd = some (Filled apd cap) from rfl]
    dsimp only
    rcases freeSlot_spec (show 0 ≤ (Filled apd cap).nLocked from h) with
      ⟨i, h₁, h₂, -, hfree⟩ | ⟨-, hfree⟩
    · rw [hfree]
      dsimp only
      rw [ApdDesc.setSlot_in ⟨le_trans h h₁, h₂⟩]
      exact ⟨_, rfl⟩
    · rw [hfree]
      exact ⟨none, rfl⟩

end Merge

/-- **Locked slots keep what they hold.**  Along any run of calls, successful or not, the
locked slots become no fewer and hold the same; and so it is in every APD that is made of
the slots for a PDX call, but for the system Clist in slot 0. -/
theorem apd_slot_locked (k : Kernel O) {apd : ApdDesc} (h : apd.InRange) (ops ops' : List SlotOp) :
    ∃ s s', run (slotStep k) apd ops = some s ∧ run (slotStep k) s ops' = some s' ∧
      s.nLocked ≤ s'.nLocked ∧ (∀ p, 0 ≤ p → p < s.nLocked → s'.clist p = s.clist p) ∧
      ∀ sys clist new, apdMergeSlots (some s') sys clist = some (some new) →
        new.nLocked = s'.nLocked ∧ ∀ p, 1 ≤ p → p < s'.nLocked → new.clist p = s'.clist p := by
  have hrun : ∀ {apd : ApdDesc}, apd.InRange → ∀ ops, ∃ s, run (slotStep k) apd ops = some s ∧
      s.InRange ∧ apd.nLocked ≤ s.nLocked ∧
      ∀ p, 0 ≤ p → p < apd.nLocked → s.clist p = apd.clist p := by
    intro apd h ops
    refine run_total (C := fun _ (s : ApdDesc) => s.InRange ∧ apd.nLocked ≤ s.nLocked ∧
      ∀ p, 0 ≤ p → p < apd.nLocked → s.clist p = apd.clist p) (G := fun _ => True)
      ⟨h, le_rfl, fun _ _ _ => rfl⟩ (fun _ _ _ => trivial) ?_ ops trivial
    rintro l s op ⟨hin, hle, hkeep⟩ -
    obtain ⟨s', hs'⟩ := slotStep_some hin k op
    have hout := slotStep_outcome k hs'
    obtain ⟨hle', hkeep'⟩ := hout.keeps hin
    refine ⟨s', hs', hout.inRange hin, hle.trans hle', fun p h₁ h₂ => ?_⟩
    rw [hkeep' p h₁ (lt_of_lt_of_le h₂ hle), hkeep p h₁ h₂]
  obtain ⟨s, hs, hin, -⟩ := hrun h ops
  obtain ⟨s', hs', hin', hle, hkeep⟩ := hrun hin ops'
  refine ⟨s, s', hs, hs', hle, hkeep, fun sys clist new hnew => ?_⟩
  obtain ⟨cap, i, -, hi, -, -, rfl⟩ := apdMergeSlots_eq_some hnew
  refine ⟨rfl, fun p h₁ h₂ => ?_⟩
  rw [Option.getD_some] at hi
  dsimp only [Option.getD_some, Filled]
  rw [Function.update_of_ne (by omega), Function.update_of_ne (by omega)]

/-- A system Clist. -/
def aSysCap : SysCap := ⟨⟨0x1000, 22⟩, by decide⟩

theorem apdZero_inRange : apdZero.InRange := ⟨by decide, by decide, by decide, by decide⟩

theorem apd_slot_locked_zero : ∃ s s',
    run (slotStep emptyKernel) apdZero [.lock 1] = some s ∧
      run (slotStep emptyKernel) s [.delete 0, .lock (-1)] = some s' ∧ s.nLocked ≤ s'.nLocked ∧
      ∀ p, 0 ≤ p → p < s.nLocked → s'.clist p = s.clist p := by
  obtain ⟨s, s', hs, hs', hle, hkeep, -⟩ :=
    apd_slot_locked emptyKernel apdZero_inRange [.lock 1] [.delete 0, .lock (-1)]
  exact ⟨s, s', hs, hs', hle, hkeep⟩

/-! ### Index safety -/

/-- All slots are counted as in use, and one that is not locked is empty. -/
def ApdDesc.Overfull (apd : ApdDesc) : Prop :=
  apd.nApd = apdMaxEntry ∧
    ∃ i, 1 ≤ i ∧ apd.nLocked ≤ i ∧ i < apdMaxEntry ∧ (apd.clist i).address = 0

/-- No index leaves the slots in the run of the calls `ops` and a copy for a PDX call then,
and the counters stay in range; so the loop of `do_validate_obj` over the slots in use stays
within the slots too. -/
def IndexSafe (k : Kernel O) (apd : ApdDesc) (ops : List SlotOp) : Prop :=
  (∀ l, l <+: ops → ∃ s, run (slotStep k) apd l = some s ∧ s.InRange) ∧
    ∀ s, run (slotStep k) apd ops = some s → ∀ sys clist,
      ∃ r, apdMergeSlots (some s) sys clist = some r ∧ ∀ new, r = some new → new.InRange

/-- The copy has its counters in range unless there are too many slots. -/
theorem merge_inRange_iff {s : ApdDesc} (h : s.InRange) :
    (∀ sys clist, ∃ r, apdMergeSlots (some s) sys clist = some r ∧
      ∀ new, r = some new → new.InRange) ↔ ¬ s.Overfull := by
  obtain ⟨h₁, h₂, h₃, h₄⟩ := h
  constructor
  · rintro hall ⟨hfull, i, hi₁, hi₂, hi₃, haddr⟩
    let cap : SysCap := ⟨⟨1, 0⟩, Nat.one_ne_zero⟩
    obtain ⟨r, hr, hin⟩ := hall (some cap) Cap.null
    -- the empty slot is found, and counted
    rcases freeSlot_spec (show 0 ≤ (Filled s cap).nLocked from h₁) with
      ⟨j, hj₁, hj₂, -, hfree⟩ | ⟨hno, -⟩
    · unfold apdMergeSlots at hr
      rw [Option.getD_some, show apdFill (some cap) s = some (Filled s cap) from rfl] at hr
      dsimp only at hr
      rw [hfree] at hr
      dsimp only at hr
      rw [ApdDesc.setSlot_in ⟨le_trans h₁ hj₁, hj₂⟩] at hr
      have hle := (hin _ (Option.some.inj hr).symm).nApd_le
      dsimp only [Filled] at hle
      rw [if_neg (by rw [hfull]; decide)] at hle
      omega
    · refine hno i hi₂ hi₃ ?_
      dsimp only [Filled]
      rwa [Function.update_of_ne (by omega)]
  · intro hnot sys clist
    obtain ⟨r, hr⟩ := apdMergeSlots_some h₁ sys clist
    refine ⟨r, hr, ?_⟩
    rintro new rfl
    obtain ⟨cap, i, -, hi, ⟨hi₀, hi₁⟩, haddr, rfl⟩ := apdMergeSlots_eq_some hr
    rw [Option.getD_some] at hi haddr ⊢
    refine ⟨h₁, h₂, ?_, ?_⟩
    · dsimp only [Filled]
      split_ifs <;> omega
    · dsimp only [Filled] at haddr ⊢
      by_cases hslot : i = 0
      · rw [hslot, Function.update_self] at haddr
        exact absurd haddr cap.2
      · rw [Function.update_of_ne hslot] at haddr
        have hfull : s.nApd ≠ apdMaxEntry := fun hfull =>
          hnot ⟨hfull, i, by omega, hi, hi₁, haddr⟩
        split_ifs
        · decide
        · omega

/-- **No index leaves the slots if and only if** the template has its counters in range, and
an empty slot is not filled while all slots are counted as in use. -/
theorem apd_slot_inRange (k : Kernel O) {pd apd : ApdDesc} {sys : Option SysCap}
    (h : apdFromTemplate k pd sys = some apd) (ops : List SlotOp) :
    IndexSafe k apd ops ↔
      pd.InRange ∧ ∀ s, run (slotStep k) apd ops = some s → ¬ s.Overfull := by
  have hpd : apd.InRange ↔ pd.InRange := by
    unfold apdFromTemplate at h
    split_ifs at h with hmax
    split at h
    · cases h
    · obtain ⟨cap, -, rfl⟩ := Option.map_eq_some_iff.mp h
      constructor
      · rintro ⟨h₁, h₂, h₃, h₄⟩
        dsimp only at h₃ h₄
        exact ⟨h₁, h₂, by split_ifs at h₃ <;> omega, by omega⟩
      · rintro ⟨h₁, h₂, h₃, h₄⟩
        refine ⟨h₁, h₂, ?_, ?_⟩
        · dsimp only
          split_ifs <;> omega
        · dsimp only
          split_ifs
          · decide
          · exact h₄
  have hrun : apd.InRange → ∀ ops, ∃ s, run (slotStep k) apd ops = some s ∧ s.InRange := by
    intro hin ops
    refine run_total (C := fun _ (s : ApdDesc) => s.InRange) (G := fun _ => True) hin
      (fun _ _ _ => trivial) (fun l s op hs _ => ?_) ops trivial
    obtain ⟨s', hs'⟩ := slotStep_some hs k op
    exact ⟨s', hs', (slotStep_outcome k hs').inRange hs⟩
  constructor
  · rintro ⟨hbegin, hmerge⟩
    obtain ⟨s₀, hs₀, hin⟩ := hbegin [] List.nil_prefix
    obtain rfl := Option.some.inj hs₀
    refine ⟨hpd.mp hin, fun s hs => ?_⟩
    obtain ⟨s', hs', hin'⟩ := hbegin ops (List.prefix_refl ops)
    obtain rfl := Option.some.inj (hs.symm.trans hs')
    exact (merge_inRange_iff hin').mp (hmerge s hs)
  · rintro ⟨hin, hnot⟩
    refine ⟨fun l _ => hrun (hpd.mpr hin) l, fun s hs => ?_⟩
    obtain ⟨s', hs', hin'⟩ := hrun (hpd.mpr hin) ops
    obtain rfl := Option.some.inj (hs.symm.trans hs')
    exact (merge_inRange_iff hin').mpr (hnot s hs)

theorem apd_slot_inRange_zero : IndexSafe emptyKernel (Filled apdZero aSysCap) [.lock (-1)] := by
  have hmade : apdFromTemplate emptyKernel apdZero (some aSysCap) = some (Filled apdZero aSysCap) :=
    rfl
  refine (apd_slot_inRange emptyKernel hmade [.lock (-1)]).mpr ⟨apdZero_inRange, ?_⟩
  rintro s ⟨⟩ ⟨hfull, -⟩
  exact absurd hfull (by decide)

/-- A template with a negative count of locked slots is accepted, and the search for an empty
slot begins in front of the slots. -/
theorem apd_template_negative : ∃ apd,
    apdFromTemplate emptyKernel { apdZero with nLocked := -1 } (some aSysCap) = some apd ∧
      ¬ apd.InRange ∧ apdMergeSlots (some apd) (some aSysCap) Cap.null = none ∧
      ¬ IndexSafe emptyKernel apd [] := by
  refine ⟨_, rfl, fun hin => absurd hin.nLocked_nonneg (by decide), by decide, ?_⟩
  rintro ⟨hbegin, -⟩
  obtain ⟨s, ⟨⟩, hin⟩ := hbegin [] List.nil_prefix
  exact absurd hin.nLocked_nonneg (by decide)

end Mungi
