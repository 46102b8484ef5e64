import Mungi.ApdSlots
import Mungi.Passwd
import Mungi.PdxTable

/-!
# Where the capabilities of an APD come from

The capabilities in the slots of an APD are checked when they go in: those of a template by
`validate_cap`, those of `ApdInsert` by `validate_obj`, and the Clist of a PDX call was found
with a PDX capability.  The slots behind those in use are not checked, and come into use
when a Clist is put behind them, or counted for the Clist of a PDX call.

## Main definitions

* `ApdState` — the slots and, for the proofs only, the capabilities checked so far.
* `apdStep` — the calls that change the slots.
* `Exposes` — the slots that a call brings into use.

## Main results

* `apd_provenance` — **every slot in use was checked**, in runs whose calls bring no others
  into use.
* `apd_provenance_dormant` — a slot that was not.
-/

namespace Mungi

open Cat SearchLoop Runs

variable {O : Type}

/-! ### The code -/

/-- A validation by `validate_obj` at a time: the memory, the APD that asks and its cache, and
the readings of the clock. -/
structure Asking (O : Type) where
  kernel : Kernel O
  apd : ApdDesc
  vcache : Vcache O CapPtr
  now : ℕ
  t₁ : ℕ
  t₂ : ℕ

/-- The object and the capability that are found, `none` if access is refused; no result if
there is an object without a capability. -/
def Asking.validateObj (a : Asking O) (addr : ℕ) (access : Access) : Option (Option (O × Cap)) :=
  (doValidateObj a.kernel a.apd a.vcache addr access a.now a.t₁ a.t₂).bind fun r =>
    match r.2 with
    | (none, _) => some none
    | (some _, none) => none
    | (some o, some cap) => some (some (o, a.kernel.capAt cap))

/-- `sys_apd_insert`: the capability that it takes for the Clist. -/
def insertCap (a : Asking O) (clist : ℕ) : Option (Option Cap) :=
  (a.validateObj clist mExecute).map fun r => r.map fun found => ⟨clist, found.2.passwd⟩

/-- `sys_apd_insert` -/
def sysApdInsert (a : Asking O) (clist : ℕ) (pos : ℤ) : Option (ℕ × ApdDesc) :=
  (insertCap a clist).bind fun r =>
    match r with
    | none => some (1, a.apd)
    | some cap => apdSlotInsert a.kernel a.apd cap.address cap.passwd pos

/-- The Clist that `sys_pdx_call` finds for the entry point `proc`. -/
def pdxCallClist (a : Asking O) (proc : ℕ) : Option (Option Cap) :=
  (a.validateObj proc mPdx).map fun r =>
    r.bind fun found =>
      let clist := objectPdxGetClist (a.kernel.obj found.1) proc found.2.passwd
      if clist.address = 0 then none else some clist

/-- The slots of an APD, and the capabilities that were checked. -/
structure ApdState where
  apd : ApdDesc
  checked : List Cap

/-- The capabilities in a template that pass `validate_cap`. -/
def templateCaps (k : Kernel O) (pd : ApdDesc) : List Cap :=
  (cat (fun i => [pd.clist i]) 1 (pd.nApd - 1).toNat).filter fun cap => validateCap k cap mRead

/-- Calls that change the slots.  A PDX call may be made from another APD, with this one as
the `pd` object. -/
inductive ApdOp (O : Type) where
  | insert (kernel : Kernel O) (vcache : Vcache O CapPtr) (now t₁ t₂ : ℕ) (clist : ℕ) (pos : ℤ)
  | delete (pos : ℤ)
  | lock (pos : ℤ)
  | merge (caller : Asking O) (proc : ℕ) (sys : Option SysCap)

/-- One call.  After a PDX call it goes on with the new APD, if there is one; the old one does
not change. -/
def apdStep (s : ApdState) : ApdOp O → Option ApdState
  | .insert kernel vcache now t₁ t₂ clist pos =>
    let a : Asking O := ⟨kernel, s.apd, vcache, now, t₁, t₂⟩
    (sysApdInsert a clist pos).map fun r =>
      ⟨r.2, s.checked ++ ((insertCap a clist).join).toList⟩
  | .delete pos => (apdSlotDelete s.apd pos).map fun r => ⟨r.2, s.checked⟩
  | .lock pos => some ⟨(apdSlotLock s.apd pos).2, s.checked⟩
  | .merge caller proc sys =>
    (pdxCallClist caller proc).bind fun r =>
      match r with
      | none => some s
      | some clist =>
        (apdMergeSlots (some s.apd) sys clist).map fun new =>
          match new with
          | none => s
          | some new => ⟨new, s.checked ++ [clist]⟩

/-! ### The condition -/

/-- Slot `i` is empty or was checked. -/
def ApdState.Clean (s : ApdState) (i : ℤ) : Prop :=
  (s.apd.clist i).address = 0 ∨ s.apd.clist i ∈ s.checked

/-- The slots in use, but for the system Clist in slot 0. -/
def ApdState.AllClean (s : ApdState) : Prop := ∀ i, 1 ≤ i → i < s.apd.nApd → s.Clean i

/-- Slot `i` is brought into use by a call: it lies behind the slots in use and in front of
the place of a new Clist, or is the next one when a slot is counted for the Clist of a PDX
call, or is slot 0 and is moved by an insertion. -/
inductive Exposes (s : ApdState) : ApdOp O → ℤ → Prop where
  | before {kernel vcache now t₁ t₂ clist pos} (i : ℤ) (pos_le : 1 ≤ i) (unused : s.apd.nApd ≤ i)
      (lt : i < pos) (unlocked : s.apd.nLocked ≤ pos) :
      Exposes s (.insert kernel vcache now t₁ t₂ clist pos) i
  | first {kernel vcache now t₁ t₂ clist} (used : 1 < s.apd.nApd) (unlocked : s.apd.nLocked ≤ 0) :
      Exposes s (.insert kernel vcache now t₁ t₂ clist 0) 0
  | next {caller proc sys} (n : ℤ) (count : n = if s.apd.nApd = 0 then 1 else s.apd.nApd)
      (used : 1 ≤ n) (p : ℤ) (unlocked : s.apd.nLocked ≤ p) (lt : p < apdMaxEntry)
      (empty : (s.apd.clist p).address = 0) : Exposes s (.merge caller proc sys) n

/-- **A call that brings only slots into use that are empty or were checked.** -/
def Tidy (s : ApdState) (op : ApdOp O) : Prop := ∀ i, Exposes s op i → s.Clean i

/-! ### One call -/

section Step
variable {s s' : ApdState} {op : ApdOp O}

/-- What was checked stays so. -/
theorem ApdState.Clean.mono {i j : ℤ} (h : s.Clean i) (hslot : s'.apd.clist j = s.apd.clist i)
    (hsub : s.checked ⊆ s'.checked) : s'.Clean j := by
  unfold ApdState.Clean
  rw [hslot]
  exact h.imp_right fun hmem => hsub hmem

/-- An insertion, of a capability that was checked. -/
theorem ApdState.AllClean.insert (h : s.AllClean) {k : Kernel O} {cap : Cap} {pos : ℤ}
    (hbefore : ∀ i, 1 ≤ i → s.apd.nApd ≤ i → i < pos → s.apd.nLocked ≤ pos → s.Clean i)
    (hfirst : 1 < s.apd.nApd → s.apd.nLocked ≤ 0 → pos = 0 → s.Clean 0)
    (hsub : s.checked ⊆ s'.checked) (hcap : cap ∈ s'.checked)
    (hout : SlotOutcome k s.apd (.insert k.clist cap.address cap.passwd pos) s'.apd) :
    s'.AllClean := by
  intro i h₁ h₂
  generalize hop : SlotOp.insert k.clist cap.address cap.passwd pos = op at hout
  generalize hapd : s'.apd = apd' at hout h₂
  cases hout with
  | same op => exact (h i h₁ h₂).mono (by rw [hapd]) hsub
  | deleted pos lt unlocked => cases hop
  | locked pos n le le_max => cases hop
  | inserted clists clist passwd pos isClist nonneg lt free unlocked =>
    obtain ⟨-, rfl, rfl, rfl⟩ := SlotOp.insert.inj hop
    dsimp only at h₂
    have hslot : s'.apd.clist i = if i = pos then ⟨cap.address, cap.passwd⟩
        else if pos < i ∧ i ≤ s.apd.nApd then s.apd.clist (i - 1) else s.apd.clist i := by
      rw [hapd]
    by_cases hi : i = pos
    · rw [if_pos hi] at hslot
      exact Or.inr (hslot ▸ hcap)
    rw [if_neg hi] at hslot
    by_cases hmoved : pos < i ∧ i ≤ s.apd.nApd
    · rw [if_pos hmoved] at hslot
      by_cases hzero : i = 1
      · -- slot 0 has been moved to slot 1
        subst hzero
        exact (hfirst (by omega) (by omega) (by omega)).mono hslot hsub
      · exact (h (i - 1) (by omega) (by omega)).mono hslot hsub
    · rw [if_neg hmoved] at hslot
      by_cases hused : i < s.apd.nApd
      · exact (h i h₁ hused).mono hslot hsub
      · exact (hbefore i h₁ (by omega) (by omega) unlocked).mono hslot hsub

theorem ApdState.AllClean.delete (h : s.AllClean) {k : Kernel O} {pos : ℤ}
    (hchecked : s'.checked = s.checked) (hout : SlotOutcome k s.apd (.delete pos) s'.apd) :
    s'.AllClean := by
  intro i h₁ h₂
  have hsub : s.checked ⊆ s'.checked := by rw [hchecked]; exact List.Subset.refl _
  generalize hapd : s'.apd = apd' at hout h₂
  cases hout with
  | same op => exact (h i h₁ h₂).mono (by rw [hapd]) hsub
  | deleted pos lt unlocked =>
    dsimp only at h₂
    have hslot : s'.apd.clist i = if i = s.apd.nApd - 1 then Cap.null
        else if pos ≤ i ∧ i < s.apd.nApd - 1 then s.apd.clist (i + 1) else s.apd.clist i := by
      rw [hapd]
    rw [if_neg (by omega)] at hslot
    by_cases hmoved : pos ≤ i ∧ i < s.apd.nApd - 1
    · rw [if_pos hmoved] at hslot
      exact (h (i + 1) (by omega) (by omega)).mono hslot hsub
    · rw [if_neg hmoved] at hslot
      exact (h i h₁ (by omega)).mono hslot hsub

theorem ApdState.AllClean.lock (h : s.AllClean) {k : Kernel O} {pos : ℤ}
    (hchecked : s'.checked = s.checked) (hout : SlotOutcome k s.apd (.lock pos) s'.apd) :
    s'.AllClean := by
  intro i h₁ h₂
  have hsub : s.checked ⊆ s'.checked := by rw [hchecked]; exact List.Subset.refl _
  generalize hapd : s'.apd = apd' at hout h₂
  cases hout with
  | same op => exact (h i h₁ h₂).mono (by rw [hapd]) hsub
  | locked pos n le le_max => exact (h i h₁ h₂).mono (by rw [hapd]) hsub

/-- **A tidy call keeps the slots in use clean.** -/
theorem ApdState.AllClean.step (h : s.AllClean) (htidy : Tidy s op)
    (hstep : apdStep s op = some s') : s'.AllClean := by
  cases op with
  | insert kernel vcache now t₁ t₂ clist pos =>
    obtain ⟨⟨ret, apd⟩, hins, rfl⟩ := Option.map_eq_some_iff.mp hstep
    obtain ⟨r, hr, hrest⟩ := Option.bind_eq_some_iff.mp hins
    cases r with
    | none =>
      obtain ⟨-, rfl⟩ := Prod.mk.inj (Option.some.inj hrest)
      exact fun i h₁ h₂ => (h i h₁ h₂).mono rfl (List.subset_append_left ..)
    | some cap =>
      have hout : SlotOutcome kernel s.apd (.insert kernel.clist cap.address cap.passwd pos) apd :=
        slotStep_outcome kernel (Option.map_eq_some_iff.mpr ⟨(ret, apd), hrest, rfl⟩)
      refine h.insert (fun i h₁ h₂ h₃ h₄ => ?_) ?_ ?_ ?_ hout
      · exact htidy i (.before i h₁ h₂ h₃ h₄)
      · rintro h₁ h₂ rfl
        exact htidy 0 (.first h₁ h₂)
      · exact List.subset_append_left ..
      · dsimp only
        rw [hr]
        simp
  | delete pos =>
    obtain ⟨⟨ret, apd⟩, hdel, rfl⟩ := Option.map_eq_some_iff.mp hstep
    have hout : SlotOutcome emptyKernel s.apd (.delete pos) apd :=
      slotStep_outcome emptyKernel (Option.map_eq_some_iff.mpr ⟨(ret, apd), hdel, rfl⟩)
    exact h.delete rfl hout
  | lock pos =>
    obtain rfl := Option.some.inj hstep
    have hout : SlotOutcome emptyKernel s.apd (.lock pos) (apdSlotLock s.apd pos).2 :=
      slotStep_outcome emptyKernel rfl
    exact h.lock rfl hout
  | merge caller proc sys =>
    obtain ⟨r, -, hrest⟩ := Option.bind_eq_some_iff.mp hstep
    cases r with
    | none =>
      obtain rfl := Option.some.inj hrest
      exact h
    | some clist =>
      obtain ⟨new, hnew, hs'⟩ := Option.map_eq_some_iff.mp hrest
      cases new with
      | none =>
        obtain rfl : s = s' := hs'
        exact h
      | some new =>
        obtain rfl : (⟨new, s.checked ++ [clist]⟩ : ApdState) = s' := hs'
        obtain ⟨cap, p, -, hle, ⟨hp₀, hp₁⟩, hempty, rfl⟩ := apdMergeSlots_eq_some hnew
        rw [Option.getD_some] at hle hempty
        have hslot : ∀ i, 1 ≤ i → (Filled s.apd cap).clist i = s.apd.clist i := fun i hi =>
          Function.update_of_ne (by omega) _ _
        -- slot 0 has just been filled
        have hp : 1 ≤ p := by
          by_contra hlt
          obtain rfl : p = 0 := by omega
          exact cap.2 hempty
        rw [hslot p hp] at hempty
        intro i h₁ h₂
        by_cases hi : i = p
        · refine Or.inr (List.mem_append_right _ (List.mem_singleton.mpr ?_))
          rw [hi]
          exact Function.update_self ..
        have hclean : s.Clean i := by
          change i < (if s.apd.nApd = 0 then 1 else s.apd.nApd) + 1 at h₂
          by_cases hused : i < s.apd.nApd
          · exact h i h₁ hused
          · have hnext : i = if s.apd.nApd = 0 then 1 else s.apd.nApd := by
              split_ifs at h₂ ⊢ <;> omega
            exact htidy i (.next i hnext h₁ p hle hp₁ hempty)
        refine hclean.mono ?_ (List.subset_append_left ..)
        exact (Function.update_of_ne hi _ _).trans (hslot i h₁)

end Step

/-! ### Runs -/

/-- The capabilities of a template that is accepted pass `validate_cap`. -/
theorem allClean_template {k : Kernel O} {pd apd : ApdDesc} {sys : Option SysCap}
    (h : apdFromTemplate k pd sys = some apd) : (ApdState.mk apd (templateCaps k pd)).AllClean := by
  unfold apdFromTemplate at h
  split_ifs at h with hmax
  split at h
  · cases h
  rename_i hall
  obtain ⟨cap, -, rfl⟩ := Option.map_eq_some_iff.mp h
  intro i h₁ h₂
  have hlt : i < 1 + (pd.nApd - 1).toNat := by
    dsimp only at h₂
    split_ifs at h₂ <;> omega
  refine Or.inr ?_
  change Function.update pd.clist 0 cap.1 i ∈ templateCaps k pd
  rw [Function.update_of_ne (by omega)]
  refine List.mem_filter.mpr ⟨mem_cat_of_mem h₁ hlt (List.mem_singleton_self _), ?_⟩
  by_contra hbad
  have hnone := findUp_eq_none.mp hall i h₁ hlt
  rw [if_neg hbad] at hnone
  cases hnone

/-- **Every slot in use was checked**, but for the system Clist in slot 0, in all runs of tidy
calls on an APD made from any template; so validation looks at no other Clists. -/
theorem apd_provenance {k : Kernel O} {pd apd : ApdDesc} {sys : Option SysCap}
    (h : apdFromTemplate k pd sys = some apd) {ops : List (ApdOp O)}
    (htidy : Along apdStep Tidy ⟨apd, templateCaps k pd⟩ ops) {s : ApdState}
    (hrun : run apdStep ⟨apd, templateCaps k pd⟩ ops = some s) :
    (∀ i, 1 ≤ i → i < s.apd.nApd →
      (s.apd.clist i).address = 0 ∨ s.apd.clist i ∈ s.checked) ∧
    ∀ (k' : Kernel O) obj cap, cap ∈ k'.candidates s.apd obj →
      cap.clist = (s.apd.clist 0).address ∨ ∃ c ∈ s.checked, c.address = cap.clist := by
  have hclean : s.AllClean := run_invariant_along (I := ApdState.AllClean)
    (fun _ _ _ hs htidy hstep => hs.step htidy hstep) ops _ s (allClean_template h) htidy hrun
  refine ⟨hclean, fun k' obj cap hcap => ?_⟩
  obtain ⟨i, h₁, h₂, hi⟩ := exists_of_mem_cat hcap
  dsimp only at hi
  split_ifs at hi with hclist
  · cases hi
  obtain ⟨j, -, -, hj⟩ := exists_of_mem_cat hi
  split_ifs at hj with hin
  · obtain rfl := List.mem_singleton.mp hj
    by_cases hzero : i = 0
    · exact Or.inl (by rw [hzero])
    · rcases hclean i (by omega) (by omega) with hempty | hmem
      · exact absurd (Or.inl hempty) hclist
      · exact Or.inr ⟨_, hmem, rfl⟩
  · cases hj

/-- A kernel with one object, and everything in it a Clist with a capability for it. -/
def clistKernel : Kernel ℕ := freshKernel.withClists freshClist

/-- A template that has a Clist behind the slots in use. -/
def dormantTemplate : ApdDesc := ⟨Function.update (fun _ => Cap.null) 1 ⟨0x9000, 7⟩, 0, 1⟩

/-- A Clist that the APD may use goes into slot `pos`. -/
def insertAt (pos : ℤ) : ApdOp ℕ := .insert clistKernel vcacheNew 5 5 5 0x2000 pos

theorem apd_provenance_dormantTemplate : ∃ s,
    run apdStep ⟨Filled dormantTemplate aSysCap, templateCaps clistKernel dormantTemplate⟩
        [insertAt 1, .lock (-1)] = some s ∧
      ∀ i, 1 ≤ i → i < s.apd.nApd → (s.apd.clist i).address = 0 ∨ s.apd.clist i ∈ s.checked := by
  have hmade : apdFromTemplate clistKernel dormantTemplate (some aSysCap)
    = some (Filled dormantTemplate aSysCap) := rfl
  have htidy : Along apdStep Tidy
      ⟨Filled dormantTemplate aSysCap, templateCaps clistKernel dormantTemplate⟩
      [insertAt 1, .lock (-1)] := by
    refine ⟨?_, ?_⟩
    · rintro i hexp
      cases hexp with
      | before i pos_le unused lt unlocked => omega
    · rintro s' -
      refine ⟨?_, fun _ _ => trivial⟩
      rintro i ⟨⟩
  exact ⟨_, rfl, (apd_provenance hmade htidy rfl).1⟩

/-- With the Clist in slot 2, slot 1 is in use as well. -/
theorem apd_provenance_dormant : ∃ apd s,
    apdFromTemplate clistKernel dormantTemplate (some aSysCap) = some apd ∧
      run apdStep ⟨apd, templateCaps clistKernel dormantTemplate⟩ [insertAt 2] = some s ∧
      1 < s.apd.nApd ∧ s.apd.clist 1 = ⟨0x9000, 7⟩ ∧ ⟨0x9000, 7⟩ ∉ s.checked ∧
      validateCap clistKernel ⟨0x9000, 7⟩ mRead = false ∧
      (⟨0x9000, 0⟩ : CapPtr) ∈ clistKernel.candidates s.apd (clistKernel.obj 1) :=
  ⟨_, _, rfl, rfl, by decide, by decide, by decide, by decide, by decide⟩

end Mungi
