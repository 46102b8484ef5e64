import Mungi.Vm.Pending

/-!
# The bounds of the table of pending faults

`save_state` looks for a free entry from the start of the overflow area on, and its loop has no
bound but a free entry.  Nothing frees an entry: of the faults saved so far, answered or not, each
one that found the entry of its page number in use has an entry of the overflow area, and when
these are `MAX_PF` the next one goes past the end of the table.

## Main definitions

* `SaveStateUses`, `PpfMapVisits` — the entries `save_state` and `ppf_map` come to.
* `PendingRun`, `pendingRunStep` — the pager with the faults saved so far.
* `PendingRun.Bounded` — a step stays in the table.
* `overflowing`, `PendingRun.Spacious` — the faults that take an entry of the overflow area, and
  the steps for which there are not too many.

## Main results

* `pendingTable_iff` — **when the pager stays in the table.**
-/

namespace Mungi

open Runs PageTables

/-! ### Runs -/

/-- The entries of the table that `save_state` reads or writes for a page. -/
inductive SaveStateUses (ppf : ℕ → PendingPf) (page : ℕ) : ℕ → Prop
  | own : SaveStateUses ppf page (page % maxPf)
  | first : (ppf (page % maxPf)).valid = true → SaveStateUses ppf page maxPf
  | next {i : ℕ} : SaveStateUses ppf page i → maxPf ≤ i → (ppf i).valid = true →
      SaveStateUses ppf page (i + 1)

/-- The entries that `ppf_map` comes to from the one a reply names. -/
inductive PpfMapVisits (ppf : ℕ → PendingPf) (off : ℕ) : ℕ → Prop
  | entry : PpfMapVisits ppf off off
  | next {i k : ℕ} : PpfMapVisits ppf off i → (ppf i).collision = some k → PpfMapVisits ppf off k

/-- `ppftable_init`: the entries of the table are cleared, what is behind it is left alone. -/
def ppftableInit (ppf : ℕ → PendingPf) (i : ℕ) : PendingPf :=
  if i < 2 * maxPf then ⟨0, 0, 0, 0, false, none⟩ else ppf i

/-- The pager, and the pages of the faults it has saved, the last first. -/
structure PendingRun where
  pending : PendingState
  saved : List ℕ

namespace PendingRun

/-- The fault is for `save_state`: the page is an ordinary one, and not in memory. -/
def Saves (t : VmSizes) (s : PendingRun) (reg0 : ℕ) : Prop :=
  rpagerPage reg0 ≠ 0 ∧ rpagerPage reg0 ≠ 2 ^ 32 - 1 ∧
    findPte t s.pending.rp.vm (rpagerPage reg0) = some none

instance (t : VmSizes) (s : PendingRun) (reg0 : ℕ) : Decidable (s.Saves t reg0) :=
  inferInstanceAs (Decidable (_ ∧ _ ∧ _))

/-- The page of the fault that a step saves. -/
def newlySaved (t : VmSizes) (s : PendingRun) : PendingOp → List ℕ
  | .fault _ _ reg0 _ => if s.Saves t reg0 then [rpagerPage reg0] else []
  | .reply _ => []

/-- **A step stays in the table**, and the search for a free entry ends; a reply is followed to
entries in use. -/
def Bounded (t : VmSizes) (s : PendingRun) : PendingOp → Prop
  | .fault faulter faultfor reg0 _ =>
    s.pending.outstanding.length < maxPf → s.Saves t reg0 →
      (∀ i, SaveStateUses s.pending.rp.ppftable (rpagerPage reg0) i → i < 2 * maxPf) ∧
        saveState s.pending.rp.ppftable faulter faultfor (rpagerPage reg0)
          (rpagerAccess reg0) ≠ none
  | .reply n => ∀ d, s.pending.requests[n]? = some d →
      ∀ i, PpfMapVisits s.pending.rp.ppftable d.off i →
        i < 2 * maxPf ∧ (s.pending.rp.ppftable i).valid = true

end PendingRun

/-- One step. -/
def pendingRunStep (t : VmSizes) (s : PendingRun) (op : PendingOp) : Option PendingRun :=
  (pendingStep t s.pending op).map fun p => ⟨p, s.newlySaved t op ++ s.saved⟩

/-- The table has been initialised. -/
def pendingRunStart (vm : PageTables) (ppf : ℕ → PendingPf) : PendingRun :=
  ⟨⟨⟨vm, ppftableInit ppf⟩, [], [], [], []⟩, []⟩

/-- How many of the saved faults found the entry of their page number in use. -/
def overflowing : List ℕ → ℕ
  | [] => 0
  | page :: saved =>
    overflowing saved + if page % maxPf ∈ saved.map (· % maxPf) then 1 else 0

/-- **There is an entry for each of the saved faults**, the one of this step included: at most
`MAX_PF` of them, answered or not, come after another one with the same entry. -/
def PendingRun.Spacious (t : VmSizes) (s : PendingRun) : PendingOp → Prop
  | .fault faulter faultfor reg0 frame => s.pending.outstanding.length < maxPf →
      overflowing (s.newlySaved t (.fault faulter faultfor reg0 frame) ++ s.saved) ≤ maxPf
  | .reply _ => True

instance (t : VmSizes) (s : PendingRun) : ∀ op, Decidable (s.Spacious t op)
  | .fault .. => inferInstanceAs (Decidable (_ → _))
  | .reply _ => .isTrue trivial

/-! ### The invariant -/

namespace PendingRun

/-- The entries in use are those of the saved faults, and links and requests lead to such. -/
structure Accounted (s : PendingRun) : Prop where
  own : ∀ i, i < maxPf → ((s.pending.rp.ppftable i).valid = true ↔ i ∈ s.saved.map (· % maxPf))
  overflow : ∀ i, maxPf ≤ i → i < 2 * maxPf →
    ((s.pending.rp.ppftable i).valid = true ↔ i < maxPf + overflowing s.saved)
  fits : overflowing s.saved ≤ maxPf
  links : ∀ i, i < 2 * maxPf → ∀ k, (s.pending.rp.ppftable i).collision = some k →
    k < 2 * maxPf ∧ (s.pending.rp.ppftable k).valid = true
  requests : ∀ d ∈ s.pending.requests,
    d.off < 2 * maxPf ∧ (s.pending.rp.ppftable d.off).valid = true

theorem accounted_start (vm : PageTables) (ppf : ℕ → PendingPf) :
    (pendingRunStart vm ppf).Accounted := by
  have hclear : ∀ i, i < 2 * maxPf → ppftableInit ppf i = ⟨0, 0, 0, 0, false, none⟩ :=
    fun i hi => if_pos hi
  refine ⟨fun i hi => ?_, fun i hle hi => ?_, Nat.zero_le _, fun i hi k hk => ?_, nofun⟩
  · have hi' : i < 2 * maxPf := by omega
    simp [pendingRunStart, hclear i hi']
  · have hge : ¬ i < maxPf := by omega
    simp [pendingRunStart, hclear i hi, overflowing, hge]
  · simp [pendingRunStart, hclear i hi] at hk

section Steps
variable {t : VmSizes} {s s' : PendingRun} {faulter faultfor page access reg0 frame j : ℕ}
  {first : Bool} {ppf : ℕ → PendingPf}

/-- The first entry of the overflow area that is not in use. -/
theorem Accounted.saveState_uses (h : s.Accounted) {i : ℕ}
    (huses : SaveStateUses s.pending.rp.ppftable page i) :
    i = page % maxPf ∨ page % maxPf ∈ s.saved.map (· % maxPf) ∧ maxPf ≤ i ∧
      (overflowing s.saved < maxPf → i ≤ maxPf + overflowing s.saved) := by
  have hown : page % maxPf < maxPf := Nat.mod_lt _ (by decide)
  induction huses with
  | own => exact Or.inl rfl
  | first hvalid => exact Or.inr ⟨(h.own _ hown).mp hvalid, Nat.le_refl _, fun _ => by omega⟩
  | @next i huses hge hvalid ih =>
    rcases ih with rfl | ⟨hin, -, hle⟩
    · omega
    · refine Or.inr ⟨hin, by omega, fun hlt => ?_⟩
      have := (h.overflow i hge (by have := hle hlt; omega)).mp hvalid
      omega

/-- `save_state` comes to every entry up to the first one that is not in use. -/
theorem saveStateUses_of_valid (hown : (ppf (page % maxPf)).valid = true) {n : ℕ}
    (hvalid : ∀ i, maxPf ≤ i → i < maxPf + n → (ppf i).valid = true) :
    SaveStateUses ppf page (maxPf + n) := by
  induction n with
  | zero => exact .first hown
  | succ n ih =>
    exact .next (ih fun i hle hlt => hvalid i hle (Nat.lt_succ_of_lt hlt)) (Nat.le_add_right ..)
      (hvalid _ (Nat.le_add_right ..) (Nat.lt_succ_self _))

/-- **Where a fault is saved**: in the entry of its page, or in the first free one of the overflow
area. -/
theorem Accounted.saved_at (h : s.Accounted)
    (hsave : saveState s.pending.rp.ppftable faulter faultfor page access = some (j, first, ppf)) :
    (j = page % maxPf ∧ page % maxPf ∉ s.saved.map (· % maxPf)) ∨
      (j = maxPf + overflowing s.saved ∧ j < 2 * maxPf ∧
        page % maxPf ∈ s.saved.map (· % maxPf)) := by
  have hown : page % maxPf < maxPf := Nat.mod_lt _ (by decide)
  rcases saveState_cases hsave with ⟨hj, -, hfree⟩ | ⟨hge, hlt, hvalid, hall, -⟩
  · refine Or.inl ⟨hj, fun hin => ?_⟩
    rw [(h.own _ hown).mpr hin] at hfree
    cases hfree
  · refine Or.inr ⟨?_, hlt, (h.own _ hown).mp hvalid⟩
    have hfree := (saveState_spec hsave).1
    have hnot : ¬ j < maxPf + overflowing s.saved := by
      intro hin
      rw [(h.overflow j hge hlt).mpr hin] at hfree
      cases hfree
    by_contra hne
    have hbefore : maxPf + overflowing s.saved < j := by omega
    have := (h.overflow _ (by omega) (by omega)).mp (hall _ (by omega) hbefore)
    omega

/-- **The invariant after a fault is saved.** -/
theorem Accounted.save (h : s.Accounted)
    (hsave : saveState s.pending.rp.ppftable faulter faultfor page access = some (j, first, ppf))
    {p : PendingState} (hppf : p.rp.ppftable = ppf) (hreq : ∀ d ∈ p.requests,
      d ∈ s.pending.requests ∨ d.off = j) : Accounted ⟨p, page :: s.saved⟩ := by
  obtain ⟨-, hj, -⟩ := saveState_spec hsave
  have hjvalid : (ppf j).valid = true := by rw [hj]
  have hown : page % maxPf < maxPf := Nat.mod_lt _ (by decide)
  have hplace := h.saved_at hsave
  have hjlt : j < 2 * maxPf := by
    rcases hplace with ⟨rfl, -⟩ | ⟨-, hlt, -⟩ <;> omega
  subst hppf
  refine ⟨fun i hi => ?_, fun i hge hi => ?_, ?_, fun i hi k hk => ?_, fun d hd => ?_⟩
  · rw [List.map_cons, List.mem_cons]
    by_cases hij : i = j
    · refine iff_of_true (hij ▸ hjvalid) ?_
      rcases hplace with ⟨rfl, -⟩ | ⟨rfl, -, -⟩
      · exact Or.inl hij
      · omega
    · rw [(saveState_others hsave hij).1, h.own i hi]
      refine (or_iff_right_of_imp ?_).symm
      rintro rfl
      rcases hplace with ⟨rfl, -⟩ | ⟨-, -, hin⟩
      · exact absurd rfl hij
      · exact hin
  · rw [overflowing]
    by_cases hij : i = j
    · refine iff_of_true (hij ▸ hjvalid) ?_
      rcases hplace with ⟨rfl, -⟩ | ⟨rfl, -, hin⟩
      · omega
      · rw [if_pos hin]
        omega
    · rw [(saveState_others hsave hij).1, h.overflow i hge hi]
      rcases hplace with ⟨rfl, hnot⟩ | ⟨rfl, -, hin⟩
      · rw [if_neg hnot]
        rfl
      · rw [if_pos hin]
        omega
  · rw [overflowing]
    rcases hplace with ⟨rfl, hnot⟩ | ⟨rfl, hlt, hin⟩
    · rw [if_neg hnot]
      exact h.fits
    · rw [if_pos hin]
      omega
  · by_cases hij : i = j
    · rw [hij, hj] at hk
      cases hk
    · rcases saveState_links hsave hij with hold | ⟨-, -, hnew⟩
      · rw [hold] at hk
        obtain ⟨hlt, hvalid⟩ := h.links i hi k hk
        exact ⟨hlt, saveState_valid hsave hvalid⟩
      · obtain rfl : j = k := Option.some.inj (hnew.symm.trans hk)
        exact ⟨hjlt, hjvalid⟩
  · rcases hreq d hd with hd | rfl
    · obtain ⟨hlt, hvalid⟩ := h.requests d hd
      exact ⟨hlt, saveState_valid hsave hvalid⟩
    · exact ⟨hjlt, hjvalid⟩

/-- The invariant is about the table of pending faults and the requests. -/
theorem Accounted.of_ppftable (h : s.Accounted) {p : PendingState}
    (hppf : p.rp.ppftable = s.pending.rp.ppftable)
    (hreq : ∀ d ∈ p.requests, d ∈ s.pending.requests) : Accounted ⟨p, s.saved⟩ := by
  refine ⟨?_, ?_, h.fits, ?_, ?_⟩
  · rw [hppf]
    exact h.own
  · rw [hppf]
    exact h.overflow
  · rw [hppf]
    exact h.links
  · rw [hppf]
    exact fun d hd => h.requests d (hreq d hd)

/-- **Every step keeps the invariant.** -/
theorem Accounted.step (h : s.Accounted) {op : PendingOp}
    (hstep : pendingRunStep t s op = some s') : s'.Accounted := by
  obtain ⟨p, hp, rfl⟩ := Option.map_eq_some_iff.mp hstep
  cases op with
  | fault faulter faultfor reg0 frame =>
    rcases fault_cases hp with ⟨heq, hppf, hnot⟩ |
      ⟨hzero, hspecial, hfind, j, first, ppf, hsave, hppf, -, -, hreq, -⟩
    · have hsaves : ¬ s.Saves t reg0 := fun hs => hnot hs.1 hs.2.1 hs.2.2
      rw [newlySaved, if_neg hsaves]
      refine h.of_ppftable hppf fun d hd => ?_
      rw [heq] at hd
      exact hd
    · rw [newlySaved, if_pos ⟨hzero, hspecial, hfind⟩]
      refine h.save hsave hppf fun d hd => ?_
      rw [hreq] at hd
      rcases List.mem_append.mp hd with hd | hd
      · exact Or.inl hd
      · cases first with
        | true => exact Or.inr (by rw [List.mem_singleton.mp hd])
        | false => exact absurd hd List.not_mem_nil
  | reply n =>
    obtain ⟨d, -, hreply⟩ := Option.bind_eq_some_iff.mp hp
    obtain ⟨r, hr, rfl⟩ := Option.map_eq_some_iff.mp hreply
    obtain ⟨x, -, rfl⟩ := Option.map_eq_some_iff.mp hr
    exact h.of_ppftable rfl fun e he => List.mem_of_mem_eraseIdx he

/-- What a reply is followed to. -/
theorem Accounted.visits (h : s.Accounted) {d : DiskMsg} (hd : d ∈ s.pending.requests) {i : ℕ}
    (hvisits : PpfMapVisits s.pending.rp.ppftable d.off i) :
    i < 2 * maxPf ∧ (s.pending.rp.ppftable i).valid = true := by
  induction hvisits with
  | entry => exact h.requests d hd
  | next _ hk ih => exact h.links _ ih.1 _ hk

/-- **A step stays in the table just when there is an entry for the fault.** -/
theorem Accounted.bounded_iff (h : s.Accounted) (op : PendingOp) :
    s.Bounded t op ↔ s.Spacious t op := by
  cases op with
  | reply n => exact iff_of_true (fun d hd i => h.visits (List.mem_of_getElem? hd)) trivial
  | fault faulter faultfor reg0 frame =>
    rw [Bounded, Spacious, newlySaved]
    refine imp_congr_right fun _ => ?_
    by_cases hsaves : s.Saves t reg0
    · have hown : rpagerPage reg0 % maxPf < maxPf := Nat.mod_lt _ (by decide)
      rw [if_pos hsaves, List.singleton_append, overflowing]
      constructor
      · intro hbounded
        obtain ⟨huses, hsave⟩ := hbounded hsaves
        split_ifs with hin
        · by_contra hfull
          have hlast := huses (maxPf + maxPf) (saveStateUses_of_valid ((h.own _ hown).mpr hin)
            fun i hle hlt => (h.overflow i hle (by omega)).mpr (by omega))
          omega
        · exact h.fits
      · intro hspace _
        constructor
        · intro i huses
          rcases h.saveState_uses huses with rfl | ⟨hin, -, hle⟩
          · omega
          · rw [if_pos hin] at hspace
            have := hle (by omega)
            omega
        · obtain ⟨r, hr⟩ : ∃ r, saveState s.pending.rp.ppftable faulter faultfor
              (rpagerPage reg0) (rpagerAccess reg0) = some r := by
            refine saveState_total fun hvalid => ?_
            rw [if_pos ((h.own _ hown).mp hvalid)] at hspace
            refine ⟨maxPf + overflowing s.saved, by omega, by omega, ?_⟩
            rw [Bool.eq_false_iff]
            intro hused
            have := (h.overflow _ (by omega) (by omega)).mp hused
            omega
          rw [hr]
          exact Option.some_ne_none r
    · rw [if_neg hsaves]
      exact iff_of_true (fun hs => absurd hs hsaves) h.fits

end Steps

end PendingRun

/-- **The pager stays in the table of pending faults**, and each search ends, just in the runs in
which at most `MAX_PF` of the saved faults come after another one with the same entry. -/
theorem pendingTable_iff (t : VmSizes) (vm : PageTables) (ppf : ℕ → PendingPf)
    (ops : List PendingOp) :
    Along (pendingRunStep t) (PendingRun.Bounded t) (pendingRunStart vm ppf) ops ↔
      Along (pendingRunStep t) (PendingRun.Spacious t) (pendingRunStart vm ppf) ops :=
  along_congr (I := PendingRun.Accounted) (fun _ op h => h.bounded_iff op)
    (fun _ _ _ h _ hstep => h.step hstep) ops _ (PendingRun.accounted_start vm ppf)

/-! ### One fault too many -/

namespace PendingRun

/-- A fault that is saved. -/
theorem pendingRunStep_fault {t : VmSizes} {s : PendingRun} {reg0 : ℕ}
    (hlt : s.pending.outstanding.length < maxPf) (hsaves : s.Saves t reg0)
    (hspace : (s.pending.rp.ppftable (rpagerPage reg0 % maxPf)).valid = true →
      ∃ k, maxPf ≤ k ∧ k < 2 * maxPf ∧ (s.pending.rp.ppftable k).valid = false)
    (faulter faultfor frame : ℕ) : ∃ p,
    pendingRunStep t s (.fault faulter faultfor reg0 frame) =
        some ⟨p, rpagerPage reg0 :: s.saved⟩ ∧
      p.outstanding.length = s.pending.outstanding.length + 1 ∧
        ∀ page, findPte t p.rp.vm page = findPte t s.pending.rp.vm page := by
  obtain ⟨⟨j, first, ppf⟩, hsave⟩ : ∃ r, saveState s.pending.rp.ppftable faulter faultfor
      (rpagerPage reg0) (rpagerAccess reg0) = some r := saveState_total hspace
  have hstep : rpagerFault t s.pending.rp faulter faultfor reg0 frame = some (.saved j first,
      ⟨if first then s.pending.rp.vm.setDirty frame 0 else s.pending.rp.vm, ppf⟩) := by
    dsimp only [rpagerFault]
    rw [if_neg hsaves.1, if_neg hsaves.2.1, hsaves.2.2, Option.bind_some, if_pos rfl, hsave]
    rfl
  have hpending : pendingStep t s.pending (.fault faulter faultfor reg0 frame) = some
      { s.pending with
        rp := ⟨if first then s.pending.rp.vm.setDirty frame 0 else s.pending.rp.vm, ppf⟩
        requests := s.pending.requests ++ if first then [⟨j, rpagerPage reg0, frame⟩] else []
        outstanding := s.pending.outstanding ++ [⟨j, faulter, faultfor, rpagerPage reg0⟩] } := by
    rw [pendingStep, if_pos hlt, hstep]
    rfl
  refine ⟨_, by rw [pendingRunStep, hpending, newlySaved, if_pos hsaves]; rfl,
    List.length_append, fun page => ?_⟩
  dsimp only
  cases first with
  | true => exact findPte_congr (read_setDirty _ _ _)
  | false => rfl

/-- `n` of the faults at the page 2053 are saved, behind one at each of the pages 5 and 1029. -/
structure Crowding (n : ℕ) (s : PendingRun) : Prop where
  accounted : s.Accounted
  outstanding : s.pending.outstanding.length = n
  saved : s.saved = List.replicate n 2053 ++ [1029, 5]
  absent : findPte smallPagers.sizes s.pending.rp.vm 2053 = some none

theorem overflowing_replicate (n : ℕ) :
    overflowing (List.replicate n 2053 ++ [1029, 5]) = n + 1 := by
  induction n with
  | zero => decide
  | succ n ih =>
    rw [List.replicate_succ, List.cons_append, overflowing, ih, if_pos]
    rw [List.map_append, List.mem_append]
    exact Or.inr (by decide)

/-- One more is saved when there is room. -/
theorem Crowding.step {n : ℕ} {s : PendingRun} (h : s.Crowding n) (hn : n < 1023) : ∃ s',
    pendingRunStep smallPagers.sizes s (.fault 7 7 (2053 * 2 ^ 12) 3) = some s' ∧
      s'.Crowding (n + 1) := by
  have hmax : maxPf = 1024 := rfl
  have hover : overflowing s.saved = n + 1 := by rw [h.saved, overflowing_replicate]
  have hfree : (s.pending.rp.ppftable (maxPf + overflowing s.saved)).valid = false := by
    rw [Bool.eq_false_iff]
    intro hused
    have := (h.accounted.overflow _ (by omega) (by omega)).mp hused
    omega
  have hsaves : s.Saves smallPagers.sizes (2053 * 2 ^ 12) := ⟨by decide, by decide, h.absent⟩
  obtain ⟨p, hstep, hlength, hfind⟩ := pendingRunStep_fault (by rw [h.outstanding]; omega) hsaves
    (fun _ => ⟨_, by omega, by omega, hfree⟩) 7 7 3
  refine ⟨_, hstep, h.accounted.step hstep, ?_, ?_, ?_⟩
  · rw [hlength, h.outstanding]
  · rw [h.saved]
    rfl
  · rw [hfind]
    exact h.absent

/-- The first fault at the page 5, one at the page 1029, and their replies. -/
def fewFaults : List PendingOp :=
  [.fault 7 7 (5 * 2 ^ 12) 1, .reply 0, .fault 7 7 (1029 * 2 ^ 12) 2, .reply 0]

/-- Any number of faults at the page 2053 up to 1023 are saved. -/
theorem crowding_reached {n : ℕ} (hn : n ≤ 1023) : ∃ s,
    run (pendingRunStep smallPagers.sizes) (pendingRunStart smallRpager.vm smallRpager.ppftable)
      (fewFaults ++ List.replicate n (.fault 7 7 (2053 * 2 ^ 12) 3)) = some s ∧
        s.Crowding n := by
  induction n with
  | zero =>
    have hrun : (run (pendingRunStep smallPagers.sizes)
        (pendingRunStart smallRpager.vm smallRpager.ppftable) fewFaults).map
          (fun s => (s.pending.outstanding.length, s.saved,
            findPte smallPagers.sizes s.pending.rp.vm 2053)) =
              some (0, [1029, 5], some none) := by decide +kernel
    obtain ⟨s, hs, hfacts⟩ := Option.map_eq_some_iff.mp hrun
    obtain ⟨hlength, hrest⟩ := Prod.mk.inj hfacts
    obtain ⟨hsaved, habsent⟩ := Prod.mk.inj hrest
    refine ⟨s, by rwa [List.replicate_zero, List.append_nil], ?_, hlength, hsaved, habsent⟩
    exact run_invariant (accounted_start _ _) (fun _ _ _ h hstep => h.step hstep) hs
  | succ n ih =>
    obtain ⟨s, hs, h⟩ := ih (Nat.le_of_succ_le hn)
    obtain ⟨s', hstep, h'⟩ := h.step hn
    refine ⟨s', ?_, h'⟩
    rw [List.replicate_succ', ← List.append_assoc, run_concat, hs]
    exact hstep

end PendingRun

/-- **The search goes past the end of the table**: two faults that are answered and 1024 that are
not, all with the same entry. -/
theorem pendingTable_not_bounded : ¬ ∀ (t : VmSizes) (vm : PageTables) (ppf : ℕ → PendingPf)
    (ops : List PendingOp),
    Along (pendingRunStep t) (PendingRun.Bounded t) (pendingRunStart vm ppf) ops := by
  intro hall
  obtain ⟨n, hn⟩ : ∃ n, n = 1023 := ⟨_, rfl⟩
  obtain ⟨s, hs, h⟩ := PendingRun.crowding_reached (Nat.le_of_eq hn)
  have hbounded := (hall smallPagers.sizes smallRpager.vm smallRpager.ppftable
    (PendingRun.fewFaults ++ List.replicate n (.fault 7 7 (2053 * 2 ^ 12) 3) ++
      .fault 7 7 (2053 * 2 ^ 12) 3 :: [])).at hs
  have hspace := (h.accounted.bounded_iff _).mp hbounded (by rw [h.outstanding, hn]; decide)
  have hsaves : s.Saves smallPagers.sizes (2053 * 2 ^ 12) := ⟨by decide, by decide, h.absent⟩
  rw [PendingRun.newlySaved, if_pos hsaves, h.saved, List.singleton_append, overflowing,
    PendingRun.overflowing_replicate, if_pos] at hspace
  · rw [hn] at hspace
    exact absurd hspace (by decide)
  · rw [List.map_append, List.mem_append]
    exact Or.inr (by decide)

end Mungi
