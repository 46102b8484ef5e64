import Mungi.Vm.PageTable

/-!
# The RAM pager

The RAM pager answers page faults (`rpager.c`).  A page that the page table knows is mapped
at once.  For any other the fault is saved in the table of pending page faults and the page
is requested from the disk thread, whose reply names the entry the request came from.

The first half of the table is indexed by the page number; an entry of the second half, the
overflow area, is taken when the entry of the page is in use.  The reply looks at the entry
it names and at those behind its `collision` pointer.

## Main definitions

* `PendingPf`, `Rpager` — pending page faults, and the state of the pager.
* `saveState` — `save_state`.
* `mapPage`, `ppfMap` — `map_page` and `ppf_map`.
* `rpagerFault`, `rpagerReply` — the main loop at a fault, and at a reply of the disk thread.

## Main results

* `pagenum_of_addPte` — the entry `add_pte` returns is that of the page.
* `saveState_spec` — what `save_state` does.
-/

namespace Mungi

open PageTables

/-- `MAX_PF`; the table has twice as many entries. -/
def maxPf : ℕ := 1024

/-- `pending_pf_t` -/
structure PendingPf where
  faulter : ℕ
  faultfor : ℕ
  faultPage : ℕ
  access : ℕ
  valid : Bool
  /-- A pointer into the table. -/
  collision : Option ℕ
  deriving DecidableEq, Repr

/-- The state of the RAM pager. -/
structure Rpager where
  vm : PageTables
  ppftable : ℕ → PendingPf

/-- The message of `map_page`: an fpage, and what the registers say of it. -/
structure MapMsg where
  /-- The thread it is sent to. -/
  dest : ℕ
  /-- `msg.reg[0]`, the address of the page. -/
  addr : ℕ
  /-- The frame of the fpage in `msg.reg[1]`. -/
  frame : ℕ
  /-- The fpage is `L4_FPAGE_RW`. -/
  writable : Bool
  /-- `msg.reg[2]` -/
  faultfor : ℕ
  deriving DecidableEq, Repr

/-! ### Pending faults -/

/-- The scan of the overflow area in `save_state`, from `i` on: the first entry that is not in
use, and whether the page was seen before it.  None outside the table. -/
def scanFree (ppf : ℕ → PendingPf) (page : ℕ) : ℕ → ℕ → Bool → Option (ℕ × Bool)
  | 0, _, _ => none
  | fuel + 1, i, seen =>
    if (ppf i).valid then
      scanFree ppf page fuel (i + 1) (seen || decide ((ppf i).faultPage = page))
    else some (i, seen)

/-- `save_state`: the entry, whether the function returns it or `ALREADY_REQUESTED`, and the
table. -/
def saveState (ppf : ℕ → PendingPf) (faulter faultfor page access : ℕ) :
    Option (ℕ × Bool × (ℕ → PendingPf)) :=
  let entry : PendingPf := ⟨faulter, faultfor, page, access, true, none⟩
  let i := page % maxPf
  if (ppf i).valid then
    (scanFree ppf page maxPf maxPf false).map fun r =>
      let ppf := Function.update ppf i { ppf i with collision := some r.1 }
      (r.1, !r.2, Function.update ppf r.1 entry)
  else some (i, true, Function.update ppf i entry)

/-! ### Mapping -/

/-- `map_page`: the tables and the message.  The fpage is writable when `dirty = DIRTY` is, an
assignment.  None for a `NULL` entry, which is read in spite of the assertion. -/
def mapPage (vm : PageTables) (faulter faultfor : ℕ) (pte : Option Pte) (rw : Bool) :
    Option (PageTables × MapMsg) :=
  pte.bind fun pte => (vm.read pte).map fun u =>
    let vm := if rw then vm.setDirty u.framenum 1 else vm
    let vm := vm.setDirty u.framenum 1
    (vm, ⟨faulter, u.pagenum * 2 ^ 12 % 2 ^ 64, u.framenum, decide (vm.dirty u.framenum ≠ 0),
      faultfor⟩)

/-- The loop of `ppf_map` from an entry on: the tables, and the messages with the entries they
answer. -/
def ppfMapFrom (t : VmSizes) (ppf : ℕ → PendingPf) (page frame access : ℕ) :
    ℕ → Option ℕ → PageTables → Option (PageTables × List (ℕ × MapMsg))
  | 0, _, _ => none
  | _ + 1, none, vm => some (vm, [])
  | fuel + 1, some j, vm =>
    if (ppf j).faultPage = page then
      (addPte t vm page frame access).bind fun r =>
        (mapPage r.2 (ppf j).faulter (ppf j).faultfor r.1 true).bind fun m =>
          (ppfMapFrom t ppf page frame access fuel (ppf j).collision m.1).map fun x =>
            (x.1, (j, m.2) :: x.2)
    else ppfMapFrom t ppf page frame access fuel (ppf j).collision vm

/-- `ppf_map`.  An entry number is one of the table, except that `2 * MAX_PF` is let through. -/
def ppfMap (t : VmSizes) (s : Rpager) (off page frame : ℕ) :
    Option (PageTables × List (ℕ × MapMsg)) :=
  if 2 * maxPf < off then some (s.vm, [])
  else if off = 2 * maxPf then none
  else ppfMapFrom t s.ppftable page frame (s.ppftable off).access (2 * maxPf + 1) (some off) s.vm

/-! ### The main loop -/

/-- What the RAM pager does with a fault. -/
inductive RpagerAct where
  /-- Nothing, for page 0. -/
  | ignored
  /-- What `handle_special_mappings` does, for the page of the special addresses. -/
  | special
  /-- The page is mapped. -/
  | mapped (m : MapMsg)
  /-- The fault is saved as entry `j`, and the page requested unless it was already. -/
  | saved (j : ℕ) (request : Bool)
  deriving DecidableEq, Repr

/-- `fault_page`, a `uint32_t`. -/
def rpagerPage (reg0 : ℕ) : ℕ := reg0 / 2 ^ 12 % 2 ^ 32

/-- `access`: `msg.reg[0] & L4_FPAGE_RW_MASK`. -/
def rpagerAccess (reg0 : ℕ) : ℕ := reg0 / 2 % 2 * 2

/-- The main loop at a fault.  `frame` is what `alloc_frame` has for a request. -/
def rpagerFault (t : VmSizes) (s : Rpager) (faulter faultfor reg0 frame : ℕ) :
    Option (RpagerAct × Rpager) :=
  let page := rpagerPage reg0
  let access := rpagerAccess reg0
  if page = 0 then some (.ignored, s)
  else if page = 2 ^ 32 - 1 then some (.special, s)
  else
    (findPte t s.vm page).bind fun pte =>
      if pte = none then
        (saveState s.ppftable faulter faultfor page access).map fun r =>
          (.saved r.1 r.2.1, ⟨if r.2.1 then s.vm.setDirty frame 0 else s.vm, r.2.2⟩)
      else
        (mapPage s.vm faulter faultfor pte (decide (access ≠ 0))).map fun r =>
          (.mapped r.2, { s with vm := r.1 })

/-- `handle_mpr_message` for a `READ_REPLY`: the state, and the messages with their entries. -/
def rpagerReply (t : VmSizes) (s : Rpager) (off page frame : ℕ) :
    Option (Rpager × List (ℕ × MapMsg)) :=
  (ppfMap t s off page frame).map fun r => ({ s with vm := r.1 }, r.2)

/-! ### What the functions do -/

section Spec
variable {t : VmSizes} {vm vm' : PageTables} {p : Pte}

theorem read_setDirty (vm : PageTables) (pfno mode : ℕ) (p : Pte) :
    (vm.setDirty pfno mode).read p = vm.read p := by
  cases p <;> rfl

/-- The entry `add_pte` returns is that of the page. -/
theorem pagenum_of_addPte {vpno pfno mode : ℕ}
    (h : addPte t vm vpno pfno mode = some (some p, vm')) :
    ∃ u, vm'.read p = some u ∧ u.pagenum = vpno % 2 ^ 36 ∧ u.framenum = pfno % 2 ^ 20 := by
  dsimp only [addPte] at h
  by_cases hf : t.maxFtable ≤ pfno
  · rw [if_pos hf] at h
    cases h
  rw [if_neg hf] at h
  by_cases hvalid : (vm.ptable (vpno % t.maxPtable)).valid ≠ pteValid
  · rw [if_pos hvalid] at h
    obtain ⟨hp, rfl⟩ := Prod.mk.inj (Option.some.inj h)
    rw [← Option.some.inj hp]
    exact ⟨_, by rw [read_write, if_pos rfl], rfl, rfl⟩
  rw [if_neg hvalid] at h
  unfold addCollision at h
  split at h
  · cases h
  rename_i freeHead hhead
  dsimp only at h
  by_cases hend : freeHead.next = t.maxCtable
  · rw [if_pos hend] at h
    cases h
  rw [if_neg hend] at h
  split at h
  · cases h
  rename_i new hnew
  split at h
  · cases h
  obtain ⟨r, -, h⟩ := Option.bind_eq_some_iff.mp h
  obtain ⟨vm₁, hlink, heq⟩ := Option.map_eq_some_iff.mp h
  obtain ⟨hp, rfl⟩ := Prod.mk.inj heq
  rw [← Option.some.inj hp]
  obtain ⟨u, hu, rfl⟩ := Option.map_eq_some_iff.mp hlink
  -- the entry it links in behind is in use, the new one was not
  have hne : Pte.entry freeHead.next ≠ r.1.getD r.2 := by
    intro heq
    rw [← heq, read_setDirty, read_setFree hhead, PageTables.read, hnew] at hu
    cases hu
  exact ⟨_, by rw [read_write, if_neg hne, read_write, if_pos rfl], rfl, rfl⟩

/-- What `map_page` sends. -/
theorem mapPage_spec {faulter faultfor : ℕ} {pte : Option Pte} {rw : Bool} {m : MapMsg}
    (h : mapPage vm faulter faultfor pte rw = some (vm', m)) :
    ∃ p u, pte = some p ∧ vm.read p = some u ∧ m.dest = faulter ∧ m.faultfor = faultfor ∧
      m.addr = u.pagenum * 2 ^ 12 % 2 ^ 64 ∧ m.frame = u.framenum ∧
      ∀ q, vm'.read q = vm.read q := by
  obtain ⟨p, rfl, h⟩ := Option.bind_eq_some_iff.mp h
  obtain ⟨u, hu, heq⟩ := Option.map_eq_some_iff.mp h
  obtain ⟨rfl, rfl⟩ := Prod.mk.inj heq
  refine ⟨p, u, rfl, hu, rfl, rfl, rfl, rfl, fun q => ?_⟩
  rw [read_setDirty]
  split
  · exact read_setDirty ..
  · rfl

/-- The messages of `ppf_map`: each is for an entry of the page. -/
theorem ppfMapFrom_spec {ppf : ℕ → PendingPf} {page frame access fuel : ℕ} {o : Option ℕ}
    {ms : List (ℕ × MapMsg)} (h : ppfMapFrom t ppf page frame access fuel o vm = some (vm', ms)) :
    ∀ x ∈ ms, (ppf x.1).faultPage = page ∧ x.2.dest = (ppf x.1).faulter ∧
      x.2.faultfor = (ppf x.1).faultfor ∧ x.2.addr = page % 2 ^ 36 * 2 ^ 12 % 2 ^ 64 ∧
      x.2.frame = frame % 2 ^ 20 := by
  induction fuel generalizing o vm ms with
  | zero => cases h
  | succ fuel ih =>
    cases o with
    | none =>
      obtain ⟨-, rfl⟩ := Prod.mk.inj (Option.some.inj h)
      simp
    | some j =>
      rw [ppfMapFrom] at h
      by_cases hpage : (ppf j).faultPage = page
      · rw [if_pos hpage] at h
        obtain ⟨⟨pte, vm₁⟩, hadd, h⟩ := Option.bind_eq_some_iff.mp h
        obtain ⟨⟨vm₂, m⟩, hmap, h⟩ := Option.bind_eq_some_iff.mp h
        obtain ⟨⟨vm₃, ms'⟩, hrest, heq⟩ := Option.map_eq_some_iff.mp h
        obtain ⟨rfl, rfl⟩ := Prod.mk.inj heq
        obtain ⟨p, u, rfl, hu, hdest, hfor, haddr, hframe, -⟩ := mapPage_spec hmap
        obtain ⟨u', hu', hpagenum, hframenum⟩ := pagenum_of_addPte hadd
        obtain rfl : u' = u := Option.some.inj (hu'.symm.trans hu)
        intro x hx
        rcases List.mem_cons.mp hx with rfl | hx
        · exact ⟨hpage, hdest, hfor, by rw [haddr, hpagenum], by rw [hframe, hframenum]⟩
        · exact ih hrest x hx
      · rw [if_neg hpage] at h
        exact ih h

end Spec

section Save
variable {ppf : ℕ → PendingPf} {page fuel i j : ℕ} {seen seen' : Bool}

/-- Where the scan of the overflow area ends, and what it has seen. -/
theorem scanFree_spec (h : scanFree ppf page fuel i seen = some (j, seen')) :
    i ≤ j ∧ j < i + fuel ∧ (ppf j).valid = false ∧ (∀ k, i ≤ k → k < j → (ppf k).valid = true) ∧
      (seen' = true ↔ seen = true ∨ ∃ k, i ≤ k ∧ k < j ∧ (ppf k).faultPage = page) := by
  induction fuel generalizing i seen with
  | zero => cases h
  | succ fuel ih =>
    rw [scanFree] at h
    cases hvalid : (ppf i).valid with
    | true =>
      rw [hvalid, if_pos rfl] at h
      obtain ⟨h₁, h₂, h₃, h₄, h₅⟩ := ih h
      refine ⟨by omega, by omega, h₃, fun k hle hlt => ?_, ?_⟩
      · rcases Nat.eq_or_lt_of_le hle with rfl | hlt'
        · exact hvalid
        · exact h₄ k hlt' hlt
      · rw [h₅, Bool.or_eq_true, decide_eq_true_eq, or_assoc]
        apply or_congr_right
        constructor
        · rintro (hpage | ⟨k, hle, hlt, hpage⟩)
          · exact ⟨i, Nat.le_refl i, by omega, hpage⟩
          · exact ⟨k, by omega, hlt, hpage⟩
        · rintro ⟨k, hle, hlt, hpage⟩
          rcases Nat.eq_or_lt_of_le hle with rfl | hlt'
          · exact Or.inl hpage
          · exact Or.inr ⟨k, hlt', hlt, hpage⟩
    | false =>
      rw [hvalid, if_neg (by simp)] at h
      obtain ⟨rfl, rfl⟩ := Prod.mk.inj (Option.some.inj h)
      refine ⟨Nat.le_refl i, by omega, hvalid, fun k hle hlt => by omega, ?_⟩
      constructor
      · exact Or.inl
      · rintro (hseen | ⟨k, hle, hlt, -⟩)
        · exact hseen
        · omega

/-- What `save_state` does: it fills an entry that was not in use and changes others only in
`collision`. -/
theorem saveState_spec {faulter faultfor access : ℕ} {first : Bool} {ppf' : ℕ → PendingPf}
    (h : saveState ppf faulter faultfor page access = some (j, first, ppf')) :
    (ppf j).valid = false ∧ ppf' j = ⟨faulter, faultfor, page, access, true, none⟩ ∧
      ∀ k, k ≠ j → ppf' k = { ppf k with collision := (ppf' k).collision } := by
  dsimp only [saveState] at h
  split at h
  · rename_i hvalid
    obtain ⟨r, hr, heq⟩ := Option.map_eq_some_iff.mp h
    obtain ⟨rfl, hrest⟩ := Prod.mk.inj heq
    obtain ⟨-, rfl⟩ := Prod.mk.inj hrest
    obtain ⟨-, -, hfree, -⟩ := scanFree_spec hr
    refine ⟨hfree, Function.update_self .., fun k hk => ?_⟩
    rw [Function.update_of_ne hk]
    by_cases hki : k = page % maxPf
    · subst hki
      rw [Function.update_self]
    · rw [Function.update_of_ne hki]
  · rename_i hvalid
    obtain ⟨rfl, hrest⟩ := Prod.mk.inj (Option.some.inj h)
    obtain ⟨-, rfl⟩ := Prod.mk.inj hrest
    refine ⟨by simpa using hvalid, Function.update_self .., fun k hk => ?_⟩
    rw [Function.update_of_ne hk]

end Save

end Mungi
