import Mungi.Vm.Mappings
import Mathlib.Data.List.Nodup
import Mathlib.Data.List.Perm.Subperm

/-!
# Pending page faults

The faults the RAM pager has saved wait for the reply of the disk thread.  A saved fault is to
be answered once, with the frame of its page, when the reply for the page arrives; a page is
requested once, and enters the page table once; and the entry of a fault that was answered is
free again.

The last is never so, since nothing clears `valid`.  The rest holds as long as a page faults
once: a second fault finds no trace of the first one where that is in the entry of the page
number, and two faults that did hang together would both enter the page.

## Main definitions

* `PendingState`, `pendingStep` — the pager, the requests under way and the saved faults.
* `PendingState.Answered` — what is to hold of the faults and requests.
* `PendingState.Available` — entries that are not waited for are free.

## Main results

* `pending_iff` — **when pending faults are treated as they should be.**
-/

namespace Mungi

open Runs PageTables

/-- A fault saved in an entry of the table. -/
structure SavedFault where
  slot : ℕ
  faulter : ℕ
  faultfor : ℕ
  page : ℕ
  deriving DecidableEq, Repr

/-- An answer to a saved fault. -/
structure PageAnswer where
  dest : ℕ
  faultfor : ℕ
  addr : ℕ
  frame : ℕ
  deriving DecidableEq, Repr

/-- What a message of `map_page` answers. -/
def MapMsg.answer (m : MapMsg) : PageAnswer := ⟨m.dest, m.faultfor, m.addr, m.frame⟩

/-- The answer a saved fault is due when its page is in the frame. -/
def SavedFault.due (x : SavedFault) (frame : ℕ) : PageAnswer :=
  ⟨x.faulter, x.faultfor, x.page * 2 ^ 12, frame⟩

/-- The RAM pager, and what it has to do. -/
structure PendingState where
  rp : Rpager
  /-- The requests whose reply has not arrived. -/
  requests : List DiskMsg
  /-- The saved faults that wait for a reply. -/
  outstanding : List SavedFault
  /-- The answers `ppf_map` has sent. -/
  answers : List PageAnswer
  /-- The pages `add_pte` was called for. -/
  added : List ℕ

/-- What happens next. -/
inductive PendingOp where
  /-- A fault arrives; `frame` is what `alloc_frame` has for a request. -/
  | fault (faulter faultfor reg0 frame : ℕ)
  /-- The reply to one of the requests arrives. -/
  | reply (n : ℕ)

/-- One step. -/
def pendingStep (t : VmSizes) (s : PendingState) : PendingOp → Option PendingState
  | .fault faulter faultfor reg0 frame =>
    if s.outstanding.length < maxPf then
      (rpagerFault t s.rp faulter faultfor reg0 frame).map fun r =>
        match r.1 with
        | .saved j request =>
          { s with
            rp := r.2
            requests := s.requests ++ if request then [⟨j, rpagerPage reg0, frame⟩] else []
            outstanding := s.outstanding ++ [⟨j, faulter, faultfor, rpagerPage reg0⟩] }
        | _ => { s with rp := r.2 }
    else none
  | .reply n =>
    s.requests[n]?.bind fun d =>
      (rpagerReply t s.rp d.off d.page d.frame).map fun r =>
        { rp := r.1
          requests := s.requests.eraseIdx n
          outstanding := s.outstanding.filter fun x => decide (x.page ≠ d.page)
          answers := s.answers ++ r.2.map fun x => x.2.answer
          added := s.added ++ List.replicate r.2.length d.page }

/-- The table of pending faults is clear. -/
def pendingStart (vm : PageTables) : PendingState :=
  ⟨⟨vm, fun _ => ⟨0, 0, 0, 0, false, none⟩⟩, [], [], [], []⟩

namespace PendingState

/-- Fewer than `MAX_PF` faults are outstanding; and a reply is one to a request. -/
def Enabled (s : PendingState) : PendingOp → Prop
  | .fault .. => s.outstanding.length < maxPf
  | .reply n => n < s.requests.length

/-- The answers that are due in a step. -/
def dueAnswers (s : PendingState) : PendingOp → List PageAnswer
  | .fault .. => []
  | .reply n =>
    match s.requests[n]? with
    | some d => (s.outstanding.filter fun x => decide (x.page = d.page)).map fun x => x.due d.frame
    | none => []

/-- Faults and requests: a saved fault waits for a request, a page is requested once and enters
the page table once. -/
structure Waiting (s : PendingState) : Prop where
  asked : ∀ x ∈ s.outstanding, ∃ d ∈ s.requests, d.page = x.page
  requests : (s.requests.map fun d => d.page).Nodup
  added : s.added.Nodup

/-- What a step is to do: it sends the answers that are due and no other. -/
structure Answered (s : PendingState) (op : PendingOp) (s' : PendingState) : Prop extends
    s'.Waiting where
  answers : ∃ l, s'.answers = s.answers ++ l ∧ l.Perm (s.dueAnswers op)

/-- An entry that is in use is that of a fault that waits. -/
def Available (s : PendingState) : Prop :=
  ∀ j, (s.rp.ppftable j).valid = true → ∃ x ∈ s.outstanding, x.slot = j

/-- The step is taken and does what it should. -/
def Sound (t : VmSizes) (s : PendingState) (op : PendingOp) : Prop :=
  s.Enabled op → ∃ s', pendingStep t s op = some s' ∧ s.Answered op s' ∧ s'.Available

/-- The step is taken and does what it should, but for the entries it leaves in use. -/
def SoundOnce (t : VmSizes) (s : PendingState) (op : PendingOp) : Prop :=
  s.Enabled op → ∃ s', pendingStep t s op = some s' ∧ s.Answered op s'

/-- No reply arrives; `find_pte` returns; and a page that waits in the entry of its number, if it
faults again, waits in the overflow area as well. -/
def Fits (t : VmSizes) (s : PendingState) : PendingOp → Prop
  | .fault _ _ reg0 _ =>
    let page := rpagerPage reg0
    s.outstanding.length < maxPf → page ≠ 0 → page ≠ 2 ^ 32 - 1 →
      findPte t s.rp.vm page ≠ none ∧
        (findPte t s.rp.vm page = some none → (s.rp.ppftable (page % maxPf)).valid = true →
          (s.rp.ppftable (page % maxPf)).faultPage = page →
            ∃ k, maxPf ≤ k ∧ k < 2 * maxPf ∧ (s.rp.ppftable k).valid = true ∧
              (s.rp.ppftable k).faultPage = page)
  | .reply n => ¬ n < s.requests.length

/-- `find_pte` returns; a page that faults has no entry, and there is a free one for it; and
`add_pte` has room for the page of a reply, in a frame of the page table's 20 bits. -/
def FitsOnce (t : VmSizes) (s : PendingState) : PendingOp → Prop
  | .fault _ _ reg0 _ =>
    let page := rpagerPage reg0
    s.outstanding.length < maxPf → page ≠ 0 → page ≠ 2 ^ 32 - 1 →
      findPte t s.rp.vm page ≠ none ∧
        (findPte t s.rp.vm page = some none →
          (∀ j, (s.rp.ppftable j).valid = true → (s.rp.ppftable j).faultPage ≠ page) ∧
            ((s.rp.ppftable (page % maxPf)).valid = true →
              ∃ k, maxPf ≤ k ∧ k < 2 * maxPf ∧ (s.rp.ppftable k).valid = false))
  | .reply n => ∀ d, s.requests[n]? = some d → d.frame < 2 ^ 20 ∧ ∃ p vm,
      addPte t s.rp.vm d.page d.frame (s.rp.ppftable d.off).access = some (some p, vm)

end PendingState

/-! ### A fault -/

section Fault
variable {t : VmSizes} {ppf ppf' : ℕ → PendingPf} {s s' : PendingState}
  {faulter faultfor page access reg0 frame j : ℕ} {first : Bool}

/-- The scan of the overflow area ends when there is a free entry. -/
theorem scanFree_total {fuel i k : ℕ} {seen : Bool} (hle : i ≤ k) (hlt : k < i + fuel)
    (hk : (ppf k).valid = false) : scanFree ppf page fuel i seen ≠ none := by
  induction fuel generalizing i seen with
  | zero => omega
  | succ fuel ih =>
    rw [scanFree]
    cases hvalid : (ppf i).valid with
    | true =>
      have hne : i ≠ k := by
        rintro rfl
        simp [hvalid] at hk
      rw [if_pos rfl]
      exact ih (by omega) (by omega)
    | false => simp

/-- Where `save_state` saves a fault, and whether it returns the entry. -/
theorem saveState_cases (h : saveState ppf faulter faultfor page access = some (j, first, ppf')) :
    (j = page % maxPf ∧ first = true ∧ (ppf (page % maxPf)).valid = false) ∨
      (maxPf ≤ j ∧ j < 2 * maxPf ∧ (ppf (page % maxPf)).valid = true ∧
        (∀ k, maxPf ≤ k → k < j → (ppf k).valid = true) ∧
        (first = false ↔ ∃ k, maxPf ≤ k ∧ k < j ∧ (ppf k).faultPage = page)) := by
  dsimp only [saveState] at h
  split at h
  · rename_i hvalid
    obtain ⟨⟨k, seen⟩, hscan, heq⟩ := Option.map_eq_some_iff.mp h
    obtain ⟨rfl, hrest⟩ := Prod.mk.inj heq
    obtain ⟨rfl, -⟩ := Prod.mk.inj hrest
    obtain ⟨hle, hlt, -, hall, hseen⟩ := scanFree_spec hscan
    exact Or.inr ⟨hle, by omega, hvalid, hall, by simpa using hseen⟩
  · rename_i hvalid
    obtain ⟨rfl, hrest⟩ := Prod.mk.inj (Option.some.inj h)
    obtain ⟨rfl, -⟩ := Prod.mk.inj hrest
    exact Or.inl ⟨rfl, rfl, by simpa using hvalid⟩

/-- An entry other than the one that is filled is in use when it was, by the same page. -/
theorem saveState_others (h : saveState ppf faulter faultfor page access = some (j, first, ppf'))
    {k : ℕ} (hk : k ≠ j) :
    (ppf' k).valid = (ppf k).valid ∧ (ppf' k).faultPage = (ppf k).faultPage := by
  rw [(saveState_spec h).2.2 k hk]
  exact ⟨rfl, rfl⟩

/-- An entry in use stays in use. -/
theorem saveState_valid (h : saveState ppf faulter faultfor page access = some (j, first, ppf'))
    {k : ℕ} (hk : (ppf k).valid = true) : (ppf' k).valid = true := by
  by_cases hkj : k = j
  · rw [hkj, (saveState_spec h).2.1]
  · rw [(saveState_others h hkj).1, hk]

/-- The only link `save_state` makes is from the entry of the page number to the one it fills. -/
theorem saveState_links (h : saveState ppf faulter faultfor page access = some (j, first, ppf'))
    {k : ℕ} (hk : k ≠ j) : (ppf' k).collision = (ppf k).collision ∨
      k = page % maxPf ∧ maxPf ≤ j ∧ (ppf' k).collision = some j := by
  dsimp only [saveState] at h
  split at h
  · obtain ⟨⟨r, seen⟩, hscan, heq⟩ := Option.map_eq_some_iff.mp h
    obtain ⟨rfl, hrest⟩ := Prod.mk.inj heq
    obtain ⟨-, rfl⟩ := Prod.mk.inj hrest
    rw [Function.update_of_ne hk]
    by_cases hki : k = page % maxPf
    · subst hki
      rw [Function.update_self]
      exact Or.inr ⟨rfl, (scanFree_spec hscan).1, rfl⟩
    · rw [Function.update_of_ne hki]
      exact Or.inl rfl
  · obtain ⟨rfl, hrest⟩ := Prod.mk.inj (Option.some.inj h)
    obtain ⟨-, rfl⟩ := Prod.mk.inj hrest
    rw [Function.update_of_ne hk]
    exact Or.inl rfl

/-- `save_state` returns when the overflow area has a free entry, if it comes to that. -/
theorem saveState_total (h : (ppf (page % maxPf)).valid = true →
      ∃ k, maxPf ≤ k ∧ k < 2 * maxPf ∧ (ppf k).valid = false) :
    ∃ r, saveState ppf faulter faultfor page access = some r := by
  dsimp only [saveState]
  split
  · rename_i hvalid
    obtain ⟨k, hle, hlt, hk⟩ := h hvalid
    have hscan : scanFree ppf page maxPf maxPf false ≠ none :=
      scanFree_total hle (by omega) hk
    obtain ⟨r, hr⟩ := Option.ne_none_iff_exists'.mp hscan
    rw [hr]
    exact ⟨_, rfl⟩
  · exact ⟨_, rfl⟩

/-- A fault is handled at once, or saved. -/
theorem fault_cases (h : pendingStep t s (.fault faulter faultfor reg0 frame) = some s') :
    (s' = { s with rp := s'.rp } ∧ s'.rp.ppftable = s.rp.ppftable ∧
        (rpagerPage reg0 ≠ 0 → rpagerPage reg0 ≠ 2 ^ 32 - 1 →
          findPte t s.rp.vm (rpagerPage reg0) ≠ some none)) ∨
      (rpagerPage reg0 ≠ 0 ∧ rpagerPage reg0 ≠ 2 ^ 32 - 1 ∧
        findPte t s.rp.vm (rpagerPage reg0) = some none ∧ ∃ j first ppf,
          saveState s.rp.ppftable faulter faultfor (rpagerPage reg0) (rpagerAccess reg0) =
            some (j, first, ppf) ∧
          s'.rp.ppftable = ppf ∧ s'.answers = s.answers ∧ s'.added = s.added ∧
          s'.requests = s.requests ++ (if first then [⟨j, rpagerPage reg0, frame⟩] else []) ∧
          s'.outstanding = s.outstanding ++ [⟨j, faulter, faultfor, rpagerPage reg0⟩]) := by
  rw [pendingStep] at h
  split at h
  on_goal 2 => cases h
  obtain ⟨⟨act, rp⟩, hfault, rfl⟩ := Option.map_eq_some_iff.mp h
  dsimp only [rpagerFault] at hfault
  split at hfault
  · rename_i hzero
    obtain ⟨rfl, rfl⟩ := Prod.mk.inj (Option.some.inj hfault)
    exact Or.inl ⟨rfl, rfl, fun hne => absurd hzero hne⟩
  rename_i hzero
  split at hfault
  · rename_i hspecial
    obtain ⟨rfl, rfl⟩ := Prod.mk.inj (Option.some.inj hfault)
    exact Or.inl ⟨rfl, rfl, fun _ hne => absurd hspecial hne⟩
  rename_i hspecial
  obtain ⟨pte, hfind, hfault⟩ := Option.bind_eq_some_iff.mp hfault
  by_cases hnone : pte = none
  · rw [if_pos hnone] at hfault
    obtain ⟨⟨j, first, ppf⟩, hsave, heq⟩ := Option.map_eq_some_iff.mp hfault
    obtain ⟨rfl, rfl⟩ := Prod.mk.inj heq
    exact Or.inr ⟨hzero, hspecial, hnone ▸ hfind, j, first, ppf, hsave, rfl, rfl, rfl, rfl, rfl⟩
  · rw [if_neg hnone] at hfault
    obtain ⟨r, -, heq⟩ := Option.map_eq_some_iff.mp hfault
    obtain ⟨rfl, rfl⟩ := Prod.mk.inj heq
    refine Or.inl ⟨rfl, rfl, fun _ _ hsome => hnone ?_⟩
    exact Option.some.inj (hfind.symm.trans hsome)

/-- A fault is handled when `find_pte` and `save_state` return. -/
theorem fault_total (hlt : s.outstanding.length < maxPf)
    (h : rpagerPage reg0 ≠ 0 → rpagerPage reg0 ≠ 2 ^ 32 - 1 →
      findPte t s.rp.vm (rpagerPage reg0) ≠ none ∧
        (findPte t s.rp.vm (rpagerPage reg0) = some none →
          (s.rp.ppftable (rpagerPage reg0 % maxPf)).valid = true →
            ∃ k, maxPf ≤ k ∧ k < 2 * maxPf ∧ (s.rp.ppftable k).valid = false)) :
    ∃ s', pendingStep t s (.fault faulter faultfor reg0 frame) = some s' := by
  rw [pendingStep, if_pos hlt]
  dsimp only [rpagerFault]
  split
  · exact ⟨_, rfl⟩
  rename_i hzero
  split
  · exact ⟨_, rfl⟩
  rename_i hspecial
  obtain ⟨hfind, hfree⟩ := h hzero hspecial
  obtain ⟨pte, hpte⟩ := Option.ne_none_iff_exists'.mp hfind
  rw [hpte, Option.bind_some]
  cases pte with
  | none =>
    obtain ⟨r, hr⟩ : ∃ r, saveState s.rp.ppftable faulter faultfor (rpagerPage reg0)
        (rpagerAccess reg0) = some r := saveState_total (hfree hpte)
    rw [if_pos rfl, hr]
    exact ⟨_, rfl⟩
  | some p =>
    obtain ⟨u, hu, -⟩ := pagenum_of_findPte hpte
    rw [if_neg (by simp), mapPage, Option.bind_some, hu]
    exact ⟨_, rfl⟩

end Fault

/-! ### Without replies -/

namespace PendingState

/-- The invariant as long as no reply arrives: the entries in use are those of the saved faults,
and the overflow area is filled from its start. -/
structure Kept (s : PendingState) : Prop extends s.Waiting where
  available : s.Available
  filled : ∀ x ∈ s.outstanding, (s.rp.ppftable x.slot).valid = true ∧
    (s.rp.ppftable x.slot).faultPage = x.page
  slots : (s.outstanding.map fun x => x.slot).Nodup
  requested : ∀ d ∈ s.requests, ∃ x ∈ s.outstanding, x.slot = d.off ∧ x.page = d.page
  place : ∀ x ∈ s.outstanding, x.slot = x.page % maxPf ∨
    maxPf ≤ x.slot ∧ x.slot < 2 * maxPf ∧ (s.rp.ppftable (x.page % maxPf)).valid = true
  packed : ∀ j k, maxPf ≤ j → j ≤ k → (s.rp.ppftable k).valid = true →
    (s.rp.ppftable j).valid = true

theorem kept_start (vm : PageTables) : (pendingStart vm).Kept where
  asked := by simp [pendingStart]
  requests := by simp [pendingStart]
  added := by simp [pendingStart]
  available := by simp [pendingStart, Available]
  filled := by simp [pendingStart]
  slots := by simp [pendingStart]
  requested := by simp [pendingStart]
  place := by simp [pendingStart]
  packed := by simp [pendingStart]

section Steps
variable {t : VmSizes} {s s' : PendingState} {faulter faultfor reg0 frame j : ℕ} {first : Bool}
  {ppf : ℕ → PendingPf}

/-- With fewer than `MAX_PF` faults outstanding the overflow area has a free entry. -/
theorem Kept.free (h : s.Kept) (hlt : s.outstanding.length < maxPf) :
    ∃ k, maxPf ≤ k ∧ k < 2 * maxPf ∧ (s.rp.ppftable k).valid = false := by
  by_contra hnone
  have hsub : List.range' maxPf maxPf ⊆ s.outstanding.map fun x => x.slot := by
    intro k hk
    obtain ⟨hle, hltk⟩ := List.mem_range'_1.mp hk
    have hvalid : (s.rp.ppftable k).valid = true := by
      by_contra hinvalid
      exact hnone ⟨k, hle, by omega, by simpa using hinvalid⟩
    obtain ⟨x, hx, rfl⟩ := h.available k hvalid
    exact List.mem_map_of_mem hx
  have hle := (List.subperm_of_subset List.nodup_range' hsub).length_le
  rw [List.length_range', List.length_map] at hle
  omega

/-- A page that is in an entry is one that was requested. -/
theorem Kept.request (h : s.Kept) (hvalid : (s.rp.ppftable j).valid = true) :
    ∃ d ∈ s.requests, d.page = (s.rp.ppftable j).faultPage := by
  obtain ⟨x, hx, rfl⟩ := h.available j hvalid
  rw [(h.filled x hx).2]
  exact h.asked x hx

/-- Nothing but the page table changes. -/
theorem Kept.of_ppftable (h : s.Kept) {rp : Rpager} (hrp : rp.ppftable = s.rp.ppftable) :
    ({ s with rp := rp } : PendingState).Kept where
  asked := h.asked
  requests := h.requests
  added := h.added
  available := fun j hj => h.available j (hrp ▸ hj)
  filled := by
    show ∀ x ∈ s.outstanding, (rp.ppftable x.slot).valid = true ∧ _
    rw [hrp]
    exact h.filled
  slots := h.slots
  requested := h.requested
  place := by
    show ∀ x ∈ s.outstanding, _ ∨ _ ∧ _ ∧ (rp.ppftable (x.page % maxPf)).valid = true
    rw [hrp]
    exact h.place
  packed := by
    show ∀ j k, _ → _ → (rp.ppftable k).valid = true → (rp.ppftable j).valid = true
    rw [hrp]
    exact h.packed

/-- A page whose fault is saved as the first one was not requested before. -/
theorem Kept.not_requested (h : s.Kept) {page access : ℕ}
    (hsave : saveState s.rp.ppftable faulter faultfor page access = some (j, true, ppf))
    (hagain : (s.rp.ppftable (page % maxPf)).valid = true →
      (s.rp.ppftable (page % maxPf)).faultPage = page →
        ∃ k, maxPf ≤ k ∧ k < 2 * maxPf ∧ (s.rp.ppftable k).valid = true ∧
          (s.rp.ppftable k).faultPage = page) :
    page ∉ s.requests.map fun d => d.page := by
  intro hmem
  obtain ⟨d, hd, hpage⟩ := List.mem_map.mp hmem
  obtain ⟨x, hx, -, hxpage⟩ := h.requested d hd
  rw [← hpage, ← hxpage] at hsave hagain
  obtain ⟨hvalid, hfault⟩ := h.filled x hx
  obtain ⟨hfree, -⟩ := saveState_spec hsave
  rcases saveState_cases hsave with ⟨-, -, hprimary⟩ | ⟨-, -, hprimary, -, hfirst⟩
  · rcases h.place x hx with hslot | ⟨-, -, hused⟩
    · rw [hslot, hprimary] at hvalid
      cases hvalid
    · rw [hprimary] at hused
      cases hused
  · -- an entry in use is below the first free one
    have hbelow : ∀ k, maxPf ≤ k → (s.rp.ppftable k).valid = true →
        (s.rp.ppftable k).faultPage ≠ x.page := by
      intro k hle hk heq
      refine absurd (hfirst.mpr ⟨k, hle, ?_, heq⟩) (by simp)
      by_contra hge
      have hj := h.packed j k ?_ (by omega) hk
      · rw [hj] at hfree
        cases hfree
      · rcases saveState_cases hsave with ⟨-, -, hp⟩ | ⟨hle, -⟩
        · rw [hp] at hprimary
          cases hprimary
        · exact hle
    rcases h.place x hx with hslot | ⟨hle, -, -⟩
    · obtain ⟨k, hle, -, hk, heq⟩ := hagain hprimary (hslot ▸ hfault)
      exact hbelow k hle hk heq
    · exact hbelow x.slot hle hvalid hfault

/-- A fault is saved. -/
theorem Kept.save (h : s.Kept) {page access : ℕ}
    (hsave : saveState s.rp.ppftable faulter faultfor page access = some (j, first, ppf))
    (hnew : first = true → page ∉ s.requests.map fun d => d.page)
    (hppf : s'.rp.ppftable = ppf) (hadded : s'.added = s.added)
    (hreq : s'.requests = s.requests ++ if first then [⟨j, page, frame⟩] else [])
    (hout : s'.outstanding = s.outstanding ++ [⟨j, faulter, faultfor, page⟩]) : s'.Kept := by
  obtain ⟨hfree, hentry, -⟩ := saveState_spec hsave
  have hslot : ∀ x ∈ s.outstanding, x.slot ≠ j := by
    rintro x hx rfl
    rw [(h.filled x hx).1] at hfree
    cases hfree
  refine ⟨⟨?asked, ?requests, hadded ▸ h.added⟩, ?available, ?filled, ?slots, ?requested, ?place,
    ?packed⟩
  case asked =>
    intro x hx
    rw [hreq]
    rcases List.mem_append.mp (hout ▸ hx) with hx | hx
    · obtain ⟨d, hd, heq⟩ := h.asked x hx
      exact ⟨d, List.mem_append_left _ hd, heq⟩
    · obtain rfl := List.mem_singleton.mp hx
      cases first with
      | true => exact ⟨⟨j, page, frame⟩, by simp, rfl⟩
      | false =>
        rcases saveState_cases hsave with ⟨-, hfirst, -⟩ | ⟨-, -, -, hall, hfirst⟩
        · cases hfirst
        · obtain ⟨k, hle, hlt, hpage⟩ := hfirst.mp rfl
          obtain ⟨d, hd, heq⟩ := h.request (hall k hle hlt)
          exact ⟨d, List.mem_append_left _ hd, heq.trans hpage⟩
  case requests =>
    rw [hreq, List.map_append]
    cases first with
    | true =>
      rw [if_pos rfl, List.map_singleton, ← List.concat_eq_append]
      exact List.Nodup.concat (hnew rfl) h.requests
    | false => simpa using h.requests
  case available =>
    intro k hk
    rw [hppf] at hk
    rw [hout]
    by_cases hkj : k = j
    · exact ⟨⟨j, faulter, faultfor, page⟩, by simp, hkj.symm⟩
    · rw [(saveState_others hsave hkj).1] at hk
      obtain ⟨x, hx, heq⟩ := h.available k hk
      exact ⟨x, List.mem_append_left _ hx, heq⟩
  case filled =>
    intro x hx
    rw [hppf]
    rcases List.mem_append.mp (hout ▸ hx) with hx | hx
    · obtain ⟨hvalid, hpage⟩ := saveState_others hsave (hslot x hx)
      rw [hvalid, hpage]
      exact h.filled x hx
    · obtain rfl := List.mem_singleton.mp hx
      rw [hentry]
      exact ⟨rfl, rfl⟩
  case slots =>
    have hj : j ∉ s.outstanding.map fun x => x.slot := by
      intro hmem
      obtain ⟨x, hx, heq⟩ := List.mem_map.mp hmem
      exact hslot x hx heq
    rw [hout, List.map_append, List.map_singleton, ← List.concat_eq_append]
    exact List.Nodup.concat hj h.slots
  case requested =>
    intro d hd
    rw [hout]
    rcases List.mem_append.mp (hreq ▸ hd) with hd | hd
    · obtain ⟨x, hx, heq⟩ := h.requested d hd
      exact ⟨x, List.mem_append_left _ hx, heq⟩
    · cases first with
      | true =>
        obtain rfl := List.mem_singleton.mp hd
        exact ⟨⟨j, faulter, faultfor, page⟩, by simp, rfl, rfl⟩
      | false => cases hd
  case place =>
    intro x hx
    rw [hppf]
    rcases List.mem_append.mp (hout ▸ hx) with hx | hx
    · rcases h.place x hx with heq | ⟨hle, hlt, hused⟩
      · exact Or.inl heq
      · exact Or.inr ⟨hle, hlt, saveState_valid hsave hused⟩
    · obtain rfl := List.mem_singleton.mp hx
      rcases saveState_cases hsave with ⟨heq, -⟩ | ⟨hle, hlt, hused, -⟩
      · exact Or.inl heq
      · exact Or.inr ⟨hle, hlt, saveState_valid hsave hused⟩
  case packed =>
    intro i k hi hik hk
    rw [hppf] at hk ⊢
    by_cases hkj : k = j
    · by_cases hij : i = j
      · rw [hij, hentry]
      · rcases saveState_cases hsave with ⟨heq, -⟩ | ⟨-, -, -, hall, -⟩
        · have hlt : page % maxPf < maxPf := Nat.mod_lt _ (by decide)
          omega
        · exact saveState_valid hsave (hall i hi (by omega))
    · rw [(saveState_others hsave hkj).1] at hk
      exact saveState_valid hsave (h.packed i k hi hik hk)

/-- **A fault that fits is saved as it should be.** -/
theorem Kept.fault (h : s.Kept) (hlt : s.outstanding.length < maxPf)
    (hfits : s.Fits t (.fault faulter faultfor reg0 frame))
    (hstep : pendingStep t s (.fault faulter faultfor reg0 frame) = some s') :
    s'.Kept ∧ s'.answers = s.answers := by
  rcases fault_cases hstep with ⟨heq, hppf, -⟩ |
    ⟨hzero, hspecial, hfind, j, first, ppf, hsave, hppf, hans, hadded, hreq, hout⟩
  · rw [heq]
    exact ⟨h.of_ppftable hppf, rfl⟩
  · refine ⟨h.save hsave ?_ hppf hadded hreq hout, hans⟩
    rintro rfl
    exact h.not_requested hsave ((hfits hlt hzero hspecial).2 hfind)

/-- A reply leaves the entry of its request in use. -/
theorem Kept.not_available (h : s.Kept) {n : ℕ}
    (hstep : pendingStep t s (.reply n) = some s') : ¬ s'.Available := by
  intro havail
  obtain ⟨d, hd, hreply⟩ := Option.bind_eq_some_iff.mp hstep
  obtain ⟨r, hr, rfl⟩ := Option.map_eq_some_iff.mp hreply
  obtain ⟨m, -, rfl⟩ := Option.map_eq_some_iff.mp hr
  obtain ⟨x, hx, hslot, hpage⟩ := h.requested d (List.mem_of_getElem? hd)
  obtain ⟨hvalid, hfault⟩ := h.filled x hx
  obtain ⟨y, hy, hsame⟩ := havail x.slot hvalid
  obtain ⟨hy, hne⟩ := List.mem_filter.mp hy
  apply of_decide_eq_true hne
  rw [← (h.filled y hy).2, hsame, hfault, hpage]

/-- **Exactly when a step is what it should be.** -/
theorem Kept.sound_iff (h : s.Kept) (op : PendingOp) : s.Sound t op ↔ s.Fits t op := by
  cases op with
  | fault faulter faultfor reg0 frame =>
    constructor
    · intro hsound hlt hzero hspecial
      obtain ⟨s', hstep, hdone, -⟩ := hsound hlt
      constructor
      · intro hnone
        rw [pendingStep, if_pos hlt] at hstep
        dsimp only [rpagerFault] at hstep
        rw [if_neg hzero, if_neg hspecial, hnone] at hstep
        cases hstep
      · intro hfind hused hpage
        by_contra hnone
        rcases fault_cases hstep with ⟨-, -, hnot⟩ |
          ⟨-, -, -, j, first, ppf, hsave, -, -, -, hreq, -⟩
        · exact hnot hzero hspecial hfind
        · -- the page is requested although it was
          obtain ⟨d, hd, hdpage⟩ := h.request hused
          cases first with
          | true =>
            have hnodup := hdone.requests
            rw [hreq, List.map_append] at hnodup
            exact (List.nodup_append.mp hnodup).2.2 _
              (List.mem_map.mpr ⟨d, hd, hdpage.trans hpage⟩) _ (by simp) rfl
          | false =>
            rcases saveState_cases hsave with ⟨-, hfirst, -⟩ | ⟨-, hj, -, hall, hfirst⟩
            · cases hfirst
            · obtain ⟨k, hle, hltj, hkpage⟩ := hfirst.mp rfl
              exact hnone ⟨k, hle, by omega, hall k hle hltj, hkpage⟩
    · intro hfits hlt
      obtain ⟨s', hstep⟩ : ∃ s', pendingStep t s (.fault faulter faultfor reg0 frame) = some s' :=
        fault_total hlt fun hzero hspecial =>
          ⟨(hfits hlt hzero hspecial).1, fun _ _ => h.free hlt⟩
      obtain ⟨hkept, hans⟩ := h.fault hlt hfits hstep
      exact ⟨s', hstep, ⟨hkept.toWaiting, [], by rw [hans, List.append_nil], List.Perm.refl _⟩,
        hkept.available⟩
  | reply n =>
    constructor
    · intro hsound hn
      obtain ⟨s', hstep, -, havail⟩ := hsound hn
      exact h.not_available hstep havail
    · intro hn hen
      exact absurd hen hn

/-- A step that fits keeps the invariant. -/
theorem Kept.next (h : s.Kept) {op : PendingOp} (hfits : s.Fits t op)
    (hstep : pendingStep t s op = some s') : s'.Kept := by
  cases op with
  | fault faulter faultfor reg0 frame =>
    have hlt : s.outstanding.length < maxPf := by
      by_contra hge
      rw [pendingStep, if_neg hge] at hstep
      cases hstep
    exact (h.fault hlt hfits hstep).1
  | reply n =>
    obtain ⟨d, hd, -⟩ := Option.bind_eq_some_iff.mp hstep
    exact absurd (List.getElem?_eq_some_iff.mp hd).1 hfits

end Steps

/-! ### Pages that fault once -/

/-- The invariant as long as a page faults once: the entries in use are of different pages, and
an entry behind another one is the last of its chain. -/
structure KeptOnce (s : PendingState) : Prop extends s.Waiting where
  unique : ∀ j k, (s.rp.ppftable j).valid = true → (s.rp.ppftable k).valid = true →
    (s.rp.ppftable j).faultPage = (s.rp.ppftable k).faultPage → j = k
  filled : ∀ x ∈ s.outstanding, x.slot < 2 * maxPf ∧ x.page < 2 ^ 32 ∧ ∃ access collision,
    s.rp.ppftable x.slot = ⟨x.faulter, x.faultfor, x.page, access, true, collision⟩
  pages : (s.outstanding.map fun x => x.page).Nodup
  requested : ∀ d ∈ s.requests, ∃ x ∈ s.outstanding, x.slot = d.off ∧ x.page = d.page
  links : ∀ j k, (s.rp.ppftable j).collision = some k →
    maxPf ≤ k ∧ (s.rp.ppftable k).valid = true ∧ (s.rp.ppftable k).collision = none
  gone : ∀ page ∈ s.added, (∃ j, (s.rp.ppftable j).valid = true ∧
    (s.rp.ppftable j).faultPage = page) ∧ ∀ x ∈ s.outstanding, x.page ≠ page

theorem keptOnce_start (vm : PageTables) : (pendingStart vm).KeptOnce where
  asked := by simp [pendingStart]
  requests := by simp [pendingStart]
  added := by simp [pendingStart]
  unique := by simp [pendingStart]
  filled := by simp [pendingStart]
  pages := by simp [pendingStart]
  requested := by simp [pendingStart]
  links := by simp [pendingStart]
  gone := by simp [pendingStart]

section Once
variable {t : VmSizes} {s s' : PendingState} {faulter faultfor reg0 frame j : ℕ} {first : Bool}
  {ppf : ℕ → PendingPf}

/-- Nothing but the page table changes. -/
theorem KeptOnce.of_ppftable (h : s.KeptOnce) {rp : Rpager} (hrp : rp.ppftable = s.rp.ppftable) :
    ({ s with rp := rp } : PendingState).KeptOnce := by
  obtain ⟨⟨vm, table⟩, requests, outstanding, answers, added⟩ := s
  obtain ⟨vm', table'⟩ := rp
  obtain rfl : table' = table := hrp
  exact ⟨⟨h.asked, h.requests, h.added⟩, h.unique, h.filled, h.pages, h.requested, h.links, h.gone⟩

/-- A page that has no entry is requested, and its fault is saved. -/
theorem KeptOnce.save (h : s.KeptOnce) {page access : ℕ}
    (hsave : saveState s.rp.ppftable faulter faultfor page access = some (j, first, ppf))
    (hnew : ∀ k, (s.rp.ppftable k).valid = true → (s.rp.ppftable k).faultPage ≠ page)
    (hpage : page < 2 ^ 32) (hppf : s'.rp.ppftable = ppf) (hadded : s'.added = s.added)
    (hreq : s'.requests = s.requests ++ if first then [⟨j, page, frame⟩] else [])
    (hout : s'.outstanding = s.outstanding ++ [⟨j, faulter, faultfor, page⟩]) : s'.KeptOnce := by
  obtain ⟨hfree, hentry, -⟩ := saveState_spec hsave
  have hsmall : page % maxPf < maxPf := Nat.mod_lt _ (by decide)
  have hplace : j < 2 * maxPf ∧ first = true := by
    rcases saveState_cases hsave with ⟨heq, hfirst, -⟩ | ⟨-, hlt, -, hall, hfirst⟩
    · exact ⟨by omega, hfirst⟩
    · refine ⟨hlt, ?_⟩
      by_contra hseen
      obtain ⟨k, hle, hltk, hk⟩ := hfirst.mp (by simpa using hseen)
      exact hnew k (hall k hle hltk) hk
  obtain ⟨hj, rfl⟩ := hplace
  rw [if_pos rfl] at hreq
  have hin : ∀ x ∈ s.outstanding, (s.rp.ppftable x.slot).valid = true ∧
      (s.rp.ppftable x.slot).faultPage = x.page := by
    intro x hx
    obtain ⟨-, -, access, collision, heq⟩ := h.filled x hx
    rw [heq]
    exact ⟨rfl, rfl⟩
  have hold : ∀ x ∈ s.outstanding, x.page ≠ page := fun x hx =>
    (hin x hx).2 ▸ hnew x.slot (hin x hx).1
  have hslot : ∀ k, (s.rp.ppftable k).valid = true → k ≠ j := by
    rintro k hk rfl
    rw [hk] at hfree
    cases hfree
  refine ⟨⟨?asked, ?requests, hadded ▸ h.added⟩, ?unique, ?filled, ?pages, ?requested, ?links,
    ?gone⟩
  case asked =>
    intro x hx
    rw [hreq]
    rcases List.mem_append.mp (hout ▸ hx) with hx | hx
    · obtain ⟨d, hd, heq⟩ := h.asked x hx
      exact ⟨d, List.mem_append_left _ hd, heq⟩
    · obtain rfl := List.mem_singleton.mp hx
      exact ⟨⟨j, page, frame⟩, by simp, rfl⟩
  case requests =>
    have hnot : page ∉ s.requests.map fun d => d.page := by
      intro hmem
      obtain ⟨d, hd, heq⟩ := List.mem_map.mp hmem
      obtain ⟨x, hx, -, hxpage⟩ := h.requested d hd
      exact hold x hx (hxpage.trans heq)
    rw [hreq, List.map_append, List.map_singleton, ← List.concat_eq_append]
    exact List.Nodup.concat hnot h.requests
  case unique =>
    intro i k hi hk heq
    rw [hppf] at hi hk heq
    by_cases hij : i = j
    · by_cases hkj : k = j
      · rw [hij, hkj]
      · rw [(saveState_others hsave hkj).1] at hk
        rw [hij, hentry, (saveState_others hsave hkj).2] at heq
        exact absurd heq.symm (hnew k hk)
    · rw [(saveState_others hsave hij).1] at hi
      rw [(saveState_others hsave hij).2] at heq
      by_cases hkj : k = j
      · rw [hkj, hentry] at heq
        exact absurd heq (hnew i hi)
      · rw [(saveState_others hsave hkj).1] at hk
        rw [(saveState_others hsave hkj).2] at heq
        exact h.unique i k hi hk heq
  case filled =>
    intro x hx
    rw [hppf]
    rcases List.mem_append.mp (hout ▸ hx) with hx | hx
    · obtain ⟨hlt, hxpage, access', collision, heq⟩ := h.filled x hx
      refine ⟨hlt, hxpage, access', (ppf x.slot).collision, ?_⟩
      rw [(saveState_spec hsave).2.2 x.slot (hslot x.slot (hin x hx).1), heq]
    · obtain rfl := List.mem_singleton.mp hx
      exact ⟨hj, hpage, access, none, hentry⟩
  case pages =>
    have hnot : page ∉ s.outstanding.map fun x => x.page := by
      intro hmem
      obtain ⟨x, hx, heq⟩ := List.mem_map.mp hmem
      exact hold x hx heq
    rw [hout, List.map_append, List.map_singleton, ← List.concat_eq_append]
    exact List.Nodup.concat hnot h.pages
  case requested =>
    intro d hd
    rw [hout]
    rcases List.mem_append.mp (hreq ▸ hd) with hd | hd
    · obtain ⟨x, hx, heq⟩ := h.requested d hd
      exact ⟨x, List.mem_append_left _ hx, heq⟩
    · obtain rfl := List.mem_singleton.mp hd
      exact ⟨⟨j, faulter, faultfor, page⟩, by simp, rfl, rfl⟩
  case links =>
    intro i k hik
    rw [hppf] at hik ⊢
    by_cases hij : i = j
    · rw [hij, hentry] at hik
      cases hik
    rcases saveState_links hsave hij with heq | ⟨-, hle, heq⟩
    · obtain ⟨hle, hvalid, hlast⟩ := h.links i k (heq ▸ hik)
      refine ⟨hle, saveState_valid hsave hvalid, ?_⟩
      rcases saveState_links hsave (hslot k hvalid) with heq | ⟨hki, -⟩
      · rw [heq, hlast]
      · omega
    · obtain rfl : j = k := Option.some.inj (heq.symm.trans hik)
      rw [hentry]
      exact ⟨hle, rfl, rfl⟩
  case gone =>
    intro page' hmem
    obtain ⟨⟨k, hk, hkpage⟩, hnone⟩ := h.gone page' (hadded ▸ hmem)
    rw [hppf, hout]
    have hkj := saveState_others hsave (hslot k hk)
    refine ⟨⟨k, by rw [hkj.1, hk], by rw [hkj.2, hkpage]⟩, fun x hx => ?_⟩
    rcases List.mem_append.mp hx with hx | hx
    · exact hnone x hx
    · obtain rfl := List.mem_singleton.mp hx
      exact hkpage ▸ (hnew k hk).symm

/-- A chain of which only the first entry is of the page gets one answer. -/
theorem ppfMapFrom_one {ppf : ℕ → PendingPf} {vm vm₁ vm₂ : PageTables} {page access fuel : ℕ}
    {pte : Option Pte} {m : MapMsg} (hpage : (ppf j).faultPage = page)
    (hadd : addPte t vm page frame access = some (pte, vm₁))
    (hmap : mapPage vm₁ (ppf j).faulter (ppf j).faultfor pte true = some (vm₂, m))
    (hrest : ∀ k, (ppf j).collision = some k →
      (ppf k).faultPage ≠ page ∧ (ppf k).collision = none) :
    ppfMapFrom t ppf page frame access (fuel + 3) (some j) vm = some (vm₂, [(j, m)]) := by
  have hlast : ppfMapFrom t ppf page frame access (fuel + 2) (ppf j).collision vm₂ =
      some (vm₂, []) := by
    cases hk : (ppf j).collision with
    | none => rfl
    | some k =>
      obtain ⟨hne, hend⟩ := hrest k hk
      rw [ppfMapFrom, if_neg hne, hend]
      rfl
  rw [ppfMapFrom, if_pos hpage, hadd, Option.bind_some, hmap, Option.bind_some, hlast]
  rfl

/-- The faults that wait for a page are one. -/
theorem filter_page {l : List SavedFault} {x : SavedFault} (hl : (l.map fun y => y.page).Nodup)
    (hx : x ∈ l) : l.filter (fun y => decide (y.page = x.page)) = [x] := by
  induction l with
  | nil => cases hx
  | cons y l ih =>
    rw [List.map_cons, List.nodup_cons] at hl
    rcases List.mem_cons.mp hx with rfl | hx
    · rw [List.filter_cons_of_pos (by simp), List.filter_eq_nil_iff.mpr]
      intro z hz
      have hne : z.page ≠ x.page := fun heq => hl.1 (heq ▸ List.mem_map_of_mem hz)
      simpa using hne
    · have hne : y.page ≠ x.page := fun heq => hl.1 (heq ▸ List.mem_map_of_mem hx)
      rw [List.filter_cons_of_neg (by simpa using hne), ih hl.2 hx]

/-- **A reply answers the fault that waits for the page, with its frame.** -/
theorem KeptOnce.reply_step (h : s.KeptOnce) {n : ℕ} {d : DiskMsg} (hd : s.requests[n]? = some d)
    (hfits : s.FitsOnce t (.reply n)) : ∃ vm x, x ∈ s.outstanding ∧ x.page = d.page ∧
      pendingStep t s (.reply n) = some
        { rp := { s.rp with vm := vm }
          requests := s.requests.eraseIdx n
          outstanding := s.outstanding.filter fun x => decide (x.page ≠ d.page)
          answers := s.answers ++ [x.due d.frame]
          added := s.added ++ [d.page] } := by
  obtain ⟨hframe, p, vm₁, hadd⟩ := hfits d hd
  obtain ⟨x, hx, hslot, hxpage⟩ := h.requested d (List.mem_of_getElem? hd)
  obtain ⟨hlt, hsmall, access, collision, heq⟩ := h.filled x hx
  rw [hslot] at hlt heq
  obtain ⟨u, hu, hpagenum, hframenum⟩ := pagenum_of_addPte hadd
  obtain ⟨vm₂, m, hmap⟩ : ∃ vm₂ m, mapPage vm₁ (s.rp.ppftable d.off).faulter
      (s.rp.ppftable d.off).faultfor (some p) true = some (vm₂, m) := by
    rw [mapPage, Option.bind_some, hu]
    exact ⟨_, _, rfl⟩
  have hanswer : m.answer = x.due d.frame := by
    obtain ⟨p', u', hp, hu', hdest, hfor, haddr, hfr, -⟩ := mapPage_spec hmap
    obtain rfl := Option.some.inj hp
    obtain rfl : u = u' := Option.some.inj (hu.symm.trans hu')
    rw [heq] at hdest hfor
    rw [MapMsg.answer, SavedFault.due, hdest, hfor, haddr, hfr, hpagenum, hframenum, ← hxpage,
      Nat.mod_eq_of_lt hframe, Nat.mod_eq_of_lt (by omega), Nat.mod_eq_of_lt (by omega)]
  have hrest : ∀ k, (s.rp.ppftable d.off).collision = some k →
      (s.rp.ppftable k).faultPage ≠ d.page ∧ (s.rp.ppftable k).collision = none := by
    intro k hk
    obtain ⟨-, hvalid, hlast⟩ := h.links d.off k hk
    refine ⟨fun hkpage => ?_, hlast⟩
    have hsame : k = d.off := h.unique k d.off hvalid (by rw [heq]) (by rw [heq, hkpage, hxpage])
    rw [hsame, hk] at hlast
    cases hlast
  have hppf : ppfMap t s.rp d.off d.page d.frame = some (vm₂, [(d.off, m)]) := by
    rw [ppfMap, if_neg (by omega), if_neg (by omega)]
    exact ppfMapFrom_one (by rw [heq, hxpage]) hadd hmap hrest
  refine ⟨vm₂, x, hx, hxpage, ?_⟩
  rw [pendingStep, hd, Option.bind_some, rpagerReply, hppf, ← hanswer]
  rfl

/-- The invariant after a reply. -/
theorem KeptOnce.reply (h : s.KeptOnce) {n : ℕ} {d : DiskMsg} {x : SavedFault} (vm : PageTables)
    (answers : List PageAnswer) (hd : s.requests[n]? = some d) (hx : x ∈ s.outstanding)
    (hxpage : x.page = d.page) : KeptOnce
      { rp := { s.rp with vm := vm }
        requests := s.requests.eraseIdx n
        outstanding := s.outstanding.filter fun x => decide (x.page ≠ d.page)
        answers := answers
        added := s.added ++ [d.page] } := by
  obtain ⟨hn, rfl⟩ := List.getElem?_eq_some_iff.mp hd
  have hperm := List.getElem_cons_eraseIdx_perm hn
  have hnodup := (hperm.map fun d => d.page).nodup_iff.mpr h.requests
  rw [List.map_cons, List.nodup_cons] at hnodup
  refine ⟨⟨?asked, hnodup.2, ?added⟩, h.unique, ?filled, ?pages, ?requested, h.links, ?gone⟩
  case asked =>
    intro y hy
    obtain ⟨hy, hne⟩ := List.mem_filter.mp hy
    obtain ⟨e, he, hpage⟩ := h.asked y hy
    rcases List.mem_cons.mp (hperm.mem_iff.mpr he) with rfl | he
    · exact absurd hpage.symm (of_decide_eq_true hne)
    · exact ⟨e, he, hpage⟩
  case added =>
    have hnot : s.requests[n].page ∉ s.added := fun hmem => (h.gone _ hmem).2 x hx hxpage
    rw [← List.concat_eq_append]
    exact List.Nodup.concat hnot h.added
  case filled => exact fun y hy => h.filled y (List.mem_filter.mp hy).1
  case pages => exact h.pages.sublist (List.filter_sublist.map _)
  case requested =>
    intro e he
    obtain ⟨y, hy, hslot, hpage⟩ := h.requested e (hperm.mem_iff.mp (List.mem_cons_of_mem _ he))
    refine ⟨y, List.mem_filter.mpr ⟨hy, ?_⟩, hslot, hpage⟩
    have hne : y.page ≠ s.requests[n].page := fun heq =>
      hnodup.1 (heq ▸ hpage ▸ List.mem_map_of_mem he)
    simpa using hne
  case gone =>
    intro page hmem
    rcases List.mem_append.mp hmem with hmem | hmem
    · obtain ⟨hused, hnone⟩ := h.gone page hmem
      exact ⟨hused, fun y hy => hnone y (List.mem_filter.mp hy).1⟩
    · obtain rfl := List.mem_singleton.mp hmem
      obtain ⟨-, -, access, collision, heq⟩ := h.filled x hx
      refine ⟨⟨x.slot, ?_, ?_⟩, fun y hy => of_decide_eq_true (List.mem_filter.mp hy).2⟩
      · show (s.rp.ppftable x.slot).valid = true
        rw [heq]
      · show (s.rp.ppftable x.slot).faultPage = _
        rw [heq, hxpage]

/-- **A step that fits does what it should, but for the entries it leaves in use.** -/
theorem KeptOnce.step (h : s.KeptOnce) {op : PendingOp} (hfits : s.FitsOnce t op)
    (hen : s.Enabled op) : ∃ s', pendingStep t s op = some s' ∧ s.Answered op s' ∧ s'.KeptOnce := by
  cases op with
  | fault faulter faultfor reg0 frame =>
    obtain ⟨s', hstep⟩ : ∃ s', pendingStep t s (.fault faulter faultfor reg0 frame) = some s' :=
      fault_total hen fun hzero hspecial =>
        ⟨(hfits hen hzero hspecial).1, fun hfind => ((hfits hen hzero hspecial).2 hfind).2⟩
    have hkept : s'.KeptOnce ∧ s'.answers = s.answers := by
      rcases fault_cases hstep with ⟨heq, hppf, -⟩ |
        ⟨hzero, hspecial, hfind, j, first, ppf, hsave, hppf, hans, hadded, hreq, hout⟩
      · rw [heq]
        exact ⟨h.of_ppftable hppf, rfl⟩
      · exact ⟨h.save hsave ((hfits hen hzero hspecial).2 hfind).1 (Nat.mod_lt _ (by decide)) hppf
          hadded hreq hout, hans⟩
    exact ⟨s', hstep, ⟨hkept.1.toWaiting, [], by rw [hkept.2, List.append_nil],
      List.Perm.refl _⟩, hkept.1⟩
  | reply n =>
    have hd : s.requests[n]? = some s.requests[n] := List.getElem?_eq_getElem hen
    obtain ⟨vm, x, hx, hxpage, hstep⟩ := h.reply_step hd hfits
    have hkept := h.reply vm (s.answers ++ [x.due s.requests[n].frame]) hd hx hxpage
    refine ⟨_, hstep, ⟨hkept.toWaiting, _, rfl, ?_⟩, hkept⟩
    rw [dueAnswers, hd]
    dsimp only
    rw [← hxpage, filter_page h.pages hx]
    exact List.Perm.refl _

theorem KeptOnce.next (h : s.KeptOnce) {op : PendingOp} (hfits : s.FitsOnce t op)
    (hstep : pendingStep t s op = some s') : s'.KeptOnce := by
  have hen : s.Enabled op := by
    cases op with
    | fault faulter faultfor reg0 frame =>
      by_contra hge
      rw [pendingStep, if_neg (show ¬ s.outstanding.length < maxPf from hge)] at hstep
      cases hstep
    | reply n =>
      obtain ⟨d, hd, -⟩ := Option.bind_eq_some_iff.mp hstep
      exact (List.getElem?_eq_some_iff.mp hd).1
  obtain ⟨s₁, hstep₁, -, hkept⟩ := h.step hfits hen
  obtain rfl : s₁ = s' := Option.some.inj (hstep₁.symm.trans hstep)
  exact hkept

end Once

end PendingState

/-- **When pending faults are treated as they should be**: in a run no reply arrives in, as long as
no page that waits in the entry of its number alone faults again; and only in such runs.  But for
the entries that stay in use it is so, whatever the order of faults and replies, as long as no page
that has an entry faults and the tables have room. -/
theorem pending_iff (t : VmSizes) (vm : PageTables) (ops : List PendingOp) :
    (Along (pendingStep t) (PendingState.Sound t) (pendingStart vm) ops ↔
      Along (pendingStep t) (PendingState.Fits t) (pendingStart vm) ops) ∧
    (Along (pendingStep t) (PendingState.FitsOnce t) (pendingStart vm) ops →
      Along (pendingStep t) (PendingState.SoundOnce t) (pendingStart vm) ops) := by
  constructor
  · exact along_congr (I := PendingState.Kept) (fun _ op h => h.sound_iff op)
      (fun _ _ _ h hfits hstep => h.next hfits hstep) ops _ (PendingState.kept_start vm)
  · refine Along.mono (I := PendingState.KeptOnce) (fun s op h hfits hen => ?_)
      (fun _ _ _ h hfits hstep => h.next hfits hstep) ops _ (PendingState.keptOnce_start vm)
    obtain ⟨s', hstep, hanswered, -⟩ := h.step hfits hen
    exact ⟨s', hstep, hanswered⟩

/-- A fault, and its reply: the entry stays in use. -/
theorem pending_not_sound : ¬ ∀ (t : VmSizes) (vm : PageTables) (ops : List PendingOp),
    Along (pendingStep t) (PendingState.Sound t) (pendingStart vm) ops := by
  intro h
  have hrun : (run (pendingStep smallPagers.sizes) (pendingStart smallRpager.vm)
      [.fault 7 7 (5 * 2 ^ 12) 1]).map (fun s =>
        (s.requests.length, (pendingStep smallPagers.sizes s (.reply 0)).map fun s' =>
          ((s'.rp.ppftable 5).valid, s'.outstanding))) =
      some (1, some (true, [])) := by decide +kernel
  obtain ⟨s, hs, hfacts⟩ := Option.map_eq_some_iff.mp hrun
  obtain ⟨hlen, hnext⟩ := Prod.mk.inj hfacts
  have hall : Along (pendingStep smallPagers.sizes) (PendingState.Sound smallPagers.sizes)
      (pendingStart smallRpager.vm) ([.fault 7 7 (5 * 2 ^ 12) 1] ++ .reply 0 :: []) := h ..
  obtain ⟨s', hstep, -, havail⟩ := hall.at hs (by rw [PendingState.Enabled, hlen]; decide)
  rw [hstep, Option.map_some, Option.some.injEq, Prod.mk.injEq] at hnext
  obtain ⟨x, hx, -⟩ := havail 5 hnext.1
  rw [hnext.2] at hx
  cases hx

end Mungi
