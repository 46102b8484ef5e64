import Mungi.Vm.Rpager
import Mungi.Words

/-!
# Mappings and rights

A page fault of a user thread reaches the kernel's pager `mpager`, which validates the access
and maps the page when the page table has it (`pager.c`).  Otherwise it passes the fault on to
the RAM pager, whose answer goes to the thread `apager`, and from there to the thread that
faulted.

The write bit is lost on the way: `map_page` sends an fpage that is always writable, for the
assignment `dirty = DIRTY` where the comparison was meant.  So a fault that is passed on is
answered as it should be only when it was a write fault.

## Main definitions

* `UserFault` — a fault message.
* `PagerState`, `pagerStep` — the three threads, the disk, and the messages between them.
* `PageGrant.Right` — what an answer to a fault is to be.

## Main results

* `mappings_right` — **as long as only write faults are passed on, every answer is right.**
-/

namespace Mungi

open Runs PageTables

/-! ### Faults -/

/-- The fault message of a user thread. -/
structure UserFault where
  faulter : ℕ
  /-- The address, and what was attempted in its low bits. -/
  reg0 : ℕ
  /-- The instruction pointer. -/
  reg1 : ℕ
  deriving DecidableEq, Repr

namespace UserFault

/-- `fault_addr`: `reg[0] & ~3`. -/
def addr (f : UserFault) : ℕ := f.reg0 / 4 * 4

/-- `write_fault`: `reg[0] & 2`. -/
def writeFault (f : UserFault) : Bool := f.reg0.testBit 1

/-- `access` -/
def access (f : UserFault) : Access :=
  if f.writeFault then mWrite else if f.addr = f.reg1 then mExecute else mRead

/-- The number of the page of the address. -/
def page (f : UserFault) : ℕ := f.addr / 2 ^ 12

end UserFault

/-- A fault, and whether its access was validated. -/
structure Handled where
  fault : UserFault
  validated : Bool
  deriving DecidableEq, Repr

/-- An fpage sent to a thread. -/
structure PageGrant where
  thread : ℕ
  /-- The address of its page. -/
  base : ℕ
  writable : Bool
  deriving DecidableEq, Repr

/-- The answer to a fault is to go to the thread, cover the page of the address, and be writable
only if writing was validated. -/
def PageGrant.Right (g : PageGrant) (h : Handled) : Prop :=
  g.thread = h.fault.faulter ∧ g.base = h.fault.page * 2 ^ 12 ∧
    (g.writable = true → h.validated = true ∧ h.fault.access = mWrite)

/-! ### The threads -/

/-- A message in registers. -/
structure IpcMsg where
  sender : ℕ
  reg : ℕ → ℕ

/-- `MPAGER_MAGIC` -/
def mpagerMagic : ℕ := 7

/-- What is fixed when the kernel is built and started. -/
structure PagerConf where
  sizes : VmSizes
  /-- `apagerid` -/
  apager : ℕ
  /-- `SIGMA0_DEV_MAP`, where the kernel is built with device mappings. -/
  devMap : Option ℕ

/-- The messages of the RAM pager are taken apart: the thread that is sent the answer, the one it
is for, and the fault address. -/
def rpagerDecode (m : IpcMsg) : ℕ × ℕ × ℕ :=
  if m.reg 0 = mpagerMagic ∧ m.reg 1 = mpagerMagic then (m.reg 2, m.reg 3, m.reg 5)
  else (m.sender, m.reg 3, m.reg 0)

/-- The message of `handle_fault` to the RAM pager. -/
def mpagerMsg (c : PagerConf) (f : UserFault) : IpcMsg where
  sender := 0
  reg := fun
    | 0 => mpagerMagic
    | 1 => mpagerMagic
    | 2 => c.apager
    | 3 => f.faulter
    | 4 => f.access.toNat
    | 5 => f.reg0
    | 6 => f.reg1
    | _ => 0

/-- `do_map` -/
def doMap (faulter addr : ℕ) (acc : Access) : PageGrant :=
  ⟨faulter, addr / 2 ^ 12 * 2 ^ 12, decide (acc &&& mWrite ≠ 0)⟩

/-- What `apager` sends on. -/
def apagerSend (m : MapMsg) : PageGrant := ⟨m.faultfor, m.addr / 2 ^ 12 * 2 ^ 12, m.writable⟩

/-- A message to the disk thread: the entry, the page and the frame; its reply says the same. -/
structure DiskMsg where
  off : ℕ
  page : ℕ
  frame : ℕ
  deriving DecidableEq, Repr

/-- The pagers, and the messages under way, each with the user fault it stems from. -/
structure PagerState where
  rp : Rpager
  toRpager : List (IpcMsg × Option Handled)
  disk : List DiskMsg
  /-- The fault saved in an entry of the table of pending faults. -/
  origin : ℕ → Option Handled
  toApager : List (MapMsg × Option Handled)
  granted : List (PageGrant × Option Handled)

/-- What happens next. -/
inductive PagerOp where
  /-- A user thread faults; `dev` is the page Sigma0 has for a device mapping. -/
  | fault (f : UserFault) (validated : Bool) (dev : ℕ)
  /-- Another thread of the kernel faults. -/
  | other (m : IpcMsg)
  /-- The RAM pager takes a message; `frame` is what `alloc_frame` has for a request. -/
  | rpager (n frame : ℕ)
  /-- The disk thread replies to a request. -/
  | reply (n : ℕ)
  /-- `apager` takes a message. -/
  | apager (n : ℕ)

/-- A message of `map_page` goes to `apager`, or is the answer itself. -/
def deliver (c : PagerConf) (s : PagerState) (m : MapMsg) (o : Option Handled) : PagerState :=
  if m.dest = c.apager then { s with toApager := s.toApager ++ [(m, o)] }
  else { s with granted := s.granted ++ [(⟨m.dest, m.addr, m.writable⟩, o)] }

/-- `handle_fault` -/
def handleFault (c : PagerConf) (s : PagerState) (f : UserFault) (validated : Bool) (dev : ℕ) :
    Option PagerState :=
  if f.addr < 2 ^ 12 then some s
  else if c.devMap = some f.reg0 then
    some { s with
      granted := s.granted ++ [(doMap f.faulter dev (mRead ||| mWrite), some ⟨f, false⟩)] }
  else if validated = false then some s
  else
    (findPte c.sizes s.rp.vm f.page).map fun pte =>
      if pte = none then
        { s with toRpager := s.toRpager ++ [(mpagerMsg c f, some ⟨f, true⟩)] }
      else
        { s with granted := s.granted ++ [(doMap f.faulter f.addr f.access, some ⟨f, true⟩)] }

/-- The RAM pager takes the message `m`, which stems from `o`. -/
def rpagerTake (c : PagerConf) (s : PagerState) (m : IpcMsg) (o : Option Handled) (frame : ℕ) :
    Option PagerState :=
  let d := rpagerDecode m
  (rpagerFault c.sizes s.rp d.1 d.2.1 d.2.2 frame).map fun r =>
    let s := { s with rp := r.2 }
    match r.1 with
    | .ignored => s
    | .special => s
    | .mapped m => deliver c s m o
    | .saved j request =>
      { s with
        origin := Function.update s.origin j o
        disk := if request then s.disk ++ [⟨j, rpagerPage d.2.2, frame⟩] else s.disk }

/-- One step. -/
def pagerStep (c : PagerConf) (s : PagerState) : PagerOp → Option PagerState
  | .fault f validated dev => handleFault c s f validated dev
  | .other m => some { s with toRpager := s.toRpager ++ [(m, none)] }
  | .rpager n frame =>
    s.toRpager[n]?.bind fun x =>
      rpagerTake c { s with toRpager := s.toRpager.eraseIdx n } x.1 x.2 frame
  | .reply n =>
    s.disk[n]?.bind fun d =>
      (rpagerReply c.sizes s.rp d.off d.page d.frame).map fun r =>
        r.2.foldl (fun s x => deliver c s x.2 (s.origin x.1))
          { s with rp := r.1, disk := s.disk.eraseIdx n }
  | .apager n =>
    s.toApager[n]?.map fun x =>
      { s with
        toApager := s.toApager.eraseIdx n
        granted := s.granted ++ [(apagerSend x.1, x.2)] }

/-- Nothing has happened yet. -/
def pagerStart (rp : Rpager) : PagerState := ⟨rp, [], [], fun _ => none, [], []⟩

/-- Every answer to a user fault so far is right. -/
def PagerState.AllRight (s : PagerState) : Prop :=
  ∀ g h, (g, some h) ∈ s.granted → g.Right h

/-- A fault the kernel's pager passes on is a write fault, of a page whose number fits the RAM
pager's `uint32_t` and is not that of the special addresses; and device mappings are not asked
for. -/
def PagerState.Fits (c : PagerConf) (s : PagerState) : PagerOp → Prop
  | .fault f validated _ => 2 ^ 12 ≤ f.addr →
      c.devMap ≠ some f.reg0 ∧
        (validated = true → findPte c.sizes s.rp.vm f.page = some none →
          f.writeFault = true ∧ f.page < 2 ^ 32 - 1)
  | _ => True

/-! ### The invariant -/

/-- A fault that was passed on. -/
structure Handled.Passed (h : Handled) : Prop where
  validated : h.validated = true
  write : h.fault.writeFault = true
  page : h.fault.page < 2 ^ 32 - 1

/-- The invariant: what is under way for a user fault is for its thread and page. -/
structure PagerState.Kept (c : PagerConf) (s : PagerState) : Prop where
  right : s.AllRight
  toRpager : ∀ m h, (m, some h) ∈ s.toRpager →
    h.Passed ∧ rpagerDecode m = (c.apager, h.fault.faulter, h.fault.reg0)
  saved : ∀ j h, s.origin j = some h → h.Passed ∧ (s.rp.ppftable j).faulter = c.apager ∧
    (s.rp.ppftable j).faultfor = h.fault.faulter ∧ (s.rp.ppftable j).faultPage = h.fault.page
  toApager : ∀ m h, (m, some h) ∈ s.toApager →
    h.Passed ∧ m.faultfor = h.fault.faulter ∧ m.addr = h.fault.page * 2 ^ 12

section Steps
variable {c : PagerConf} {s s' : PagerState} {f : UserFault} {h : Handled}

theorem Handled.Passed.access (hp : h.Passed) : h.fault.access = mWrite := by
  rw [UserFault.access, if_pos hp.write]

theorem UserFault.page_eq (f : UserFault) : f.page = f.reg0 / 2 ^ 12 := by
  unfold page addr
  omega

theorem rpagerPage_eq (hp : f.page < 2 ^ 32) : rpagerPage f.reg0 = f.page := by
  rw [f.page_eq] at hp ⊢
  exact Nat.mod_eq_of_lt hp

/-- `do_map` answers a validated fault as it should. -/
theorem doMap_right (f : UserFault) : (doMap f.faulter f.addr f.access).Right ⟨f, true⟩ := by
  refine ⟨rfl, rfl, fun hw => ⟨rfl, ?_⟩⟩
  replace hw : f.access &&& mWrite ≠ 0 := of_decide_eq_true hw
  unfold UserFault.access at hw ⊢
  by_cases hwrite : f.writeFault = true
  · rw [if_pos hwrite]
  · rw [if_neg hwrite] at hw
    by_cases hx : f.addr = f.reg1
    · rw [if_pos hx] at hw
      exact absurd (by decide) hw
    · rw [if_neg hx] at hw
      exact absurd (by decide) hw

theorem decode_mpagerMsg (c : PagerConf) (f : UserFault) :
    rpagerDecode (mpagerMsg c f) = (c.apager, f.faulter, f.reg0) := rfl

/-- A message for the thread and the page of its fault is delivered. -/
theorem PagerState.Kept.deliver (hs : s.Kept c) {m : MapMsg} {o : Option Handled}
    (hm : ∀ h, o = some h → h.Passed ∧ m.dest = c.apager ∧ m.faultfor = h.fault.faulter ∧
      m.addr = h.fault.page * 2 ^ 12) : (deliver c s m o).Kept c := by
  unfold Mungi.deliver
  split
  · refine ⟨hs.right, hs.toRpager, hs.saved, fun m' h hmem => ?_⟩
    rcases List.mem_append.mp hmem with hmem | hmem
    · exact hs.toApager m' h hmem
    · obtain ⟨rfl, ho⟩ := Prod.mk.inj (List.mem_singleton.mp hmem)
      obtain ⟨hp, -, hfor, haddr⟩ := hm h ho.symm
      exact ⟨hp, hfor, haddr⟩
  · rename_i hne
    refine ⟨fun g h hmem => ?_, hs.toRpager, hs.saved, hs.toApager⟩
    rcases List.mem_append.mp hmem with hmem | hmem
    · exact hs.right g h hmem
    · obtain ⟨-, ho⟩ := Prod.mk.inj (List.mem_singleton.mp hmem)
      exact absurd (hm h ho.symm).2.1 hne

/-- The messages of a reply are delivered. -/
theorem PagerState.Kept.deliverAll {ms : List (ℕ × MapMsg)} (hs : s.Kept c)
    (hms : ∀ x ∈ ms, ∀ h, s.origin x.1 = some h → h.Passed ∧ x.2.dest = c.apager ∧
      x.2.faultfor = h.fault.faulter ∧ x.2.addr = h.fault.page * 2 ^ 12) :
    (ms.foldl (fun s x => Mungi.deliver c s x.2 (s.origin x.1)) s).Kept c := by
  induction ms generalizing s with
  | nil => exact hs
  | cons x ms ih =>
    have horigin : (Mungi.deliver c s x.2 (s.origin x.1)).origin = s.origin := by
      unfold Mungi.deliver
      split <;> rfl
    rw [List.foldl_cons]
    apply ih (hs.deliver fun h ho => hms x List.mem_cons_self h ho)
    rw [horigin]
    exact fun y hy => hms y (List.mem_cons_of_mem x hy)

/-- A fault of a user thread. -/
theorem kept_fault {validated : Bool} {dev : ℕ} (hs : s.Kept c)
    (hfits : s.Fits c (.fault f validated dev))
    (hstep : handleFault c s f validated dev = some s') : s'.Kept c := by
  unfold handleFault at hstep
  by_cases hnull : f.addr < 2 ^ 12
  · rw [if_pos hnull] at hstep
    exact Option.some.inj hstep ▸ hs
  obtain ⟨hdev, hpass⟩ := hfits (Nat.le_of_not_lt hnull)
  rw [if_neg hnull, if_neg hdev] at hstep
  cases validated with
  | false => exact Option.some.inj hstep ▸ hs
  | true =>
    rw [if_neg (by simp)] at hstep
    obtain ⟨pte, hfind, rfl⟩ := Option.map_eq_some_iff.mp hstep
    cases pte with
    | none =>
      obtain ⟨hwrite, hpage⟩ := hpass rfl hfind
      refine ⟨hs.right, fun m h hmem => ?_, hs.saved, hs.toApager⟩
      rcases List.mem_append.mp hmem with hmem | hmem
      · exact hs.toRpager m h hmem
      · obtain ⟨rfl, ho⟩ := Prod.mk.inj (List.mem_singleton.mp hmem)
        obtain rfl := Option.some.inj ho
        exact ⟨⟨rfl, hwrite, hpage⟩, decode_mpagerMsg c f⟩
    | some pte =>
      refine ⟨fun g h hmem => ?_, hs.toRpager, hs.saved, hs.toApager⟩
      rcases List.mem_append.mp hmem with hmem | hmem
      · exact hs.right g h hmem
      · obtain ⟨rfl, ho⟩ := Prod.mk.inj (List.mem_singleton.mp hmem)
        obtain rfl := Option.some.inj ho
        exact doMap_right f

/-- The RAM pager takes a message. -/
theorem kept_take {m : IpcMsg} {o : Option Handled} {frame : ℕ} (hs : s.Kept c)
    (hm : ∀ h, o = some h → h.Passed ∧
      rpagerDecode m = (c.apager, h.fault.faulter, h.fault.reg0))
    (hstep : rpagerTake c s m o frame = some s') : s'.Kept c := by
  obtain ⟨⟨act, rp⟩, hfault, rfl⟩ := Option.map_eq_some_iff.mp hstep
  unfold rpagerFault at hfault
  dsimp only at hfault
  split at hfault
  · obtain ⟨rfl, rfl⟩ := Prod.mk.inj (Option.some.inj hfault)
    exact hs
  split at hfault
  · obtain ⟨rfl, rfl⟩ := Prod.mk.inj (Option.some.inj hfault)
    exact hs
  obtain ⟨pte, hfind, hfault⟩ := Option.bind_eq_some_iff.mp hfault
  by_cases hnone : pte = none
  · rw [if_pos hnone] at hfault
    obtain ⟨⟨j, first, ppf⟩, hsave, heq⟩ := Option.map_eq_some_iff.mp hfault
    obtain ⟨rfl, rfl⟩ := Prod.mk.inj heq
    obtain ⟨-, hentry, hothers⟩ := saveState_spec hsave
    refine ⟨hs.right, hs.toRpager, fun k h hk => ?_, hs.toApager⟩
    dsimp only at hk ⊢
    by_cases hkj : k = j
    · subst hkj
      rw [Function.update_self] at hk
      obtain ⟨hp, hdecode⟩ := hm h hk
      rw [hentry, hdecode]
      exact ⟨hp, rfl, rfl, rpagerPage_eq (by have := hp.page; omega)⟩
    · rw [Function.update_of_ne hkj] at hk
      rw [hothers k hkj]
      exact hs.saved k h hk
  · rw [if_neg hnone] at hfault
    obtain ⟨⟨vm, msg⟩, hmap, heq⟩ := Option.map_eq_some_iff.mp hfault
    obtain ⟨rfl, rfl⟩ := Prod.mk.inj heq
    obtain ⟨p, u, rfl, hu, hdest, hfor, haddr, -⟩ := mapPage_spec hmap
    obtain ⟨u', hu', hpage⟩ := pagenum_of_findPte hfind
    obtain rfl : u' = u := Option.some.inj (hu'.symm.trans hu)
    have hkept : PagerState.Kept c { s with rp := { s.rp with vm := vm } } :=
      ⟨hs.right, hs.toRpager, hs.saved, hs.toApager⟩
    apply hkept.deliver
    intro h ho
    obtain ⟨hp, hdecode⟩ := hm h ho
    have hlt := hp.page
    have hsmall : rpagerPage h.fault.reg0 = h.fault.page := rpagerPage_eq (by omega)
    rw [hdecode] at hpage hdest hfor
    refine ⟨hp, hdest, hfor, ?_⟩
    rw [haddr, hpage]
    dsimp only
    rw [hsmall]
    omega

/-- **A step that fits keeps the invariant.** -/
theorem PagerState.Kept.step (hs : s.Kept c) {op : PagerOp} (hfits : s.Fits c op)
    (hstep : pagerStep c s op = some s') : s'.Kept c := by
  cases op with
  | fault f validated dev => exact kept_fault hs hfits hstep
  | other m =>
    obtain rfl := Option.some.inj hstep
    refine ⟨hs.right, fun m' h hmem => ?_, hs.saved, hs.toApager⟩
    rcases List.mem_append.mp hmem with hmem | hmem
    · exact hs.toRpager m' h hmem
    · cases (Prod.mk.inj (List.mem_singleton.mp hmem)).2
  | rpager n frame =>
    obtain ⟨⟨m, o⟩, hget, htake⟩ := Option.bind_eq_some_iff.mp hstep
    have hkept : PagerState.Kept c { s with toRpager := s.toRpager.eraseIdx n } :=
      ⟨hs.right, fun m' h hmem => hs.toRpager m' h (List.mem_of_mem_eraseIdx hmem), hs.saved,
        hs.toApager⟩
    apply kept_take hkept _ htake
    intro h ho
    subst ho
    exact hs.toRpager m h (List.mem_of_getElem? hget)
  | reply n =>
    obtain ⟨d, -, hreply⟩ := Option.bind_eq_some_iff.mp hstep
    obtain ⟨⟨rp, ms⟩, hr, rfl⟩ := Option.map_eq_some_iff.mp hreply
    obtain ⟨⟨vm, ms'⟩, hmap, heq⟩ := Option.map_eq_some_iff.mp hr
    obtain ⟨rfl, rfl⟩ := Prod.mk.inj heq
    refine PagerState.Kept.deliverAll ⟨hs.right, hs.toRpager, hs.saved, hs.toApager⟩ ?_
    intro x hx h ho
    obtain ⟨hp, hfaulter, hfor, hpage⟩ := hs.saved x.1 h ho
    have hlt := hp.page
    unfold ppfMap at hmap
    split at hmap
    · obtain ⟨-, rfl⟩ := Prod.mk.inj (Option.some.inj hmap)
      cases hx
    split at hmap
    · cases hmap
    · obtain ⟨hxpage, hxdest, hxfor, hxaddr, -⟩ := ppfMapFrom_spec hmap x hx
      refine ⟨hp, by rw [hxdest, hfaulter], by rw [hxfor, hfor], ?_⟩
      rw [hxaddr, ← hxpage, hpage]
      omega
  | apager n =>
    obtain ⟨⟨m, o⟩, hget, rfl⟩ := Option.map_eq_some_iff.mp hstep
    refine ⟨fun g h hmem => ?_, hs.toRpager, hs.saved, fun m' h hmem => ?_⟩
    · rcases List.mem_append.mp hmem with hmem | hmem
      · exact hs.right g h hmem
      · obtain ⟨rfl, ho⟩ := Prod.mk.inj (List.mem_singleton.mp hmem)
        subst ho
        obtain ⟨hp, hfor, haddr⟩ := hs.toApager m h (List.mem_of_getElem? hget)
        refine ⟨hfor, ?_, fun _ => ⟨hp.validated, hp.access⟩⟩
        rw [apagerSend, haddr, Nat.mul_div_cancel _ (by decide)]
    · exact hs.toApager m' h (List.mem_of_mem_eraseIdx hmem)

end Steps

/-- **As long as only write faults are passed on, every answer is right**: it goes to the thread
that faulted, covers the page of the address, and is writable only if writing was validated; for
every order of the steps of the pagers and of the replies of the disk. -/
theorem mappings_right (c : PagerConf) (rp : Rpager) (ops : List PagerOp) (s : PagerState)
    (hfits : Along (pagerStep c) (PagerState.Fits c) (pagerStart rp) ops)
    (hrun : run (pagerStep c) (pagerStart rp) ops = some s) : s.AllRight :=
  (run_invariant_along (I := PagerState.Kept c) (fun _ _ _ hs hf hst => hs.step hf hst) ops _ _
    ⟨by simp [pagerStart, PagerState.AllRight], by simp [pagerStart], by simp [pagerStart],
      by simp [pagerStart]⟩ hfits hrun).right

/-- Eight frames, nothing in memory, and no fault pending. -/
def smallRpager : Rpager where
  vm :=
    { ptable := fun _ => ⟨pteInvalid, 0, 0, 0⟩
      ctable := fun i => .fp ⟨pteInvalid, false, i + 1⟩
      dirty := fun _ => 0 }
  ppftable := fun _ => ⟨0, 0, 0, 0, false, none⟩

/-- No device mappings. -/
def smallPagers : PagerConf := ⟨⟨8, false⟩, 99, none⟩

/-- A write fault of the thread 7 at the page 5, from the kernel's pager to the answer. -/
def writeFaultRun : List PagerOp :=
  [.fault ⟨7, 5 * 2 ^ 12 + 2, 0⟩ true 0, .rpager 0 1, .reply 0, .apager 0]

instance (c : PagerConf) (s : PagerState) : DecidablePred (s.Fits c) := fun op =>
  match op with
  | .fault f _ _ =>
    inferInstanceAs (Decidable (2 ^ 12 ≤ f.addr → c.devMap ≠ some f.reg0 ∧ _))
  | .other _ => isTrue trivial
  | .rpager _ _ => isTrue trivial
  | .reply _ => isTrue trivial
  | .apager _ => isTrue trivial

/-- The write fault is answered by a writable fpage of its page. -/
theorem mappings_right_write : ∃ s : PagerState,
    run (pagerStep smallPagers) (pagerStart smallRpager) writeFaultRun = some s ∧
      s.granted = [(⟨7, 5 * 2 ^ 12, true⟩, some ⟨⟨7, 5 * 2 ^ 12 + 2, 0⟩, true⟩)] ∧ s.AllRight := by
  have hrun : (run (pagerStep smallPagers) (pagerStart smallRpager) writeFaultRun).map
      (fun s => s.granted) =
        some [(⟨7, 5 * 2 ^ 12, true⟩, some ⟨⟨7, 5 * 2 ^ 12 + 2, 0⟩, true⟩)] := by decide +kernel
  obtain ⟨s, hs, hgranted⟩ := Option.map_eq_some_iff.mp hrun
  exact ⟨s, hs, hgranted, mappings_right _ _ _ s (by decide +kernel) hs⟩

/-- A read fault that is passed on is answered by a writable fpage. -/
theorem mappings_not_right : ¬ ∀ (c : PagerConf) (rp : Rpager) (ops : List PagerOp)
    (s : PagerState), run (pagerStep c) (pagerStart rp) ops = some s → s.AllRight := by
  intro h
  have hrun : (run (pagerStep smallPagers) (pagerStart smallRpager)
      [.fault ⟨7, 5 * 2 ^ 12, 0⟩ true 0, .rpager 0 1, .reply 0, .apager 0]).map
        (fun s => s.granted) =
          some [(⟨7, 5 * 2 ^ 12, true⟩, some ⟨⟨7, 5 * 2 ^ 12, 0⟩, true⟩)] := by decide +kernel
  obtain ⟨s, hs, hgranted⟩ := Option.map_eq_some_iff.mp hrun
  have hright := h _ _ _ s hs ⟨7, 5 * 2 ^ 12, true⟩ ⟨⟨7, 5 * 2 ^ 12, 0⟩, true⟩
    (by simp [hgranted])
  exact absurd (hright.2.2 rfl).2 (by decide)

end Mungi
