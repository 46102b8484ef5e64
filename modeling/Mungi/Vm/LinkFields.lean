import Mungi.Lib.Links
import Mungi.Vm.Rpager

/-!
# The links of the tables

The entries of the page table and of the frame table are linked by entry numbers in bit fields: 15
bits for the chains of pages, whose end is marked by `MAX_CTABLE`, and 20 bits for the list of free
frames, whose end is marked by `MAX_FTABLE`.  Both numbers grow with the memory.  As long as they
fit, all loops along the links end, whatever is done to the tables.

## Main definitions

* `VmMemory` — the memory `vm_init` lays its tables out in.
* `LinkState`, `linkStep` — the tables with the list of free frames, and the operations.
* `VmSizes.LinksFit` — what is stored in a field can be read from it.
* `LinkState.Sound` — a loop stays in the tables and ends.

## Main results

* `linkFields_iff` — **for how much memory the links survive their fields.**
-/

namespace Mungi

open Runs Links PageTables

/-! ### The layout -/

/-- What `vm_init` knows of the memory. -/
structure VmMemory where
  /-- `mem_top` -/
  memTop : ℕ
  /-- `mem_bot` -/
  memBot : ℕ
  /-- Bit fields start at the high end of a word. -/
  bigEndian : Bool

namespace VmMemory

variable (m : VmMemory)

/-- The sizes `vm_init` computes. -/
def sizes : VmSizes := ⟨m.memTop / 2 ^ 12, m.bigEndian⟩

/-- `ptable` -/
def ptable : ℤ := m.memTop - m.sizes.ptableSize

/-- `ctable`, with an entry more for the head of the free list. -/
def ctable : ℤ := m.ptable - m.sizes.ctableSize - 16

/-- `ftable`, behind the frames of the other two. -/
def ftable : ℤ := m.ctable - m.ctable % 2 ^ 12 - m.sizes.ftableSize - 8

/-- `ppftable`, whose entries have 40 bytes. -/
def ppftable : ℤ := m.ftable - 2 * maxPf * 40

/-- `ds_size`, the frames of the tables. -/
def dsSize : ℕ := ((m.memTop - m.ppftable + (2 ^ 12 - 1)) / 2 ^ 12).toNat % 2 ^ 32

/-- **The tables are laid out**: they are above the images, in fewer frames than there are. -/
structure LaidOut : Prop where
  above : m.memBot ≤ m.ppftable
  fewer : m.dsSize < m.sizes.maxFtable

end VmMemory

/-- **What is stored in the fields reads back**: in `chain` the entry numbers of the collision table
and `CTABLE_LIST_END`, in `freelist` the frame numbers and `FTABLE_LIST_END`. -/
structure VmSizes.LinksFit (t : VmSizes) : Prop where
  chain : ∀ i ≤ t.maxCtable, i % 2 ^ 15 = i
  freelist : ∀ i, i < t.frames ∨ i = t.maxFtable → i % 2 ^ 20 = i

/-! ### The tables and what is done to them -/

/-- The tables, and the RAM pager's list of free frames. -/
structure LinkState where
  tables : PageTables
  /-- `ftable[..].freelist`, of 20 bits. -/
  freelist : ℕ → ℕ
  /-- `ftable[..].osrsrvd`, of 1 bit. -/
  osrsrvd : ℕ → ℕ
  /-- `rpager_freelist->front`, of 31 bits. -/
  front : ℕ
  /-- `rpager_freelist->back`, of 31 bits. -/
  back : ℕ

/-- What `ftable_init` makes of the list of free frames: the frames from the images to the top,
cut off below the frames of the tables. -/
def ftableInit (m : VmMemory) (tables : PageTables) (freelist osrsrvd : ℕ → ℕ) : LinkState :=
  let t := m.sizes
  let linked := fun i =>
    if i + 1 = t.maxFtable then t.maxFtable % 2 ^ 20
    else if m.memBot / 2 ^ 12 ≤ i ∧ i < t.maxFtable then (i + 1) % 2 ^ 20
    else freelist i
  let back := (t.maxFtable - (m.dsSize + 1)) % 2 ^ 31
  { tables := tables
    freelist := Function.update linked back (t.maxFtable % 2 ^ 20)
    osrsrvd := osrsrvd
    front := m.memBot / 2 ^ 12 % 2 ^ 31
    back := back }

/-- `DELETED` -/
def pteDeleted : ℕ := 2

/-- `invalidate_pte` -/
def PageTables.invalidatePte (t : VmSizes) (s : PageTables) (vpno : ℕ) : PageTables :=
  let pindex := vpno % 2 ^ 32 % t.maxPtable
  let u := s.ptable pindex
  s.write { u with valid := if u.chain ≠ t.maxCtable then pteDeleted else pteInvalid }
    (.head pindex)

namespace LinkState

variable (t : VmSizes) (s : LinkState)

/-- The loop of `alloc_frame_off_list` with the front of the list: the frame, if there is one, and
the front.  None when it leaves the frame table, or does not end. -/
def allocFrameFrom : ℕ → ℕ → Option (Option ℕ × ℕ)
  | 0, _ => none
  | fuel + 1, front =>
    if front = t.maxFtable then some (none, front)
    else if t.maxFtable ≤ front then none
    else if s.osrsrvd front ≠ 0 then allocFrameFrom fuel (s.freelist front)
    else some (some front, s.freelist front)

/-- `alloc_frame`.  It goes on with `NO_FREE_FRAMES`, which is `CTABLE_LIST_END`, as with a frame
number. -/
def allocFrame (osrsrvd dirty : ℕ) : Option LinkState :=
  (s.allocFrameFrom t (t.maxFtable + 1) s.front).map fun r =>
    let find := r.1.getD t.maxCtable
    { s with
      tables := s.tables.setDirty find dirty
      osrsrvd := Function.update s.osrsrvd find (osrsrvd % 2)
      front := r.2 }

/-- `add_frame_to_list`.  None for what is no frame of the table. -/
def addFrameToList (pfno : ℕ) : Option LinkState :=
  if t.maxFtable ≤ pfno then none
  else if s.front = t.maxFtable then
    some { s with
      freelist := Function.update s.freelist pfno (t.maxFtable % 2 ^ 20)
      front := pfno % 2 ^ 31
      back := pfno % 2 ^ 31 }
  else if t.maxFtable ≤ s.back then none
  else
    some { s with
      freelist := Function.update (Function.update s.freelist s.back (pfno % 2 ^ 20)) pfno
        (t.maxFtable % 2 ^ 20)
      back := pfno % 2 ^ 31 }

end LinkState

/-- What is done to the tables. -/
inductive LinkOp where
  | findPte (vpno : ℕ)
  | addPte (vpno pfno mode : ℕ)
  | invalidatePte (vpno : ℕ)
  | allocFrame (osrsrvd dirty : ℕ)
  /-- `add_to_free_list` -/
  | addToFreeList (pfno : ℕ)
  /-- `ftable[pfno].osrsrvd = OSRSRVD` -/
  | reserve (pfno : ℕ)

/-- One operation. -/
def linkStep (t : VmSizes) (s : LinkState) : LinkOp → Option LinkState
  | .findPte vpno => (findPte t s.tables vpno).map fun _ => s
  | .addPte vpno pfno mode =>
    (addPte t s.tables vpno pfno mode).map fun r => { s with tables := r.2 }
  | .invalidatePte vpno => some { s with tables := s.tables.invalidatePte t vpno }
  | .allocFrame osrsrvd dirty => s.allocFrame t osrsrvd dirty
  | .addToFreeList pfno => s.addFrameToList t pfno
  | .reserve pfno => some { s with osrsrvd := Function.update s.osrsrvd pfno 1 }

/-- The tables `vm_init`'s clearing loops leave, over memory with anything in it. -/
def linkStart (m : VmMemory) (page : ℕ → UsedPage) (locked : ℕ → Bool) (dirty freelist osrsrvd :
    ℕ → ℕ) : LinkState :=
  ftableInit m (ptableInit m.sizes page locked dirty) freelist osrsrvd

/-- `chain` of an entry of the collision table. -/
def PageTables.chainNext (s : PageTables) (c : ℕ) : ℕ :=
  match s.ctable c with
  | .up u => u.chain
  | .fp _ => 0

/-- The loops of `find_pte` and `add_collision` go on from an entry. -/
def PageTables.Passes (t : VmSizes) (s : PageTables) (vpno c : ℕ) : Prop :=
  c ≠ t.maxCtable ∧ ∃ u, s.ctable c = .up u ∧ u.pagenum < vpno

/-- The loops of `find_pte` and `add_collision` come to entries of the collision table only. -/
def PageTables.ChainBounded (t : VmSizes) (s : PageTables) (vpno : ℕ) : Prop :=
  let u := s.ptable (vpno % t.maxPtable)
  u.pagenum < vpno → ∀ c, Visits s.chainNext (s.Passes t vpno) u.chain c → c ≠ t.maxCtable →
    c < t.maxCtable

namespace LinkState

variable (t : VmSizes) (s : LinkState)

/-- The operation is for a frame of the frame table. -/
def Enabled : LinkOp → Prop
  | .addPte _ pfno _ => pfno < t.maxFtable
  | .addToFreeList pfno => pfno < t.maxFtable
  | .reserve pfno => pfno < t.maxFtable
  | _ => True

/-- The loop of an operation stays in the tables. -/
def InTables : LinkOp → Prop
  | .findPte vpno => s.tables.ChainBounded t (vpno % 2 ^ 32)
  | .addPte vpno _ _ => s.tables.ChainBounded t vpno
  | .allocFrame _ _ => ∀ i, Visits s.freelist (fun i => i ≠ t.maxFtable ∧ s.osrsrvd i ≠ 0)
      s.front i → i ≠ t.maxFtable → i < t.maxFtable
  | _ => True

/-- **The loop of an operation stays in the tables, and ends.** -/
def Sound (op : LinkOp) : Prop :=
  Enabled t op → s.InTables t op ∧ linkStep t s op ≠ none

end LinkState

/-! ### Chains -/

namespace PageTables

/-- An entry of the collision table that is in use. -/
def UsedEntry (t : VmSizes) (s : PageTables) (c : ℕ) : Prop :=
  c < t.maxCtable ∧ ∃ u, s.ctable c = .up u

/-- The chain from an entry number ends, by way of entries in use. -/
def ChainEnds (t : VmSizes) (s : PageTables) (c : ℕ) : Prop :=
  Ends s.chainNext t.maxCtable (UsedEntry t s) c

section Chains
variable {t : VmSizes} {s s' : PageTables} {v c k fuel : ℕ} {p : Pte} {u : UsedPage}

theorem chainNext_of_up (h : s.ctable c = .up u) : s.chainNext c = u.chain := by
  rw [chainNext, h]

theorem read_entry_of_up (h : s.ctable c = .up u) : s.read (.entry c) = some u := by
  rw [read, h]

theorem up_of_read_entry (h : s.read (.entry c) = some u) : s.ctable c = .up u := by
  rw [read] at h
  split at h
  · rename_i heq
    rw [heq, Option.some.inj h]
  · cases h

/-- The loop of `find_pte` ends where the chain does. -/
theorem findFrom_total (h : EndsIn s.chainNext t.maxCtable (UsedEntry t s) k u.chain)
    (hp : s.read p = some u) (hfuel : k < fuel) : findFrom t s v fuel p ≠ none := by
  induction fuel generalizing k p u with
  | zero => omega
  | succ fuel ih =>
    rw [findFrom, hp, Option.bind_some]
    split
    · rename_i hgo
      generalize hc : u.chain = c at h hgo ⊢
      cases h with
      | stop => exact absurd rfl hgo.2
      | next _ hused h =>
        obtain ⟨-, u', hu'⟩ := hused
        rw [read_entry_of_up hu', Option.bind_some]
        split
        · exact Option.some_ne_none _
        · rw [chainNext_of_up hu'] at h
          exact ih h (read_entry_of_up hu') (by omega)
    · exact Option.some_ne_none _

/-- The loop of `add_collision` ends where the chain does, at entries with a chain that ends. -/
theorem spotFrom_total {Q : Pte → Prop} {prev : Option Pte}
    (h : EndsIn s.chainNext t.maxCtable (UsedEntry t s) k u.chain)
    (hp : s.read p = some u) (hfuel : k < fuel) (hQ : Q p) (hprev : ∀ q ∈ prev, Q q)
    (hentry : ∀ c, UsedEntry t s c → Q (.entry c)) :
    ∃ r, spotFrom t s v fuel prev p = some r ∧ Q (r.1.getD r.2) := by
  induction fuel generalizing k p u prev with
  | zero => omega
  | succ fuel ih =>
    rw [spotFrom, hp, Option.bind_some]
    split
    · rename_i hgo
      generalize hc : u.chain = c at h hgo ⊢
      cases h with
      | stop => exact absurd rfl hgo.2
      | next _ hused h =>
        have hQc := hentry c hused
        obtain ⟨-, u', hu'⟩ := hused
        rw [chainNext_of_up hu'] at h
        refine ih h (read_entry_of_up hu') (by omega) hQc fun q hq => ?_
        rw [← Option.some.inj hq]
        exact hQ
    · refine ⟨_, rfl, ?_⟩
      cases prev with
      | none => exact hQ
      | some q => exact hprev q rfl

theorem ChainEnds.findPte_total (h : ∀ i, ChainEnds t s (s.ptable i).chain) :
    findPte t s v ≠ none := by
  dsimp only [findPte]
  split
  · exact Option.some_ne_none _
  split
  · obtain ⟨k, hk⟩ := h (v % 2 ^ 32 % t.maxPtable)
    exact findFrom_total hk rfl (Nat.lt_succ_of_le (hk.le_of_lt fun j hj => hj.1))
  · exact Option.some_ne_none _

theorem ChainEnds.bounded (h : ∀ i, ChainEnds t s (s.ptable i).chain) :
    s.ChainBounded t v := by
  intro _ c hc hne
  have hends := (h (v % t.maxPtable)).visits (fun j hj => hj.1) hc
  exact (hends.cases_on.resolve_left hne).1.1

/-- Chains are those of the entries in use. -/
theorem ChainEnds.congr (h : ChainEnds t s c)
    (hsame : ∀ j u, j < t.maxCtable → s.ctable j = .up u → s'.ctable j = .up u) :
    ChainEnds t s' c := by
  refine Ends.change h fun j hj => ?_
  obtain ⟨hlt, u, hu⟩ := hj
  have hu' := hsame j u hlt hu
  refine ⟨⟨hlt, u, hu'⟩, fun hends => ?_⟩
  rwa [chainNext_of_up hu', ← chainNext_of_up hu]

/-- **Chains after an entry is linked in**: they go on where the chain of the entry before it
did. -/
theorem chainEnds_linkAfter (hfit : t.LinksFit) {vpno pfno cindex : ℕ} {f : FreeEntry}
    (h : ∀ i, ChainEnds t s (s.ptable i).chain) (hfree : s.ctable cindex = .fp f)
    (hlt : cindex < t.maxCtable)
    (hlink : s.linkAfter vpno pfno cindex p = some s') :
    ∀ i, ChainEnds t s' (s'.ptable i).chain := by
  obtain ⟨u, hu, rfl⟩ := Option.map_eq_some_iff.mp hlink
  rw [hfit.chain cindex (Nat.le_of_lt hlt)]
  have hne : ∀ i w, s.ctable i = .up w → i ≠ cindex := by
    rintro i w hw rfl
    rw [hfree] at hw
    cases hw
  cases p with
  | head j =>
    obtain rfl := Option.some.inj hu
    set s' := (s.write ⟨pteValid, vpno % 2 ^ 36, pfno % 2 ^ 20, (s.ptable j).chain⟩
      (.entry cindex)).write { s.ptable j with chain := cindex } (.head j)
    have hnew : s'.ctable cindex = .up ⟨pteValid, vpno % 2 ^ 36, pfno % 2 ^ 20,
        (s.ptable j).chain⟩ := Function.update_self ..
    have hold : ∀ c, ChainEnds t s c → ChainEnds t s' c := fun c hc =>
      hc.congr fun i w _ hw => (Function.update_of_ne (hne i w hw) ..).trans hw
    intro i
    by_cases hij : i = j
    · rw [hij]
      have hchain : s'.ptable j = { s.ptable j with chain := cindex } := Function.update_self ..
      rw [hchain]
      refine .step (Nat.ne_of_lt hlt) ⟨hlt, _, hnew⟩ ?_
      rw [chainNext_of_up hnew]
      exact hold _ (h j)
    · have hchain : s'.ptable i = s.ptable i := Function.update_of_ne hij ..
      rw [hchain]
      exact hold _ (h i)
  | entry j =>
    have hj := up_of_read_entry hu
    have hjne := hne j u hj
    set s' := (s.write ⟨pteValid, vpno % 2 ^ 36, pfno % 2 ^ 20, u.chain⟩ (.entry cindex)).write
      { u with chain := cindex } (.entry j)
    have hnew : s'.ctable cindex = .up ⟨pteValid, vpno % 2 ^ 36, pfno % 2 ^ 20, u.chain⟩ :=
      (Function.update_of_ne (Ne.symm hjne) ..).trans (Function.update_self ..)
    have hbefore : s'.ctable j = .up { u with chain := cindex } := Function.update_self ..
    intro i
    refine Ends.change (h i) fun a ha => ?_
    obtain ⟨halt, w, hw⟩ := ha
    by_cases haj : a = j
    · subst haj
      refine ⟨⟨halt, _, hbefore⟩, fun hends => ?_⟩
      rw [chainNext_of_up hbefore]
      refine .step (Nat.ne_of_lt hlt) ⟨hlt, _, hnew⟩ ?_
      rw [chainNext_of_up hnew]
      rwa [chainNext_of_up hj] at hends
    · have hsame : s'.ctable a = .up w := (Function.update_of_ne haj ..).trans
        ((Function.update_of_ne (hne a w hw) ..).trans hw)
      refine ⟨⟨halt, w, hsame⟩, fun hends => ?_⟩
      rwa [chainNext_of_up hsame, ← chainNext_of_up hw]

end Chains

end PageTables

/-! ### The invariant -/

namespace LinkState

/-- All chains end, the free entries of the collision table go down, and the list of free frames
ends. -/
structure Kept (t : VmSizes) (s : LinkState) : Prop where
  chains : ∀ i, ChainEnds t s.tables (s.tables.ptable i).chain
  free : ∃ n ≤ t.maxCtable, (∃ v b, s.tables.ctable t.maxCtable = .fp ⟨v, b, t.below n⟩) ∧
    ∀ j < n, ∃ b, s.tables.ctable j = .fp ⟨pteInvalid, b, t.below j⟩
  frames : Ends s.freelist t.maxFtable (· < t.maxFtable) s.front
  back : s.back < t.maxFtable

section Steps
variable {t : VmSizes} {s s' : LinkState} {vpno pfno mode osrsrvd dirty : ℕ}

/-- The invariant without the first of the free entries. -/
theorem Kept.takeEntry (h : s.Kept t) {m : ℕ} {v : ℕ} {b : Bool} (hm : m < t.maxCtable)
    (hfree : ∀ j < m + 1, ∃ b, s.tables.ctable j = .fp ⟨pteInvalid, b, t.below j⟩) :
    Kept t { s with tables := s.tables.setFree t ⟨v, b, m⟩ (t.below m) } := by
  refine ⟨fun i => ?_, ⟨m, Nat.le_of_lt hm, ⟨v, false, Function.update_self ..⟩, fun j hj => ?_⟩,
    h.frames, h.back⟩
  · exact (h.chains i).congr fun j u hj hu => (Function.update_of_ne (Nat.ne_of_lt hj) ..).trans hu
  · obtain ⟨b', hb'⟩ := hfree j (Nat.lt_succ_of_lt hj)
    exact ⟨b', (Function.update_of_ne (by omega) ..).trans hb'⟩

/-- **A page is linked in** behind one of its slot. -/
theorem Kept.addCollision (h : s.Kept t) (hfit : t.LinksFit) (i : ℕ) :
    ∃ r, addCollision t s.tables vpno pfno mode (.head i) = some r ∧
      Kept t { s with tables := r.2 } := by
  obtain ⟨n, hn, ⟨v, b, hhead⟩, hfree⟩ := h.free
  unfold PageTables.addCollision
  rw [hhead]
  dsimp only
  split
  · exact ⟨_, rfl, h⟩
  rename_i hend
  obtain ⟨m, rfl⟩ : ∃ m, n = m + 1 := by
    refine Nat.exists_eq_succ_of_ne_zero ?_
    rintro rfl
    exact hend rfl
  obtain ⟨b', hnew⟩ := hfree m (Nat.lt_succ_self m)
  have hbelow : t.below (m + 1) = m := rfl
  rw [hbelow] at hhead ⊢
  have htaken : Kept t { s with tables := s.tables.setFree t ⟨v, b, m⟩ (t.below m) } :=
    h.takeEntry (by omega) hfree
  rw [hnew]
  dsimp only
  split
  · exact ⟨_, rfl, htaken⟩
  set tables := (s.tables.setFree t ⟨v, b, m⟩ (t.below m)).setDirty pfno mode
  have hchains : ∀ i, ChainEnds t tables (tables.ptable i).chain := htaken.chains
  obtain ⟨k, hk⟩ := hchains i
  obtain ⟨r, hr, u, hu⟩ : ∃ r, spotFrom t tables vpno (t.maxCtable + 1) none (.head i) = some r ∧
      ∃ u, tables.read (r.1.getD r.2) = some u :=
    spotFrom_total (Q := fun p => ∃ u, tables.read p = some u) hk rfl
      (Nat.lt_succ_of_le (hk.le_of_lt fun j hj => hj.1)) ⟨_, rfl⟩ nofun
      fun c hc => ⟨hc.2.choose, read_entry_of_up hc.2.choose_spec⟩
  rw [hr, Option.bind_some]
  obtain ⟨tables', hlink⟩ : ∃ tables', tables.linkAfter vpno pfno m (r.1.getD r.2)
      = some tables' := by
    rw [linkAfter, hu]
    exact ⟨_, rfl⟩
  rw [hlink]
  have hm : tables.ctable m = .fp ⟨pteInvalid, b', t.below m⟩ :=
    (Function.update_of_ne (by omega) ..).trans hnew
  refine ⟨_, rfl, chainEnds_linkAfter hfit hchains hm (by omega) hlink, ?_, h.frames, h.back⟩
  -- entries that are free are not written to
  have hother : ∀ j f, tables.ctable j = .fp f → j ≠ m → tables'.ctable j = .fp f := by
    intro j f hj hjm
    obtain ⟨u', hu', rfl⟩ := Option.map_eq_some_iff.mp hlink
    rw [write_ctable, write_ctable, hj]
    · exact fun heq => hjm (Pte.entry.inj heq).symm
    · intro heq
      rw [heq] at hu'
      rw [up_of_read_entry hu'] at hj
      cases hj
  refine ⟨m, by omega, ⟨v, false, hother _ _ (Function.update_self ..) (by omega)⟩,
    fun j hj => ?_⟩
  obtain ⟨b'', hb''⟩ := hfree j (Nat.lt_succ_of_lt hj)
  exact ⟨b'', hother _ _ ((Function.update_of_ne (by omega) ..).trans hb'') (by omega)⟩

/-- `add_pte` returns, and all chains end. -/
theorem Kept.addPte (h : s.Kept t) (hfit : t.LinksFit) (hpfno : pfno < t.maxFtable) :
    ∃ r, addPte t s.tables vpno pfno mode = some r ∧ Kept t { s with tables := r.2 } := by
  dsimp only [PageTables.addPte]
  rw [if_neg (Nat.not_le.mpr hpfno)]
  split
  · refine ⟨_, rfl, fun i => ?_, h.free, h.frames, h.back⟩
    dsimp only [write, setDirty]
    by_cases hi : i = vpno % t.maxPtable
    · rw [hi, Function.update_self]
      dsimp only
      rw [hfit.chain _ (Nat.le_refl _)]
      exact .refl
    · rw [Function.update_of_ne hi]
      exact h.chains i
  · exact h.addCollision hfit _

/-- `invalidate_pte` leaves the chains alone. -/
theorem Kept.invalidatePte (h : s.Kept t) :
    Kept t { s with tables := s.tables.invalidatePte t vpno } := by
  refine ⟨fun i => ?_, h.free, h.frames, h.back⟩
  dsimp only [PageTables.invalidatePte, write]
  by_cases hi : i = vpno % 2 ^ 32 % t.maxPtable
  · rw [hi, Function.update_self]
    exact h.chains _
  · rw [Function.update_of_ne hi]
    exact h.chains i

/-- The loop of `alloc_frame_off_list` ends where the list does. -/
theorem allocFrameFrom_total {k fuel front : ℕ}
    (h : EndsIn s.freelist t.maxFtable (· < t.maxFtable) k front) (hfuel : k < fuel) :
    ∃ r, s.allocFrameFrom t fuel front = some r ∧
      Ends s.freelist t.maxFtable (· < t.maxFtable) r.2 := by
  induction fuel generalizing k front with
  | zero => omega
  | succ fuel ih =>
    rw [allocFrameFrom]
    cases h with
    | stop =>
      rw [if_pos rfl]
      exact ⟨_, rfl, .refl⟩
    | next hne hlt h =>
      rw [if_neg hne, if_neg (Nat.not_le.mpr hlt)]
      split
      · exact ih h (by omega)
      · exact ⟨_, rfl, _, h⟩

theorem Kept.allocFrame (h : s.Kept t) : ∃ s', s.allocFrame t osrsrvd dirty = some s' ∧
    s'.Kept t := by
  obtain ⟨k, hk⟩ := h.frames
  obtain ⟨r, hr, hends⟩ := allocFrameFrom_total hk (Nat.lt_succ_of_le (hk.le_of_lt fun _ => id))
  rw [LinkState.allocFrame, hr]
  exact ⟨_, rfl, h.chains, h.free, hends, h.back⟩

/-- **A frame is put at the back of the list**, which ends there. -/
theorem Kept.addFrameToList (h : s.Kept t) (hfit : t.LinksFit) (hsmall : t.maxFtable < 2 ^ 31)
    (hpfno : pfno < t.maxFtable) (hframe : pfno < t.frames) :
    ∃ s', s.addFrameToList t pfno = some s' ∧ s'.Kept t := by
  rw [LinkState.addFrameToList, if_neg (Nat.not_le.mpr hpfno), hfit.freelist _ (Or.inr rfl),
    hfit.freelist _ (Or.inl hframe), Nat.mod_eq_of_lt (by omega : pfno < 2 ^ 31)]
  have hlast : ∀ next : ℕ → ℕ, Ends (Function.update next pfno t.maxFtable) t.maxFtable
      (· < t.maxFtable) pfno := by
    intro next
    refine .step (Nat.ne_of_lt hpfno) hpfno ?_
    rw [Function.update_self]
    exact .refl
  split
  · exact ⟨_, rfl, h.chains, h.free, hlast _, hpfno⟩
  · rw [if_neg (Nat.not_le.mpr h.back)]
    refine ⟨_, rfl, h.chains, h.free, h.frames.change fun j hj => ⟨hj, fun hends => ?_⟩, hpfno⟩
    dsimp only at hends ⊢
    by_cases hjp : j = pfno
    · rw [hjp, Function.update_self]
      exact .refl
    · rw [Function.update_of_ne hjp]
      by_cases hjb : j = s.back
      · rw [hjb, Function.update_self]
        exact hlast _
      · rw [Function.update_of_ne hjb]
        exact hends

/-- **Every operation returns**, and its loop stays in the tables. -/
theorem Kept.step (h : s.Kept t) (hfit : t.LinksFit) (hsmall : t.maxFtable < 2 ^ 31)
    (hframes : t.maxFtable ≤ t.frames) {op : LinkOp} (hen : Enabled t op) :
    s.InTables t op ∧ ∃ s', linkStep t s op = some s' ∧ s'.Kept t := by
  cases op with
  | findPte vpno =>
    refine ⟨ChainEnds.bounded h.chains, ?_⟩
    obtain ⟨r, hr⟩ := Option.ne_none_iff_exists'.mp (ChainEnds.findPte_total (v := vpno) h.chains)
    rw [linkStep, hr]
    exact ⟨s, rfl, h⟩
  | addPte vpno pfno mode =>
    refine ⟨ChainEnds.bounded h.chains, ?_⟩
    obtain ⟨r, hr, hkept⟩ : ∃ r, PageTables.addPte t s.tables vpno pfno mode = some r ∧
        Kept t { s with tables := r.2 } := h.addPte hfit hen
    rw [linkStep, hr]
    exact ⟨_, rfl, hkept⟩
  | invalidatePte vpno => exact ⟨trivial, _, rfl, h.invalidatePte⟩
  | allocFrame osrsrvd dirty =>
    refine ⟨fun i hi hne => ?_, h.allocFrame⟩
    exact ((h.frames.visits (fun j hj => hj.1) hi).cases_on.resolve_left hne).1
  | addToFreeList pfno =>
    exact ⟨trivial, h.addFrameToList hfit hsmall hen (Nat.lt_of_lt_of_le hen hframes)⟩
  | reserve pfno => exact ⟨trivial, _, rfl, h.chains, h.free, h.frames, h.back⟩

/-- What an operation leaves. -/
theorem Kept.next (h : s.Kept t) (hfit : t.LinksFit) (hsmall : t.maxFtable < 2 ^ 31)
    (hframes : t.maxFtable ≤ t.frames) {op : LinkOp} (hstep : linkStep t s op = some s') :
    s'.Kept t := by
  by_cases hen : Enabled t op
  · obtain ⟨-, s₁, hs₁, hkept⟩ := h.step hfit hsmall hframes hen
    rwa [← Option.some.inj (hs₁.symm.trans hstep)]
  · cases op with
    | addPte vpno pfno mode =>
      have hge : t.maxFtable ≤ pfno := Nat.not_lt.mp hen
      rw [linkStep, PageTables.addPte] at hstep
      dsimp only at hstep
      rw [if_pos hge] at hstep
      cases hstep
    | addToFreeList pfno =>
      have hge : t.maxFtable ≤ pfno := Nat.not_lt.mp hen
      rw [linkStep, LinkState.addFrameToList, if_pos hge] at hstep
      cases hstep
    | reserve pfno =>
      obtain rfl := Option.some.inj hstep
      exact ⟨h.chains, h.free, h.frames, h.back⟩
    | findPte vpno => exact absurd trivial hen
    | invalidatePte vpno => exact absurd trivial hen
    | allocFrame osrsrvd dirty => exact absurd trivial hen

end Steps

end LinkState

/-! ### The start -/

namespace VmMemory

variable {m : VmMemory}

/-- Without a size that is cut off there is an entry for each frame. -/
theorem maxFtable_eq {t : VmSizes} (h : t.frames < 2 ^ 17) : t.maxFtable = t.frames := by
  unfold VmSizes.maxFtable VmSizes.ftableSize
  omega

/-- **The fields hold what is stored in them** just when there are fewer than `2 ^ 17` frames. -/
theorem linksFit_iff (t : VmSizes) : t.LinksFit ↔ t.frames < 2 ^ 17 := by
  constructor
  · rintro ⟨hchain, hfreelist⟩
    by_contra hge
    have hlast := hfreelist (t.frames - 1) (Or.inl (by omega))
    have hend := hchain t.maxCtable (Nat.le_refl _)
    unfold VmSizes.maxCtable VmSizes.ctableSize at hend
    omega
  · intro h
    refine ⟨fun i hi => ?_, fun i hi => ?_⟩
    · unfold VmSizes.maxCtable VmSizes.ctableSize at hi
      omega
    · rw [maxFtable_eq h] at hi
      omega

/-- **The tables at the start.** -/
theorem kept_start (h : m.LaidOut) (hfit : m.sizes.frames < 2 ^ 17) (page : ℕ → UsedPage)
    (locked : ℕ → Bool) (dirty freelist osrsrvd : ℕ → ℕ) :
    (linkStart m page locked dirty freelist osrsrvd).Kept m.sizes := by
  have hfields := (linksFit_iff m.sizes).mpr hfit
  have hmax := maxFtable_eq hfit
  have hfewer := h.fewer
  have hend : m.sizes.maxFtable % 2 ^ 20 = m.sizes.maxFtable := hfields.freelist _ (Or.inr rfl)
  have hframes : m.sizes.frames = m.memTop / 2 ^ 12 := rfl
  have hbot : m.memBot / 2 ^ 12 < m.sizes.maxFtable := by
    have habove := h.above
    unfold ppftable ftable ctable ptable maxPf at habove
    omega
  refine ⟨fun i => ?_, ⟨m.sizes.maxCtable, Nat.le_refl _, ⟨_, _, rfl⟩, fun j hj => ⟨_, rfl⟩⟩,
    ?_, ?_⟩
  · have hchain : ((linkStart m page locked dirty freelist osrsrvd).tables.ptable i).chain
        = m.sizes.maxCtable := hfields.chain _ (Nat.le_refl _)
    rw [hchain]
    exact .refl
  · refine .of_rank (Q := fun j => m.memBot / 2 ^ 12 ≤ j ∧ j ≤ m.sizes.maxFtable)
      (fun j => m.sizes.maxFtable - j) ?_ fun j hne hj => ⟨by omega, ?_⟩
    · dsimp only [linkStart, ftableInit]
      omega
    · dsimp only [linkStart, ftableInit]
      rw [Function.update_apply, hend]
      split_ifs with hback hlast hlinked
      · exact Or.inl rfl
      · exact Or.inl rfl
      · rw [Nat.mod_eq_of_lt (by omega)]
        omega
      · omega
  · dsimp only [linkStart, ftableInit]
    omega

end VmMemory

/-- 64 megabytes, the first one with the images. -/
def memory64 : VmMemory := ⟨2 ^ 26, 2 ^ 20, false⟩

/-- 512 megabytes. -/
def memory512 : VmMemory := ⟨2 ^ 29, 2 ^ 20, false⟩

end Mungi
