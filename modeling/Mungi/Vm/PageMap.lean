import Mungi.Vm.PageTable

/-!
# The page table as a map

`add_pte` puts a page into the page table, and `find_pte` is to find it from then on, and
nothing else.  The lookup stops at the first page of a chain that is not smaller, so this
wants chains in order.  But `add_collision` never puts a page before the first of its slot,
which is in the other table, nor behind the last: the loop that looks for the place stops at
the last entry without comparing it, and the new entry goes before it.  So the chain is in
order only when the first page of a slot is its smallest and the second its largest.

## Main definitions

* `PteState`, `pteStep` — the tables with the pages added, and a call of `add_pte`.
* `PteState.Map` — the tables are the map of what was added.
* `InOrder` — the place of a page among those of its slot.

## Main results

* `pageMap_iff` — **the table is a map after every call just when all calls are in order.**
-/

namespace Mungi

open Runs PageTables

/-- The arguments of `add_pte`. -/
structure AddPte where
  vpno : ℕ
  pfno : ℕ
  /-- `char mode`, the dirty bit. -/
  mode : ℕ
  deriving DecidableEq, Repr

/-- The tables, and the pages and frames added so far, the last first. -/
structure PteState where
  tables : PageTables
  added : List (ℕ × ℕ)

namespace PteState

variable (t : VmSizes) (s : PteState)

/-- The page has been added. -/
def Added (v : ℕ) : Prop := v ∈ s.added.map Prod.fst

instance (v : ℕ) : Decidable (s.Added v) := inferInstanceAs (Decidable (_ ∈ _))

/-- The slot of the page is taken, so that it goes into the collision table. -/
def Collides (v : ℕ) : Prop := (s.tables.ptable (v % t.maxPtable)).valid = pteValid

instance (v : ℕ) : Decidable (s.Collides t v) := inferInstanceAs (Decidable (_ = _))

/-- The next entry of the collision table, and what is in its memory. -/
def nextFree : Option (ℕ × FreeEntry) :=
  match s.tables.ctable t.maxCtable with
  | .up _ => none
  | .fp f =>
    match s.tables.ctable f.next with
    | .up _ => none
    | .fp new => if f.next = t.maxCtable then none else some (f.next, new)

/-- A call: of a page not added yet, with a frame of the frame table, and a free entry of the
collision table where one is wanted. -/
def Enabled (op : AddPte) : Prop :=
  ¬ s.Added op.vpno ∧ op.pfno < t.maxFtable ∧
    (s.Collides t op.vpno → (s.nextFree t).isSome = true)

instance (op : AddPte) : Decidable (s.Enabled t op) := inferInstanceAs (Decidable (_ ∧ _))

/-- The tables are the map of the pages added to their frames. -/
def Map : Prop :=
  (∀ v f, (v, f) ∈ s.added → ∃ p u, s.tables.findPte t v = some (some p) ∧
    s.tables.read p = some u ∧ u.pagenum = v ∧ u.framenum = f) ∧
  ∀ v < 2 ^ 32, ¬ s.Added v → s.tables.findPte t v = some none

/-- The pages of a slot, in the order they were added in. -/
def slotPages (i : ℕ) : List ℕ :=
  ((s.added.map Prod.fst).filter fun v => v % t.maxPtable = i).reverse

/-- The memory of the next entry of the collision table looks like that of one in use. -/
def Clashes : Prop := ∃ r ∈ s.nextFree t, t.upValid r.2 = pteValid

instance : Decidable (s.Clashes t) := inferInstanceAs (Decidable (∃ r ∈ _, _))

end PteState

/-- A further page of a slot is larger than the first one, and smaller than the second. -/
def InOrder : List ℕ → ℕ → Prop
  | [], _ => True
  | [a], v => a < v
  | a :: b :: _, v => a < v ∧ v < b

instance InOrder.decidable : ∀ l v, Decidable (InOrder l v)
  | [], _ => .isTrue trivial
  | [a], v => inferInstanceAs (Decidable (a < v))
  | a :: b :: _, v => inferInstanceAs (Decidable (a < v ∧ v < b))

/-- One call of `add_pte`. -/
def pteStep (t : VmSizes) (s : PteState) (op : AddPte) : Option PteState :=
  if s.Enabled t op then
    (s.tables.addPte t op.vpno op.pfno op.mode).map fun r => ⟨r.2, (op.vpno, op.pfno) :: s.added⟩
  else none

/-- The state `ptable_init`'s clearing loops leave. -/
def pteStart (t : VmSizes) (page : ℕ → UsedPage) (locked : ℕ → Bool) (dirty : ℕ → ℕ) :
    PteState := ⟨ptableInit t page locked dirty, []⟩

/-- What a call is to do: return, and leave the map of what was added. -/
def PteState.Sound (t : VmSizes) (s : PteState) (op : AddPte) : Prop :=
  s.Enabled t op → ∃ s', pteStep t s op = some s' ∧ s'.Map t

/-- When it does so: the page number fits an `unsigned int`, the page is in order among those of
its slot, and the memory of the entry it takes does not look like one in use. -/
def PteState.Fits (t : VmSizes) (s : PteState) (op : AddPte) : Prop :=
  s.Enabled t op → op.vpno < 2 ^ 32 ∧ InOrder (s.slotPages t (op.vpno % t.maxPtable)) op.vpno ∧
    (s.Collides t op.vpno → ¬ s.Clashes t)

instance (t : VmSizes) (s : PteState) (op : AddPte) : Decidable (s.Fits t op) :=
  inferInstanceAs (Decidable (_ → _))

/-! ### The invariant of the calls in order -/

/-- The chain of a slot. -/
structure SlotChain (t : VmSizes) (s : PteState) (i : ℕ) (m : Mapped) (l : List Mapped) :
    Prop where
  at_head : m.pte = .head i
  path : Path t s.tables (m :: l)
  entries : ∀ n ∈ l, ∃ c < t.maxCtable, n.pte = .entry c
  sorted : (m :: l).Pairwise fun x y => x.page < y.page
  mem : ∀ v f, (∃ n ∈ m :: l, n.page = v ∧ n.frame = f) ↔
    (v, f) ∈ s.added ∧ v % t.maxPtable = i
  order : ∃ rest, s.slotPages t i = m.page :: rest ∧ rest.head? = l.getLast?.map Mapped.page

/-- The invariant: every slot is empty or has a chain in order, and the free list goes down. -/
structure PteState.Kept (t : VmSizes) (s : PteState) : Prop where
  slots : ∀ i, (s.slotPages t i = [] ∧ (s.tables.ptable i).valid = pteInvalid) ∨
    ∃ m l, SlotChain t s i m l
  free : ∃ n ≤ t.maxCtable, (∃ b, s.tables.ctable t.maxCtable = .fp ⟨pteInvalid, b, t.below n⟩) ∧
    ∀ j < n, ∃ b, s.tables.ctable j = .fp ⟨pteInvalid, b, t.below j⟩
  small : ∀ v, s.Added v → v < 2 ^ 32

section Calls
variable {t : VmSizes} {s s' : PteState} {i v f : ℕ} {m : Mapped} {l : List Mapped}

theorem slotPages_add (tables : PageTables) (v f i : ℕ) :
    (PteState.mk tables ((v, f) :: s.added)).slotPages t i =
      s.slotPages t i ++ if v % t.maxPtable = i then [v] else [] := by
  unfold PteState.slotPages
  rw [List.map_cons, List.filter_cons]
  by_cases h : v % t.maxPtable = i <;> simp [h]

theorem mem_slotPages : v ∈ s.slotPages t i ↔ s.Added v ∧ v % t.maxPtable = i := by
  simp [PteState.slotPages, PteState.Added]

namespace SlotChain

theorem length_le (h : SlotChain t s i m l) : l.length ≤ t.maxCtable :=
  PageTables.length_le (List.nodup_cons.mp (h.path.nodup h.sorted)).2 h.entries

theorem valid (h : SlotChain t s i m l) : (s.tables.ptable i).valid = pteValid := by
  obtain ⟨u, hu, hvalid, -⟩ := h.path.1
  rw [h.at_head] at hu
  rwa [← Option.some.inj hu] at hvalid

theorem page_mem (h : SlotChain t s i m l) {n : Mapped} (hn : n ∈ m :: l) :
    s.Added n.page ∧ n.page % t.maxPtable = i := by
  obtain ⟨hmem, hi⟩ := (h.mem n.page n.frame).mp ⟨n, hn, rfl, rfl⟩
  exact ⟨List.mem_map.mpr ⟨_, hmem, rfl⟩, hi⟩

/-- A chain in order finds its pages. -/
theorem findPte_mem (h : SlotChain t s i m l) {n : Mapped} (hn : n ∈ m :: l)
    (hsmall : n.page < 2 ^ 32) : s.tables.findPte t n.page = some (some n.pte) := by
  have hi := (h.page_mem hn).2
  rw [findPte_eq h.path hsmall (by rw [hi]; exact h.at_head) h.length_le]
  rcases List.mem_cons.mp hn with rfl | hn
  · rw [if_pos rfl]
  · rw [if_neg (Nat.ne_of_lt ((List.pairwise_cons.mp h.sorted).1 n hn)),
      lookup_sorted h.sorted hn]

end SlotChain

/-- While the calls are in order the tables are a map. -/
theorem PteState.Kept.map (h : s.Kept t) : s.Map t := by
  constructor
  · intro v f hvf
    have hadded : s.Added v := List.mem_map.mpr ⟨_, hvf, rfl⟩
    obtain ⟨hempty, -⟩ | ⟨m, l, hchain⟩ := h.slots (v % t.maxPtable)
    · have hmem := (mem_slotPages (t := t)).mpr ⟨hadded, rfl⟩
      rw [hempty] at hmem
      cases hmem
    · obtain ⟨n, hn, rfl, rfl⟩ := (hchain.mem v f).mpr ⟨hvf, rfl⟩
      obtain ⟨u, hu, hpage, hframe⟩ := hchain.path.read_of_mem hn
      exact ⟨n.pte, u, hchain.findPte_mem hn (h.small _ hadded), hu, hpage, hframe⟩
  · intro v hv hno
    obtain ⟨hempty, hinvalid⟩ | ⟨m, l, hchain⟩ := h.slots (v % t.maxPtable)
    · unfold findPte
      rw [Nat.mod_eq_of_lt hv]
      dsimp only
      rw [hinvalid, if_neg (fun hvalid => absurd hvalid.1 (by decide))]
      exact if_neg (fun hne => hne rfl)
    · have hne : ∀ n ∈ m :: l, n.page ≠ v := fun n hn heq =>
        hno (heq ▸ (hchain.page_mem hn).1)
      rw [findPte_eq hchain.path hv hchain.at_head hchain.length_le,
        if_neg (hne m List.mem_cons_self),
        lookup_none fun n hn => hne n (List.mem_cons_of_mem m hn)]

/-- A page that does not fit an `unsigned int` is not found again. -/
theorem not_map_of_le {f : ℕ} (hv : 2 ^ 32 ≤ v) (hmem : (v, f) ∈ s.added) : ¬ s.Map t := by
  intro hmap
  obtain ⟨p, u, hfind, hread, hpage, -⟩ := hmap.1 v f hmem
  obtain ⟨u', hread', hpage'⟩ := pagenum_of_findPte hfind
  rw [hread, Option.some.injEq] at hread'
  rw [← hread', hpage] at hpage'
  omega

/-- Nor is one for which `find_pte` returns `NULL`. -/
theorem not_map_of_none {f : ℕ} (hmem : (v, f) ∈ s.added)
    (hfind : s.tables.findPte t v = some none) : ¬ s.Map t := by
  intro hmap
  obtain ⟨p, u, hfind', -⟩ := hmap.1 v f hmem
  rw [hfind] at hfind'
  cases hfind'

theorem pteKept_start (t : VmSizes) (page : ℕ → UsedPage) (locked : ℕ → Bool) (dirty : ℕ → ℕ) :
    (pteStart t page locked dirty).Kept t where
  slots _ := Or.inl ⟨rfl, rfl⟩
  free := ⟨t.maxCtable, Nat.le_refl _, ⟨_, rfl⟩, fun _ _ => ⟨_, rfl⟩⟩
  small v hv := by cases hv

/-! ### A call in an empty slot -/

theorem collides_iff (h : s.Kept t) : s.Collides t v ↔ s.slotPages t (v % t.maxPtable) ≠ [] := by
  unfold PteState.Collides
  obtain ⟨hempty, hinvalid⟩ | ⟨m, l, hchain⟩ := h.slots (v % t.maxPtable)
  · simp [hempty, hinvalid, pteInvalid, pteValid]
  · obtain ⟨rest, hrest, -⟩ := hchain.order
    simp [hchain.valid, hrest]

/-- A chain of another slot stays as it is. -/
theorem SlotChain.other {tables : PageTables} (h : SlotChain t s i m l)
    (hv : v % t.maxPtable ≠ i) (hread : ∀ n ∈ m :: l, tables.read n.pte = s.tables.read n.pte) :
    SlotChain t ⟨tables, (v, f) :: s.added⟩ i m l where
  at_head := h.at_head
  path := h.path.frame hread
  entries := h.entries
  sorted := h.sorted
  mem v' f' := by
    rw [h.mem v' f', List.mem_cons]
    constructor
    · exact fun hmem => ⟨Or.inr hmem.1, hmem.2⟩
    · rintro ⟨heq | hmem, hi⟩
      · cases heq
        exact absurd hi hv
      · exact ⟨hmem, hi⟩
  order := by
    obtain ⟨rest, hrest, hlast⟩ := h.order
    exact ⟨rest, by rw [slotPages_add, if_neg hv, List.append_nil, hrest], hlast⟩

/-- A slot stays as it is when its entry of the page table and those of its chain do. -/
theorem slot_other {tables : PageTables} (h : s.Kept t) (hv : v % t.maxPtable ≠ i)
    (hhead : tables.ptable i = s.tables.ptable i)
    (hread : ∀ m l, SlotChain t s i m l →
      ∀ n ∈ m :: l, tables.read n.pte = s.tables.read n.pte) :
    ((PteState.mk tables ((v, f) :: s.added)).slotPages t i = [] ∧
        (tables.ptable i).valid = pteInvalid) ∨
      ∃ m l, SlotChain t ⟨tables, (v, f) :: s.added⟩ i m l := by
  obtain ⟨hempty, hinvalid⟩ | ⟨m, l, hchain⟩ := h.slots i
  · left
    rw [slotPages_add, if_neg hv, hempty, hhead]
    exact ⟨rfl, hinvalid⟩
  · exact Or.inr ⟨m, l, hchain.other hv (hread m l hchain)⟩

/-- The first page of a slot. -/
theorem kept_head (h : s.Kept t) {op : AddPte} (hen : s.Enabled t op)
    (hno : ¬ s.Collides t op.vpno) (hsmall : t.frames < 2 ^ 17) (hv : op.vpno < 2 ^ 32)
    (hstep : pteStep t s op = some s') : s'.Kept t := by
  obtain ⟨v, f, mode⟩ := op
  dsimp only at hv hno
  have hlt : f < t.maxFtable := hen.2.1
  have hf : f < t.frames := by
    unfold VmSizes.maxFtable VmSizes.ftableSize at hlt
    omega
  have hmax : t.maxCtable < 2 ^ 15 := by
    unfold VmSizes.maxCtable VmSizes.ctableSize
    omega
  have hempty : s.slotPages t (v % t.maxPtable) = [] := by
    simpa using fun hne => hno ((collides_iff h).mpr hne)
  simp only [pteStep, if_pos hen, addPte, if_neg (show ¬ t.maxFtable ≤ f from Nat.not_le.mpr hlt),
    ne_eq, show ¬ (s.tables.ptable (v % t.maxPtable)).valid = pteValid from hno,
    not_false_eq_true, if_true, Option.map_some, Option.some.injEq] at hstep
  rw [Nat.mod_eq_of_lt (show v < 2 ^ 36 by omega), Nat.mod_eq_of_lt (show f < 2 ^ 20 by omega),
    Nat.mod_eq_of_lt hmax] at hstep
  subst hstep
  refine ⟨fun i => ?_, h.free, ?_⟩
  · by_cases hi : v % t.maxPtable = i
    · subst hi
      refine Or.inr ⟨⟨.head (v % t.maxPtable), v, f⟩, [], rfl, ?_, by simp, by simp, ?_, ?_⟩
      · exact ⟨⟨⟨pteValid, v, f, t.maxCtable⟩, by rw [read_write, if_pos rfl], rfl, rfl, rfl, rfl⟩,
          trivial⟩
      · intro v' f'
        simp only [List.mem_cons, Prod.mk.injEq]
        constructor
        · rintro ⟨n, rfl | hn, rfl, rfl⟩
          · exact ⟨Or.inl ⟨rfl, rfl⟩, rfl⟩
          · cases hn
        · rintro ⟨⟨rfl, rfl⟩ | hmem, hi⟩
          · exact ⟨_, Or.inl rfl, rfl, rfl⟩
          · have hin := (mem_slotPages (t := t)).mpr ⟨List.mem_map.mpr ⟨_, hmem, rfl⟩, hi⟩
            rw [hempty] at hin
            cases hin
      · exact ⟨[], by rw [slotPages_add, if_pos rfl, hempty]; rfl, rfl⟩
    · apply slot_other h hi
      · exact Function.update_of_ne (Ne.symm hi) _ _
      · intro m l hchain n hn
        rw [read_write, if_neg]
        · rfl
        · rintro heq
          rcases List.mem_cons.mp hn with rfl | hn
          · rw [hchain.at_head] at heq
            exact hi (Pte.head.inj heq).symm
          · obtain ⟨c, -, hc⟩ := hchain.entries n hn
            rw [hc] at heq
            cases heq
  · intro w hw
    rcases List.mem_cons.mp hw with rfl | hw
    · exact hv
    · exact h.small w hw

/-! ### A call in a slot with a chain -/

/-- The next free entry, while there is one. -/
theorem nextFree_spec (h : s.Kept t) (hsome : (s.nextFree t).isSome = true) :
    ∃ n < t.maxCtable, ∃ b b', s.tables.ctable t.maxCtable = .fp ⟨pteInvalid, b, n⟩ ∧
      s.tables.ctable n = .fp ⟨pteInvalid, b', t.below n⟩ ∧
      s.nextFree t = some (n, ⟨pteInvalid, b', t.below n⟩) ∧
      ∀ j < n, ∃ b, s.tables.ctable j = .fp ⟨pteInvalid, b, t.below j⟩ := by
  obtain ⟨n, hn, ⟨b, hhead⟩, hfree⟩ := h.free
  cases n with
  | zero =>
    -- the free list is empty
    simp [PteState.nextFree, hhead, VmSizes.below] at hsome
  | succ n =>
    have hbelow : t.below (n + 1) = n := rfl
    rw [hbelow] at hhead
    obtain ⟨b', hn'⟩ := hfree n (Nat.lt_succ_self n)
    refine ⟨n, hn, b, b', hhead, hn', ?_, fun j hj => hfree j (Nat.lt_succ_of_lt hj)⟩
    simp only [PteState.nextFree, hhead, hn']
    exact if_neg (Nat.ne_of_lt hn)

/-- What a call does when the slot has a chain and the entry it takes looks free. -/
theorem collision_spec (h : s.Kept t) {op : AddPte} (hen : s.Enabled t op)
    (hcol : s.Collides t op.vpno) (hclash : ¬ s.Clashes t) (hsmall : t.frames < 2 ^ 17)
    (hv : op.vpno < 2 ^ 32) :
    ∃ m l a x b c tables, SlotChain t s (op.vpno % t.maxPtable) m l ∧
      pteStep t s op = some ⟨tables, (op.vpno, op.pfno) :: s.added⟩ ∧ m :: l = a ++ x :: b ∧
      ((a = [] ∧ (op.vpno ≤ m.page ∨ l = [])) ∨
        ((∀ y ∈ a ++ [x], y.page < op.vpno) ∧
          ∃ n b', b = n :: b' ∧ (op.vpno ≤ n.page ∨ b' = []))) ∧
      Path t tables (a ++ x :: ⟨.entry c, op.vpno, op.pfno⟩ :: b) ∧ c < t.maxCtable ∧
      s.tables.read (.entry c) = none ∧
      (∀ q, q ≠ .entry c → q ≠ x.pte → tables.read q = s.tables.read q) ∧
      (∃ b, tables.ctable t.maxCtable = .fp ⟨pteInvalid, b, t.below c⟩) ∧
      ∀ j < c, ∃ b, tables.ctable j = .fp ⟨pteInvalid, b, t.below j⟩ := by
  obtain ⟨v, f, mode⟩ := op
  dsimp only at hv hcol ⊢
  have hlt : f < t.maxFtable := hen.2.1
  have hf : f < t.frames := by
    unfold VmSizes.maxFtable VmSizes.ftableSize at hlt
    omega
  have hmax : t.maxCtable < 2 ^ 15 := by
    unfold VmSizes.maxCtable VmSizes.ctableSize
    omega
  obtain ⟨c, hc, bit, bit', hhead, hcell, hnext, hfree⟩ := nextFree_spec h (hen.2.2 hcol)
  obtain ⟨hempty, -⟩ | ⟨m, l, hchain⟩ := h.slots (v % t.maxPtable)
  · exact absurd hempty ((collides_iff h).mp hcol)
  -- the tables when the entry has been taken off the free list
  have hread : ∀ q, (((s.tables.setFree t ⟨pteInvalid, bit, c⟩ (t.below c)).setDirty f mode).read q)
      = s.tables.read q := fun q => read_setFree hhead _ q
  generalize htables : (s.tables.setFree t ⟨pteInvalid, bit, c⟩ (t.below c)).setDirty f mode =
    tables₁ at hread
  have hpath₁ : Path t tables₁ (m :: l) := hchain.path.frame fun n _ => hread n.pte
  have hctable : ∀ j, tables₁.ctable j = if j = t.maxCtable then
      .fp ⟨pteInvalid, false, t.below c⟩ else s.tables.ctable j := by
    intro j
    rw [← htables]
    exact Function.update_apply ..
  obtain ⟨r, a, x, b, hspot, htarget, heq, hwhere⟩ := spot_spec (v := v) hpath₁ hchain.length_le
  have hnone : s.tables.read (.entry c) = none := by simp only [PageTables.read, hcell]
  have hmem : ∀ y ∈ m :: l, y.pte ≠ .entry c := by
    intro y hy hyc
    obtain ⟨u, hu, -⟩ := hchain.path.read_of_mem hy
    rw [hyc, hnone] at hu
    cases hu
  have hfresh : Pte.entry c ∉ (a ++ x :: b).map Mapped.pte := by
    rw [← heq]
    intro hin
    obtain ⟨y, hy, hyc⟩ := List.mem_map.mp hin
    exact hmem y hy hyc
  -- no entry of the chain is a free one
  have hx' : ∀ j, (∃ bit next, s.tables.ctable j = .fp ⟨pteInvalid, bit, next⟩) →
      x.pte ≠ .entry j := by
    rintro j ⟨bit₂, next, hj⟩ hxj
    obtain ⟨u, hu, -⟩ := hchain.path.read_of_mem (show x ∈ m :: l by rw [heq]; simp)
    simp only [hxj, PageTables.read, hj] at hu
    cases hu
  obtain ⟨tables, hlink, hpath, hframe, hcells⟩ :=
    Path.insert (n := ⟨.entry c, v, f⟩) (heq ▸ hpath₁) (heq ▸ hchain.path.nodup hchain.sorted)
      rfl hfresh (Nat.ne_of_lt hc) (by omega) (by dsimp only; omega) (by dsimp only; omega)
  refine ⟨m, l, a, x, b, c, tables, hchain, ?_, heq, hwhere, hpath, hc, hnone, ?_, ?_, ?_⟩
  · have hup : t.upValid ⟨pteInvalid, bit', t.below c⟩ ≠ pteValid := fun hup =>
      hclash ⟨_, hnext, hup⟩
    have hadd : s.tables.addPte t v f mode = some (some (.entry c), tables) := by
      unfold addPte
      dsimp only
      rw [if_neg (show ¬ t.maxFtable ≤ f from Nat.not_le.mpr hlt), if_neg (fun hne => hne hcol)]
      unfold addCollision
      simp only [hhead, hcell]
      rw [if_neg (Nat.ne_of_lt hc), if_neg hup, htables, ← hchain.at_head, hspot,
        Option.bind_some, htarget, hlink, Option.map_some]
    rw [pteStep, if_pos hen, hadd, Option.map_some]
  · intro q hq hqx
    rw [hframe q hq hqx, hread]
  · rw [hcells _ (fun heq' => Nat.ne_of_lt hc (Pte.entry.inj heq')) (hx' _ ⟨_, _, hhead⟩), hctable,
      if_pos rfl]
    exact ⟨_, rfl⟩
  · intro j hj
    obtain ⟨bit₂, hj'⟩ := hfree j hj
    rw [hcells _ (fun heq' => Nat.ne_of_gt hj (Pte.entry.inj heq')) (hx' _ ⟨_, _, hj'⟩), hctable,
      if_neg (by omega), hj']
    exact ⟨_, rfl⟩

/-- A list with an element put in behind the first. -/
theorem insert_tail {α : Type} {m x : α} {l a b : List α} (n : α) (heq : m :: l = a ++ x :: b) :
    ∃ l', a ++ x :: n :: b = m :: l' ∧ (∀ y, y ∈ l' ↔ y = n ∨ y ∈ l) ∧
      l'.getLast? = (n :: b).getLast? ∧ (b ≠ [] → l.getLast? = b.getLast?) := by
  cases a with
  | nil =>
    obtain ⟨rfl, rfl⟩ := List.cons.inj heq
    exact ⟨n :: l, rfl, by simp, rfl, fun _ => rfl⟩
  | cons y a =>
    obtain ⟨rfl, rfl⟩ : m = y ∧ l = a ++ x :: b := List.cons.inj heq
    refine ⟨a ++ x :: n :: b, rfl, fun y => ?_, ?_, fun hb => ?_⟩
    · simp only [List.mem_append, List.mem_cons]
      tauto
    · simp [List.getLast?_append, List.getLast?_cons]
    · obtain ⟨z, b, rfl⟩ := List.exists_cons_of_ne_nil hb
      simp [List.getLast?_append, List.getLast?_cons]

/-- An order stays one when an element is put in at its place. -/
theorem sorted_insert {a b : List Mapped} {x n : Mapped}
    (h : (a ++ x :: b).Pairwise fun x y => x.page < y.page)
    (ha : ∀ y ∈ a ++ [x], y.page < n.page) (hb : ∀ y ∈ b, n.page < y.page) :
    (a ++ x :: n :: b).Pairwise fun x y => x.page < y.page := by
  rw [show a ++ x :: b = (a ++ [x]) ++ b by simp] at h
  rw [show a ++ x :: n :: b = (a ++ [x]) ++ n :: b by simp]
  obtain ⟨h₁, h₂, h₃⟩ := List.pairwise_append.mp h
  refine List.pairwise_append.mpr ⟨h₁, List.pairwise_cons.mpr ⟨hb, h₂⟩, fun y hy z hz => ?_⟩
  rcases List.mem_cons.mp hz with rfl | hz
  · exact ha y hy
  · exact h₃ y hy z hz

/-- In a chain in order the last page is not smaller than one before it. -/
theorem page_le_last {n z : Mapped} {b : List Mapped}
    (h : (n :: b).Pairwise fun x y => x.page < y.page) (hz : (n :: b).getLast? = some z) :
    n.page ≤ z.page := by
  rcases List.mem_cons.mp (List.mem_of_getLast? hz) with rfl | hmem
  · exact Nat.le_refl _
  · exact Nat.le_of_lt ((List.pairwise_cons.mp h).1 z hmem)

/-- A page in order goes between the others of its slot. -/
theorem kept_collision (h : s.Kept t) {op : AddPte} (hen : s.Enabled t op)
    (hcol : s.Collides t op.vpno) (hclash : ¬ s.Clashes t) (hsmall : t.frames < 2 ^ 17)
    (hv : op.vpno < 2 ^ 32) (hin : InOrder (s.slotPages t (op.vpno % t.maxPtable)) op.vpno)
    (hstep : pteStep t s op = some s') : s'.Kept t := by
  obtain ⟨m, l, a, x, b, c, tables, hchain, hstep', heq, hwhere, hpath, hc, hnone, hframe, hhead,
    hfree⟩ := collision_spec h hen hcol hclash hsmall hv
  obtain ⟨v, f, mode⟩ := op
  dsimp only at hv hcol hin hchain hstep' heq hwhere hpath
  rw [hstep', Option.some.injEq] at hstep
  subst hstep
  obtain ⟨rest, hpages, hlast⟩ := hchain.order
  rw [hpages] at hin
  have hne : ∀ y ∈ m :: l, y.page ≠ v := fun y hy heq =>
    hen.1 (heq ▸ (hchain.page_mem hy).1)
  have hsorted := hchain.sorted
  rw [heq] at hsorted
  obtain ⟨l', hl', hmem, hlast', hlastb⟩ := insert_tail ⟨.entry c, v, f⟩ heq
  -- the pages before the new one are smaller, those behind it larger
  have hplace : (∀ y ∈ a ++ [x], y.page < v) ∧ (∀ y ∈ b, v < y.page) ∧
      (rest ++ [v]).head? = l'.getLast?.map Mapped.page := by
    obtain ⟨rfl, hfirst⟩ | ⟨hbefore, n, b', rfl, hn⟩ := hwhere
    · obtain ⟨rfl, rfl⟩ := List.cons.inj heq
      cases l with
      | nil =>
        obtain rfl : rest = [] := List.head?_eq_none_iff.mp hlast
        exact ⟨by simpa [InOrder] using hin, by simp, by simp [hlast']⟩
      | cons n l =>
        obtain ⟨z, rest, rfl⟩ : ∃ z rest', rest = z :: rest' := by
          cases rest with
          | nil => simp [List.getLast?_cons] at hlast
          | cons z rest => exact ⟨z, rest, rfl⟩
        rcases hfirst with hle | hnil
        · exact absurd hin.1 (by omega)
        · cases hnil
    · rw [hlastb (by simp)] at hlast
      rw [List.getLast?_cons_cons] at hlast'
      obtain ⟨z, hz⟩ : ∃ z, (n :: b').getLast? = some z := ⟨_, List.getLast?_cons ..⟩
      rw [hz, Option.map_some] at hlast
      rw [hlast', hz, Option.map_some]
      obtain ⟨rest, rfl⟩ : ∃ rest', rest = z.page :: rest' := by
        cases rest with
        | nil => cases hlast
        | cons z' rest => exact ⟨rest, by rw [Option.some.inj hlast]⟩
      have hsuffix := (List.pairwise_cons.mp (List.pairwise_append.mp hsorted).2.1).2
      have hlt : v < n.page := by
        rcases hn with hle | rfl
        · have := hne n (by rw [heq]; simp)
          omega
        · obtain rfl : n = z := by simpa using hz
          exact hin.2
      refine ⟨hbefore, fun y hy => ?_, rfl⟩
      rcases List.mem_cons.mp hy with rfl | hy
      · exact hlt
      · exact Nat.lt_trans hlt ((List.pairwise_cons.mp hsuffix).1 y hy)
  obtain ⟨hbefore, hbehind, horder⟩ := hplace
  have hx : x ∈ m :: l := by rw [heq]; simp
  refine ⟨fun i => ?_, ⟨c, Nat.le_of_lt hc, hhead, hfree⟩, ?_⟩
  · by_cases hi : v % t.maxPtable = i
    · subst hi
      refine Or.inr ⟨m, l', hchain.at_head, by rw [← hl']; exact hpath, ?_, ?_, ?_, ?_⟩
      · intro y hy
        rcases (hmem y).mp hy with rfl | hy
        · exact ⟨c, hc, rfl⟩
        · exact hchain.entries y hy
      · rw [← hl']
        exact sorted_insert hsorted hbefore hbehind
      · intro v' f'
        rw [List.mem_cons]
        constructor
        · rintro ⟨y, hy, rfl, rfl⟩
          rcases List.mem_cons.mp hy with rfl | hy
          · obtain ⟨h₁, h₂⟩ := (hchain.mem _ _).mp ⟨y, List.mem_cons_self, rfl, rfl⟩
            exact ⟨Or.inr h₁, h₂⟩
          · rcases (hmem y).mp hy with rfl | hy
            · exact ⟨Or.inl rfl, rfl⟩
            · obtain ⟨h₁, h₂⟩ := (hchain.mem _ _).mp ⟨y, List.mem_cons_of_mem m hy, rfl, rfl⟩
              exact ⟨Or.inr h₁, h₂⟩
        · rintro ⟨heq' | hmem', hi⟩
          · cases heq'
            exact ⟨_, List.mem_cons_of_mem m ((hmem _).mpr (Or.inl rfl)), rfl, rfl⟩
          · obtain ⟨y, hy, h₁, h₂⟩ := (hchain.mem _ _).mpr ⟨hmem', hi⟩
            rcases List.mem_cons.mp hy with rfl | hy
            · exact ⟨y, List.mem_cons_self, h₁, h₂⟩
            · exact ⟨y, List.mem_cons_of_mem m ((hmem y).mpr (Or.inr hy)), h₁, h₂⟩
      · exact ⟨rest ++ [v], by rw [slotPages_add, if_pos rfl, hpages]; rfl, horder⟩
    · -- the entry before the new one belongs to another slot
      have hother : ∀ m' l', SlotChain t s i m' l' → ∀ n ∈ m' :: l', n.pte ≠ x.pte := by
        intro m' l' hchain' n hn hnx
        have hpage := Path.page_eq hchain'.path hchain.path hn hx hnx
        rw [← (hchain'.page_mem hn).2, hpage] at hi
        exact hi (hchain.page_mem hx).2.symm
      apply slot_other h hi
      · refine Option.some.inj (hframe (.head i) (fun hno => by cases hno) fun hix => ?_)
        rcases List.mem_cons.mp hx with rfl | hx
        · rw [hchain.at_head] at hix
          exact hi (Pte.head.inj hix).symm
        · obtain ⟨c', -, hc'⟩ := hchain.entries x hx
          rw [hc'] at hix
          cases hix
      · intro m' l' hchain' n hn
        refine hframe n.pte (fun hnc => ?_) (hother m' l' hchain' n hn)
        obtain ⟨u, hu, -⟩ := hchain'.path.read_of_mem hn
        rw [hnc, hnone] at hu
        cases hu
  · intro w hw
    rcases List.mem_cons.mp hw with rfl | hw
    · exact hv
    · exact h.small w hw

/-- A page that is not in order hides itself or the last page of the chain. -/
theorem not_map_collision (h : s.Kept t) {op : AddPte} (hen : s.Enabled t op)
    (hcol : s.Collides t op.vpno) (hclash : ¬ s.Clashes t) (hsmall : t.frames < 2 ^ 17)
    (hv : op.vpno < 2 ^ 32) (hin : ¬ InOrder (s.slotPages t (op.vpno % t.maxPtable)) op.vpno)
    (hstep : pteStep t s op = some s') : ¬ s'.Map t := by
  obtain ⟨m, l, a, x, b, c, tables, hchain, hstep', heq, hwhere, hpath, hc, hnone, hframe, -⟩ :=
    collision_spec h hen hcol hclash hsmall hv
  obtain ⟨v, f, mode⟩ := op
  dsimp only at hv hcol hin hchain hstep' heq hwhere hpath
  rw [hstep', Option.some.injEq] at hstep
  subst hstep
  obtain ⟨rest, hpages, hlast⟩ := hchain.order
  rw [hpages] at hin
  have hne : ∀ y ∈ m :: l, y.page ≠ v := fun y hy heq =>
    hen.1 (heq ▸ (hchain.page_mem hy).1)
  obtain ⟨l', hl', hmem, hlast', hlastb⟩ := insert_tail ⟨.entry c, v, f⟩ heq
  rw [hl'] at hpath
  have hnew : ∀ y ∈ m :: l, y.pte ≠ .entry c := by
    intro y hy hyc
    obtain ⟨u, hu, -⟩ := hchain.path.read_of_mem hy
    rw [hyc, hnone] at hu
    cases hu
  -- one more entry of the collision table
  have hlen : l'.length ≤ t.maxCtable := by
    have hle := PageTables.length_le (t := t) (l := ⟨.entry c, v, f⟩ :: l) ?_ ?_
    · have h₁ := congrArg List.length hl'
      have h₂ := congrArg List.length heq
      simp only [List.length_append, List.length_cons] at h₁ h₂ hle
      omega
    · refine List.nodup_cons.mpr ⟨fun hin => ?_, (List.nodup_cons.mp
        (hchain.path.nodup hchain.sorted)).2⟩
      obtain ⟨y, hy, hyc⟩ := List.mem_map.mp hin
      exact hnew y (List.mem_cons_of_mem m hy) hyc
    · intro y hy
      rcases List.mem_cons.mp hy with rfl | hy
      · exact ⟨c, hc, rfl⟩
      · exact hchain.entries y hy
  have hsorted := hchain.sorted
  obtain ⟨rfl, hfirst⟩ | ⟨hbefore, n, b', rfl, hn⟩ := hwhere
  · -- the new page is behind a larger one
    have hlt : v < m.page := by
      have hmv := hne m List.mem_cons_self
      rcases hfirst with hle | rfl
      · omega
      · obtain rfl : rest = [] := List.head?_eq_none_iff.mp hlast
        simp only [InOrder] at hin
        omega
    apply not_map_of_none (v := v) (f := f) List.mem_cons_self
    rw [findPte_eq hpath hv hchain.at_head hlen, if_neg (Nat.ne_of_gt hlt)]
    exact congrArg some (lookup_hidden (a := []) (by simp) hlt)
  · -- the last page is behind the new one
    have hm : m ∈ a ++ [x] := by
      cases a with
      | nil => exact List.mem_singleton.mpr (List.cons.inj heq).1
      | cons y a => exact List.mem_cons.mpr (Or.inl (List.cons.inj heq).1)
    rw [hlastb (by simp)] at hlast
    obtain ⟨z, hz⟩ : ∃ z, (n :: b').getLast? = some z := ⟨_, List.getLast?_cons ..⟩
    rw [hz, Option.map_some] at hlast
    obtain ⟨rest, rfl⟩ : ∃ rest', rest = z.page :: rest' := by
      cases rest with
      | nil => cases hlast
      | cons z' rest => exact ⟨rest, by rw [Option.some.inj hlast]⟩
    have hzl : z ∈ m :: l := by
      rw [heq]
      exact List.mem_append_right a (List.mem_cons_of_mem x (List.mem_of_getLast? hz))
    have hzv : z.page < v := by
      have hzne := hne z hzl
      have hnot : ¬ v < z.page := fun hlt => hin ⟨hbefore m hm, hlt⟩
      omega
    rw [heq, show a ++ x :: n :: b' = (a ++ [x]) ++ n :: b' by simp] at hsorted
    obtain ⟨-, hsuffix, hcross⟩ := List.pairwise_append.mp hsorted
    obtain rfl : b' = [] := by
      rcases hn with hle | hnil
      · have := page_le_last hsuffix hz
        omega
      · exact hnil
    obtain rfl : n = z := by simpa using hz
    obtain ⟨hadded, hi⟩ := hchain.page_mem hzl
    apply not_map_of_none (v := n.page) (f := n.frame)
    · exact List.mem_cons_of_mem _ ((hchain.mem _ _).mp ⟨n, hzl, rfl, rfl⟩).1
    · have hmn := hcross m hm n List.mem_cons_self
      rw [findPte_eq hpath (h.small _ hadded) (by rw [hi]; exact hchain.at_head) hlen,
        if_neg (Nat.ne_of_lt hmn), ← hl',
        show a ++ x :: ⟨.entry c, v, f⟩ :: [n] = (a ++ [x]) ++ ⟨.entry c, v, f⟩ :: [n] by simp,
        lookup_hidden (fun y hy => Nat.ne_of_lt (hcross y hy n List.mem_cons_self)) hzv]

/-- An entry whose memory looks like one in use is not filled in. -/
theorem not_map_clash (h : s.Kept t) {op : AddPte} (hen : s.Enabled t op)
    (hcol : s.Collides t op.vpno) (hclash : s.Clashes t) (hv : op.vpno < 2 ^ 32)
    (hstep : pteStep t s op = some s') : ¬ s'.Map t := by
  obtain ⟨v, f, mode⟩ := op
  dsimp only at hv hcol
  have hlt : f < t.maxFtable := hen.2.1
  have hf : f < t.frames := by
    unfold VmSizes.maxFtable VmSizes.ftableSize at hlt
    omega
  obtain ⟨c, hc, bit, bit', hhead, hcell, hnext, -⟩ := nextFree_spec h (hen.2.2 hcol)
  obtain ⟨r, hr, hup⟩ := hclash
  rw [hnext, Option.mem_some_iff] at hr
  subst hr
  have hadd : s.tables.addPte t v f mode =
      some (none, s.tables.setFree t ⟨pteInvalid, bit, c⟩ (t.below c)) := by
    unfold addPte
    dsimp only
    rw [if_neg (show ¬ t.maxFtable ≤ f from Nat.not_le.mpr hlt), if_neg (fun hne => hne hcol)]
    unfold addCollision
    simp only [hhead, hcell]
    rw [if_neg (Nat.ne_of_lt hc), if_pos hup]
  rw [pteStep, if_pos hen, hadd, Option.map_some, Option.some.injEq] at hstep
  subst hstep
  apply not_map_of_none (v := v) (f := f) List.mem_cons_self
  rw [findPte_congr (read_setFree hhead _)]
  exact h.map.2 v hv hen.1

/-! ### The calls -/

theorem added_of_step {op : AddPte} (hstep : pteStep t s op = some s') :
    s'.added = (op.vpno, op.pfno) :: s.added := by
  unfold pteStep at hstep
  split at hstep
  · obtain ⟨r, -, rfl⟩ := Option.map_eq_some_iff.mp hstep
    rfl
  · cases hstep

/-- A call in an empty slot returns. -/
theorem step_head {op : AddPte} (hen : s.Enabled t op) (hno : ¬ s.Collides t op.vpno) :
    ∃ s', pteStep t s op = some s' := by
  rw [pteStep, if_pos hen, addPte, if_neg (Nat.not_le.mpr hen.2.1),
    if_pos (show (s.tables.ptable (op.vpno % t.maxPtable)).valid ≠ pteValid from hno)]
  exact ⟨_, rfl⟩

/-- A call that meets the condition keeps the invariant. -/
theorem pteKept_step (h : s.Kept t) (hsmall : t.frames < 2 ^ 17) {op : AddPte} (hfits : s.Fits t op)
    (hstep : pteStep t s op = some s') : s'.Kept t := by
  have hen : s.Enabled t op := by
    by_contra hno
    rw [pteStep, if_neg hno] at hstep
    cases hstep
  obtain ⟨hv, hin, hclash⟩ := hfits hen
  by_cases hcol : s.Collides t op.vpno
  · exact kept_collision h hen hcol (hclash hcol) hsmall hv hin hstep
  · exact kept_head h hen hcol hsmall hv hstep

/-- A call does what it is to do just when it meets the condition. -/
theorem pteSound_iff_fits (h : s.Kept t) (hsmall : t.frames < 2 ^ 17) (op : AddPte) :
    s.Sound t op ↔ s.Fits t op := by
  constructor
  · intro hsound hen
    obtain ⟨s', hstep, hmap⟩ := hsound hen
    have hmem : (op.vpno, op.pfno) ∈ s'.added := by
      rw [added_of_step hstep]
      exact List.mem_cons_self
    have hv : op.vpno < 2 ^ 32 := by
      by_contra hle
      exact not_map_of_le (by omega) hmem hmap
    by_cases hcol : s.Collides t op.vpno
    · have hclash : ¬ s.Clashes t := fun hclash => not_map_clash h hen hcol hclash hv hstep hmap
      refine ⟨hv, ?_, fun _ => hclash⟩
      by_contra hin
      exact not_map_collision h hen hcol hclash hsmall hv hin hstep hmap
    · have hempty : s.slotPages t (op.vpno % t.maxPtable) = [] := by
        simpa using fun hne => hcol ((collides_iff h).mpr hne)
      exact ⟨hv, by rw [hempty]; trivial, fun hcol' => absurd hcol' hcol⟩
  · intro hfits hen
    obtain ⟨s', hstep⟩ : ∃ s', pteStep t s op = some s' := by
      by_cases hcol : s.Collides t op.vpno
      · obtain ⟨-, -, -, -, -, -, tables, -, hstep, -⟩ :=
          collision_spec h hen hcol ((hfits hen).2.2 hcol) hsmall (hfits hen).1
        exact ⟨_, hstep⟩
      · exact step_head hen hcol
    exact ⟨s', hstep, (pteKept_step h hsmall hfits hstep).map⟩

end Calls

/-- **The page table as a map.**  With fewer than `2 ^ 15` entries in the collision table, which is
what the field `chain` can number, every call of a run leaves the map of what was added just when
every call meets the condition: of the pages of a slot the first is the smallest and the second the
largest, page numbers fit an `unsigned int`, and no free entry looks like one in use. -/
theorem pageMap_iff (t : VmSizes) (page : ℕ → UsedPage) (locked : ℕ → Bool) (dirty : ℕ → ℕ)
    (hsmall : t.frames < 2 ^ 17) (ops : List AddPte) :
    Along (pteStep t) (PteState.Sound t) (pteStart t page locked dirty) ops ↔
      Along (pteStep t) (PteState.Fits t) (pteStart t page locked dirty) ops :=
  along_congr (fun _ op h => pteSound_iff_fits h hsmall op)
    (fun _ _ _ h hfits hstep => pteKept_step h hsmall hfits hstep) ops _
    (pteKept_start t page locked dirty)

/-- Eight slots, and two entries in the collision table. -/
def smallVm : VmSizes := ⟨8, false⟩

/-- Clear tables. -/
def smallTables : PteState := pteStart smallVm (fun _ => ⟨0, 0, 0, 0⟩) (fun _ => false) fun _ => 0

/-- Three pages of one slot in the right order. -/
theorem pageMap_iff_three : Along (pteStep smallVm) (PteState.Sound smallVm) smallTables
    [⟨0, 1, 0⟩, ⟨16, 2, 1⟩, ⟨8, 3, 1⟩] :=
  (pageMap_iff smallVm _ _ _ (by decide) _).mpr (by decide +kernel)

/-- Two pages of one slot, the larger one first: the smaller one is not found. -/
theorem pageMap_not_sound : ¬ ∀ (t : VmSizes) (page : ℕ → UsedPage) (locked : ℕ → Bool)
    (dirty : ℕ → ℕ) (ops : List AddPte),
    Along (pteStep t) (PteState.Sound t) (pteStart t page locked dirty) ops := by
  intro h
  have hrun : (run (pteStep smallVm) smallTables [⟨8, 1, 0⟩]).map (fun s =>
      (decide (s.Enabled smallVm ⟨0, 2, 0⟩), (pteStep smallVm s ⟨0, 2, 0⟩).map fun s' =>
        (decide ((0, 2) ∈ s'.added), s'.tables.findPte smallVm 0))) =
      some (true, some (true, some none)) := by decide +kernel
  obtain ⟨s, hs, hfacts⟩ := Option.map_eq_some_iff.mp hrun
  obtain ⟨hen, hnext⟩ := Prod.mk.inj hfacts
  have hall : Along (pteStep smallVm) (PteState.Sound smallVm) smallTables
      ([⟨8, 1, 0⟩] ++ ⟨0, 2, 0⟩ :: []) := h ..
  obtain ⟨s', hstep, hmap⟩ := hall.at hs (of_decide_eq_true hen)
  rw [hstep, Option.map_some, Option.some.injEq, Prod.mk.injEq] at hnext
  exact not_map_of_none (of_decide_eq_true hnext.1) hnext.2 hmap

end Mungi
