import Mathlib.Algebra.Group.Int.Defs
import Mathlib.Algebra.Group.Nat.Defs
import Mungi.Lib.Runs
import Mathlib.Logic.Function.Basic
import Mathlib.Data.List.Perm.Subperm

/-!
# The page table

The RAM pager keeps the pages that are in memory in a hash table.  The first page of a
slot is in the page table proper, and further ones hang off it in a chain of entries of
the collision table, which is meant to be in the order of the page numbers: `find_pte`
stops when it has passed the place where the page should be.

An entry is a record of bit fields that no longer fits a word; a free one of the collision
table is the same memory under other names.  The fields `locked` of used entries are only
written to and are left out.

## Main definitions

* `VmSizes` — the sizes `vm_init` computes, and the order of bit fields.
* `UsedPage`, `FreeEntry`, `CtableEntry`, `PageTables` — entries and tables.
* `findPte`, `addPte` — `find_pte` and `add_pte`.
* `ptableInit` — the clearing loops of `ptable_init`.
* `Path` — the chain that starts at an entry.

## Main results

* `findFrom_eq` — `find_pte` searches the chain.
* `Path.insert` — what `add_collision` makes of a chain.
-/

namespace Mungi

/-! ### Entries and tables -/

/-- What the tables are laid out by. -/
structure VmSizes where
  /-- The frames below `mem_top`. -/
  frames : ℕ
  /-- Bit fields start at the high end of a word. -/
  bigEndian : Bool

/-- `ptable_size`, an `unsigned int`; an entry has 16 bytes. -/
def VmSizes.ptableSize (t : VmSizes) : ℕ := t.frames * 16 % 2 ^ 32

/-- `ctable_size`; `CTABLE_SHIFT` is 2. -/
def VmSizes.ctableSize (t : VmSizes) : ℕ := t.frames / 2 ^ 2 * 16 % 2 ^ 32

/-- `ftable_size`; an entry has 8 bytes. -/
def VmSizes.ftableSize (t : VmSizes) : ℕ := t.frames * 8 % 2 ^ 32

/-- `MAX_PTABLE` -/
def VmSizes.maxPtable (t : VmSizes) : ℕ := t.ptableSize / 16

/-- `MAX_CTABLE`, which is `CTABLE_LIST_END` as well. -/
def VmSizes.maxCtable (t : VmSizes) : ℕ := t.ctableSize / 16

/-- `MAX_FTABLE`, which is `FTABLE_LIST_END` as well. -/
def VmSizes.maxFtable (t : VmSizes) : ℕ := t.ftableSize / 8

/-- The values of `valid`. -/
def pteInvalid : ℕ := 0
/-- `VALID` -/
def pteValid : ℕ := 1

/-- `used_page_t` -/
structure UsedPage where
  /-- 2 bits. -/
  valid : ℕ
  /-- 36 bits. -/
  pagenum : ℕ
  /-- 20 bits. -/
  framenum : ℕ
  /-- 15 bits. -/
  chain : ℕ
  deriving DecidableEq, Repr

/-- `free_page_t` -/
structure FreeEntry where
  /-- 1 bit. -/
  valid : ℕ
  /-- 1 bit, of which only the list head's is ever set. -/
  locked : Bool
  /-- 62 bits. -/
  next : ℕ
  deriving DecidableEq, Repr

/-- `page_table_t`, by what was last stored in it. -/
inductive CtableEntry where
  | up (u : UsedPage)
  | fp (f : FreeEntry)
  deriving DecidableEq, Repr

/-- `up.valid` of a free entry: its `valid` and `locked` as one number. -/
def VmSizes.upValid (t : VmSizes) (f : FreeEntry) : ℕ :=
  if t.bigEndian then 2 * f.valid + f.locked.toNat else f.valid + 2 * f.locked.toNat

/-- The tables. -/
structure PageTables where
  ptable : ℕ → UsedPage
  /-- The entry `MAX_CTABLE` is the head of the free list. -/
  ctable : ℕ → CtableEntry
  /-- `ftable[..].dirty` -/
  dirty : ℕ → ℕ

/-- A pointer to an entry: `&ptable[i]` or `&ctable[i]`. -/
inductive Pte where
  | head (i : ℕ)
  | entry (i : ℕ)
  deriving DecidableEq, Repr

namespace PageTables

variable (t : VmSizes) (s : PageTables)

/-- A used entry, `none` for the memory of a free one. -/
def read : Pte → Option UsedPage
  | .head i => some (s.ptable i)
  | .entry i =>
    match s.ctable i with
    | .up u => some u
    | .fp _ => none

/-- `*pte = u` -/
def write (u : UsedPage) : Pte → PageTables
  | .head i => { s with ptable := Function.update s.ptable i u }
  | .entry i => { s with ctable := Function.update s.ctable i (.up u) }

/-- `ftable[pfno].dirty = mode`, of one bit. -/
def setDirty (pfno mode : ℕ) : PageTables :=
  { s with dirty := Function.update s.dirty pfno (mode % 2) }

/-! ### `find_pte` -/

/-- The loop of `find_pte` at an entry: the entry of the page or `NULL`.  None when it reads
memory that is no entry in use, or does not end. -/
def findFrom (vpno : ℕ) : ℕ → Pte → Option (Option Pte)
  | 0, _ => none
  | fuel + 1, p =>
    (s.read p).bind fun u =>
      if u.pagenum < vpno ∧ u.chain ≠ t.maxCtable then
        (s.read (.entry u.chain)).bind fun u' =>
          if u'.pagenum = vpno then some (some (.entry u.chain))
          else findFrom vpno fuel (.entry u.chain)
      else some none

/-- `find_pte`, whose parameter is an `unsigned int`. -/
def findPte (vpno : ℕ) : Option (Option Pte) :=
  let vpno := vpno % 2 ^ 32
  let pindex := vpno % t.maxPtable
  let u := s.ptable pindex
  if u.valid = pteValid ∧ u.pagenum = vpno then some (some (.head pindex))
  else if u.valid ≠ pteInvalid then findFrom t s vpno (t.maxCtable + 1) (.head pindex)
  else some none

/-! ### `add_pte` -/

/-- The loop of `add_collision`: `prev` and `page` when it ends. -/
def spotFrom (vpno : ℕ) : ℕ → Option Pte → Pte → Option (Option Pte × Pte)
  | 0, _, _ => none
  | fuel + 1, prev, p =>
    (s.read p).bind fun u =>
      if u.pagenum < vpno ∧ u.chain ≠ t.maxCtable then
        spotFrom vpno fuel (some p) (.entry u.chain)
      else some (prev, p)

/-- The assignments at the end of `add_collision`, for a new entry `cindex`: its chain goes on
where that of `p` did, and that of `p` with the new entry. -/
def linkAfter (vpno pfno cindex : ℕ) (p : Pte) : Option PageTables :=
  (s.read p).map fun u =>
    (s.write ⟨pteValid, vpno % 2 ^ 36, pfno % 2 ^ 20, u.chain⟩ (.entry cindex)).write
      { u with chain := cindex % 2 ^ 15 } p

/-- `ctable[MAX_CTABLE].fp.next = next`, the head of the free list. -/
def setFree (freeHead : FreeEntry) (next : ℕ) : PageTables :=
  { s with
    ctable := Function.update s.ctable t.maxCtable (.fp ⟨freeHead.valid, false, next⟩) }

/-- `add_collision`: the entry and the tables. -/
def addCollision (vpno pfno mode : ℕ) (pte : Pte) : Option (Option Pte × PageTables) :=
  match s.ctable t.maxCtable with
  | .up _ => none
  | .fp freeHead =>
    let cindex := freeHead.next
    if cindex = t.maxCtable then some (none, s)
    else
      match s.ctable cindex with
      | .up _ => none
      | .fp new =>
        let s := s.setFree t freeHead new.next
        if t.upValid new = pteValid then some (none, s)
        else
          let s := s.setDirty pfno mode
          (spotFrom t s vpno (t.maxCtable + 1) none pte).bind fun r =>
            (s.linkAfter vpno pfno cindex (r.1.getD r.2)).map fun s => (some (.entry cindex), s)

/-- `add_pte`: the entry and the tables.  None also for a frame number outside the frame table,
where `ftable[pfno].dirty` is some other memory. -/
def addPte (vpno pfno mode : ℕ) : Option (Option Pte × PageTables) :=
  let pindex := vpno % t.maxPtable
  if t.maxFtable ≤ pfno then none
  else if (s.ptable pindex).valid ≠ pteValid then
    let u := ⟨pteValid, vpno % 2 ^ 36, pfno % 2 ^ 20, t.maxCtable % 2 ^ 15⟩
    some (some (.head pindex), (s.setDirty pfno mode).write u (.head pindex))
  else addCollision t s vpno pfno mode (.head pindex)

end PageTables

/-- The free entry below `i`. -/
def VmSizes.below (t : VmSizes) (i : ℕ) : ℕ := if i = 0 then t.maxCtable else i - 1

/-- The clearing loops of `ptable_init`, over memory with anything in it. -/
def ptableInit (t : VmSizes) (page : ℕ → UsedPage) (locked : ℕ → Bool) (dirty : ℕ → ℕ) :
    PageTables where
  ptable i := { page i with valid := pteInvalid, chain := t.maxCtable % 2 ^ 15 }
  ctable i := .fp ⟨pteInvalid, locked i, t.below i⟩
  dirty := dirty

/-! ### Chains -/

/-- An entry of a chain: where it is, the page and its frame. -/
structure Mapped where
  pte : Pte
  page : ℕ
  frame : ℕ

namespace PageTables

/-- An entry leads to the first of the entries, or is the last one. -/
def Leads (t : VmSizes) (u : UsedPage) : List Mapped → Prop
  | [] => u.chain = t.maxCtable
  | m :: _ => u.chain ≠ t.maxCtable ∧ m.pte = .entry u.chain

/-- The chain that starts at the first of the entries goes through all of them and ends. -/
def Path (t : VmSizes) (s : PageTables) : List Mapped → Prop
  | [] => True
  | m :: l =>
    (∃ u, s.read m.pte = some u ∧ u.valid = pteValid ∧ u.pagenum = m.page ∧
      u.framenum = m.frame ∧ Leads t u l) ∧ Path t s l

section Chains
variable {t : VmSizes} {s s' : PageTables} {v : ℕ}

/-- The entry with page number `v` behind the first of a chain, as long as the page numbers
before it are smaller. -/
def lookup (v : ℕ) : List Mapped → Option Pte
  | m :: m' :: l => if m.page < v then if m'.page = v then some m'.pte else lookup v (m' :: l)
      else none
  | _ => none

/-- `find_pte` searches the chain. -/
theorem findFrom_eq (l : List Mapped) : ∀ (m : Mapped) (fuel : ℕ), Path t s (m :: l) →
    l.length < fuel → findFrom t s v fuel m.pte = some (lookup v (m :: l)) := by
  induction l with
  | nil =>
    rintro m (_ | fuel) ⟨⟨u, hu, -, hpage, -, hchain⟩, -⟩ hfuel
    · cases hfuel
    · simp only [findFrom, hu, Option.bind_some, lookup]
      exact if_neg fun h => h.2 hchain
  | cons m' l ih =>
    rintro m (_ | fuel) ⟨⟨u, hu, -, hpage, -, hchain, hm'⟩, hpath⟩ hfuel
    · cases hfuel
    · simp only [findFrom, hu, Option.bind_some, lookup]
      by_cases hlt : m.page < v
      · rw [if_pos ⟨by rwa [hpage], hchain⟩, if_pos hlt, ← hm']
        obtain ⟨u', hu', -, hpage', -⟩ := hpath.1
        rw [hu', Option.bind_some, hpage']
        by_cases heq : m'.page = v
        · rw [if_pos heq, if_pos heq]
        · rw [if_neg heq, if_neg heq]
          exact ih m' fuel hpath (Nat.lt_of_succ_lt_succ hfuel)
      · rw [if_neg (fun h => hlt (by rw [← hpage]; exact h.1)), if_neg hlt]

/-- An entry that the search meets before one with page number `v`, and that is not smaller,
hides it. -/
theorem lookup_hidden {a : List Mapped} {m : Mapped} {b : List Mapped}
    (ha : ∀ x ∈ a, x.page ≠ v) (hm : v < m.page) : lookup v (a ++ m :: b) = none := by
  induction a with
  | nil =>
    cases b with
    | nil => rfl
    | cons m' b => exact if_neg (by omega)
  | cons x a ih =>
    have ih := ih fun y hy => ha y (List.mem_cons_of_mem x hy)
    cases a with
    | nil =>
      simp only [List.nil_append, List.cons_append, lookup] at ih ⊢
      by_cases hx : x.page < v
      · rw [if_pos hx, if_neg (by omega)]
        exact ih
      · rw [if_neg hx]
    | cons y a =>
      simp only [List.cons_append, lookup] at ih ⊢
      rw [if_neg (ha y (List.mem_cons_of_mem x List.mem_cons_self))]
      split
      · exact ih
      · rfl

/-- A page that is not behind the first entry is not found. -/
theorem lookup_none {m : Mapped} {l : List Mapped} (hl : ∀ x ∈ l, x.page ≠ v) :
    lookup v (m :: l) = none := by
  induction l generalizing m with
  | nil => rfl
  | cons m' l ih =>
    simp only [lookup]
    rw [if_neg (hl m' List.mem_cons_self), ih fun x hx => hl x (List.mem_cons_of_mem m' hx)]
    split <;> rfl

/-- In the order of the page numbers every page is found. -/
theorem lookup_sorted {m : Mapped} {l : List Mapped}
    (hl : (m :: l).Pairwise fun x y => x.page < y.page) {n : Mapped} (hn : n ∈ l) :
    lookup n.page (m :: l) = some n.pte := by
  induction l generalizing m with
  | nil => cases hn
  | cons m' l ih =>
    obtain ⟨hm, hl⟩ := List.pairwise_cons.mp hl
    simp only [lookup]
    rw [if_pos (hm n hn)]
    rcases List.mem_cons.mp hn with rfl | hn
    · rw [if_pos rfl]
    · rw [if_neg (Nat.ne_of_lt ((List.pairwise_cons.mp hl).1 n hn))]
      exact ih hl hn

/-- The loop of `add_collision` stops at the first entry whose page number is not smaller, or at
the last one; the new entry goes after the one before, or after the first. -/
theorem spotFrom_spec (l : List Mapped) : ∀ (m : Mapped) (prev : Option Pte) (fuel : ℕ),
    Path t s (m :: l) → l.length < fuel →
    ∃ a n b, m :: l = a ++ n :: b ∧ (∀ x ∈ a, x.page < v) ∧ (v ≤ n.page ∨ b = []) ∧
      spotFrom t s v fuel prev m.pte =
        some ((a.getLast?.map Mapped.pte).or prev, n.pte) := by
  induction l with
  | nil =>
    rintro m prev (_ | fuel) ⟨⟨u, hu, -, hpage, -, hchain⟩, -⟩ hfuel
    · cases hfuel
    · refine ⟨[], m, [], rfl, by simp, Or.inr rfl, ?_⟩
      simp only [spotFrom, hu, Option.bind_some]
      exact if_neg fun h => h.2 hchain
  | cons m' l ih =>
    rintro m prev (_ | fuel) ⟨⟨u, hu, -, hpage, -, hchain, hm'⟩, hpath⟩ hfuel
    · cases hfuel
    · simp only [spotFrom, hu, Option.bind_some]
      by_cases hlt : m.page < v
      · obtain ⟨a, n, b, heq, ha, hn, hspot⟩ :=
          ih m' (some m.pte) fuel hpath (Nat.lt_of_succ_lt_succ hfuel)
        rw [if_pos ⟨by rwa [hpage], hchain⟩, ← hm', hspot]
        refine ⟨m :: a, n, b, by rw [heq]; rfl, ?_, hn, ?_⟩
        · intro x hx
          rcases List.mem_cons.mp hx with rfl | hx
          · exact hlt
          · exact ha x hx
        · cases a with
          | nil => rfl
          | cons x a => simp [List.getLast?_cons]
      · rw [if_neg (fun h => hlt (by rw [← hpage]; exact h.1))]
        exact ⟨[], m, m' :: l, rfl, by simp, Or.inl (by omega), rfl⟩

/-- A chain stays as it is when none of its entries is written to. -/
theorem Path.frame {l : List Mapped} (h : Path t s l)
    (hread : ∀ m ∈ l, s'.read m.pte = s.read m.pte) : Path t s' l := by
  induction l with
  | nil => trivial
  | cons m l ih =>
    refine ⟨?_, ih h.2 fun x hx => hread x (List.mem_cons_of_mem m hx)⟩
    rw [hread m List.mem_cons_self]
    exact h.1

theorem read_write (u : UsedPage) (p q : Pte) :
    (s.write u p).read q = if q = p then some u else s.read q := by
  cases p with
  | head i =>
    cases q with
    | head j =>
      simp only [write, read, Function.update_apply, Pte.head.injEq]
      split <;> rfl
    | entry j => rfl
  | entry i =>
    cases q with
    | head j => rfl
    | entry j =>
      simp only [write, read, Function.update_apply, Pte.entry.injEq]
      by_cases hj : j = i <;> simp [hj]

theorem write_ctable (u : UsedPage) {p : Pte} {j : ℕ} (h : p ≠ .entry j) :
    (s.write u p).ctable j = s.ctable j := by
  cases p with
  | head i => rfl
  | entry i => exact Function.update_of_ne (fun heq => h (by rw [heq])) _ _

/-- What `add_collision` makes of a chain: the new entry comes after `x`. -/
theorem Path.insert {a b : List Mapped} {x n : Mapped} {cindex : ℕ}
    (h : Path t s (a ++ x :: b)) (hnodup : ((a ++ x :: b).map Mapped.pte).Nodup)
    (hnew : n.pte = .entry cindex) (hfresh : n.pte ∉ (a ++ x :: b).map Mapped.pte)
    (hend : cindex ≠ t.maxCtable) (hchain : cindex < 2 ^ 15) (hpage : n.page < 2 ^ 36)
    (hframe : n.frame < 2 ^ 20) :
    ∃ s', s.linkAfter n.page n.frame cindex x.pte = some s' ∧ Path t s' (a ++ x :: n :: b) ∧
      (∀ q, q ≠ n.pte → q ≠ x.pte → s'.read q = s.read q) ∧
      ∀ j, n.pte ≠ .entry j → x.pte ≠ .entry j → s'.ctable j = s.ctable j := by
  obtain ⟨u, hu, huvalid, hupage, huframe, hnext⟩ : ∃ u, s.read x.pte = some u ∧
      u.valid = pteValid ∧ u.pagenum = x.page ∧ u.framenum = x.frame ∧ Leads t u b := by
    clear hnodup hfresh
    induction a with
    | nil => exact h.1
    | cons y a ih => exact ih h.2
  refine ⟨_, by rw [linkAfter, hu, Option.map_some], ?_, ?_, ?_⟩
  · rw [Nat.mod_eq_of_lt hchain, Nat.mod_eq_of_lt hpage, Nat.mod_eq_of_lt hframe, ← hnew]
    induction a with
    | nil =>
      simp only [List.nil_append, List.map_cons, List.nodup_cons, List.mem_cons, not_or]
        at hnodup hfresh h ⊢
      refine ⟨⟨{ u with chain := cindex }, by rw [read_write, if_pos rfl], huvalid, hupage,
        huframe, hend, hnew⟩,
        ⟨_, by rw [read_write, if_neg hfresh.1, read_write, if_pos rfl], rfl, rfl, rfl, ?_⟩, ?_⟩
      · exact hnext
      · apply h.2.frame
        intro m hm
        have hmem : m.pte ∈ b.map Mapped.pte := List.mem_map.mpr ⟨m, hm, rfl⟩
        have hx : m.pte ≠ x.pte := fun heq => hnodup.1 (heq ▸ hmem)
        have hn : m.pte ≠ n.pte := fun heq => hfresh.2 (heq ▸ hmem)
        rw [read_write, if_neg hx, read_write, if_neg hn]
    | cons y a ih =>
      simp only [List.cons_append, List.map_cons, List.nodup_cons, List.mem_cons, not_or]
        at hnodup hfresh h ⊢
      refine ⟨?_, ih h.2 hnodup.2 hfresh.2⟩
      have hyx : y.pte ≠ x.pte := fun heq => hnodup.1 (by rw [heq]; simp)
      obtain ⟨w, hw, hwvalid, hwpage, hwframe, hwnext⟩ := h.1
      refine ⟨w, ?_, hwvalid, hwpage, hwframe, ?_⟩
      · rw [read_write, if_neg hyx, read_write, if_neg (Ne.symm hfresh.1), hw]
      · cases a with
        | nil => exact hwnext
        | cons z a => exact hwnext
  · intro q hq hqx
    rw [hnew] at hq
    rw [read_write, if_neg hqx, read_write, if_neg hq]
  · intro j hj hjx
    rw [hnew] at hj
    rw [write_ctable _ hjx, write_ctable _ hj]

/-- Every entry of a chain is in use. -/
theorem Path.read_of_mem {l : List Mapped} (h : Path t s l) {m : Mapped} (hm : m ∈ l) :
    ∃ u, s.read m.pte = some u ∧ u.pagenum = m.page ∧ u.framenum = m.frame := by
  induction l with
  | nil => cases hm
  | cons x l ih =>
    rcases List.mem_cons.mp hm with rfl | hm
    · obtain ⟨u, hu, -, hpage, hframe, -⟩ := h.1
      exact ⟨u, hu, hpage, hframe⟩
    · exact ih h.2 hm

/-- Entries of chains in one place have one page. -/
theorem Path.page_eq {l l' : List Mapped} (h : Path t s l) (h' : Path t s l') {m m' : Mapped}
    (hm : m ∈ l) (hm' : m' ∈ l') (heq : m.pte = m'.pte) : m.page = m'.page := by
  obtain ⟨u, hu, hpage, -⟩ := h.read_of_mem hm
  obtain ⟨u', hu', hpage', -⟩ := h'.read_of_mem hm'
  rw [heq, hu', Option.some.injEq] at hu
  rw [← hpage, ← hpage', hu]

/-- A chain in the order of the page numbers does not come back to an entry. -/
theorem Path.nodup {l : List Mapped} (h : Path t s l)
    (hl : l.Pairwise fun x y => x.page < y.page) : (l.map Mapped.pte).Nodup := by
  induction l with
  | nil => exact List.nodup_nil
  | cons m l ih =>
    obtain ⟨hm, hl⟩ := List.pairwise_cons.mp hl
    refine List.nodup_cons.mpr ⟨fun hmem => ?_, ih h.2 hl⟩
    obtain ⟨m', hm', heq⟩ := List.mem_map.mp hmem
    have hpage := Path.page_eq h h List.mem_cons_self (List.mem_cons_of_mem m hm') heq.symm
    exact Nat.ne_of_lt (hm m' hm') hpage

/-- The entries of the collision table bound the length of a chain. -/
theorem length_le {l : List Mapped} (hnodup : (l.map Mapped.pte).Nodup)
    (hl : ∀ m ∈ l, ∃ c < t.maxCtable, m.pte = .entry c) : l.length ≤ t.maxCtable := by
  have hsub : l.map Mapped.pte ⊆ (List.range t.maxCtable).map Pte.entry := by
    intro p hp
    obtain ⟨m, hm, rfl⟩ := List.mem_map.mp hp
    obtain ⟨c, hc, hpte⟩ := hl m hm
    exact List.mem_map.mpr ⟨c, List.mem_range.mpr hc, hpte.symm⟩
  simpa using (hnodup.subperm hsub).length_le

/-- What `find_pte` finds in a slot with a chain. -/
theorem findPte_eq {m : Mapped} {l : List Mapped} (hpath : Path t s (m :: l)) (hv : v < 2 ^ 32)
    (hm : m.pte = .head (v % t.maxPtable)) (hlen : l.length ≤ t.maxCtable) :
    s.findPte t v = some (if m.page = v then some m.pte else lookup v (m :: l)) := by
  obtain ⟨u, hu, hvalid, hpage, -⟩ := hpath.1
  rw [hm, read, Option.some.injEq] at hu
  unfold findPte
  rw [Nat.mod_eq_of_lt hv]
  dsimp only
  rw [hu, hpage, hvalid, ← hm, findFrom_eq l m _ hpath (Nat.lt_succ_of_le hlen)]
  by_cases heq : m.page = v
  · rw [if_pos ⟨rfl, heq⟩, if_pos heq]
  · rw [if_neg (fun h => heq h.2), if_neg heq]
    exact if_pos (by decide)

/-- `find_pte` only returns entries with the page number it was given. -/
theorem pagenum_of_findFrom {fuel : ℕ} {p r : Pte}
    (h : findFrom t s v fuel p = some (some r)) : ∃ u, s.read r = some u ∧ u.pagenum = v := by
  induction fuel generalizing p with
  | zero => cases h
  | succ fuel ih =>
    rw [findFrom, Option.bind_eq_some_iff] at h
    obtain ⟨u, -, h⟩ := h
    split at h
    · obtain ⟨u', hu', h⟩ := Option.bind_eq_some_iff.mp h
      by_cases heq : u'.pagenum = v
      · rw [if_pos heq] at h
        cases h
        exact ⟨u', hu', heq⟩
      · rw [if_neg heq] at h
        exact ih h
    · cases h

theorem pagenum_of_findPte {r : Pte} (h : s.findPte t v = some (some r)) :
    ∃ u, s.read r = some u ∧ u.pagenum = v % 2 ^ 32 := by
  dsimp only [findPte] at h
  split at h
  · rename_i hhead
    cases h
    exact ⟨_, rfl, hhead.2⟩
  · split at h
    · exact pagenum_of_findFrom h
    · cases h

theorem read_setFree {head : FreeEntry} (h : s.ctable t.maxCtable = .fp head) (next : ℕ) (p : Pte) :
    (s.setFree t head next).read p = s.read p := by
  cases p with
  | head i => rfl
  | entry i =>
    simp only [read, setFree, Function.update_apply]
    by_cases hi : i = t.maxCtable
    · rw [if_pos hi, hi, h]
    · rw [if_neg hi]

/-- `find_pte` looks at the entries in use only. -/
theorem findPte_congr (hread : ∀ p, s'.read p = s.read p) : s'.findPte t v = s.findPte t v := by
  have hfrom : ∀ v fuel p, findFrom t s' v fuel p = findFrom t s v fuel p := by
    intro v fuel
    induction fuel with
    | zero => exact fun _ => rfl
    | succ fuel ih =>
      intro p
      simp only [findFrom, hread, ih]
  have hhead : ∀ i, s'.ptable i = s.ptable i := fun i => Option.some.inj (hread (.head i))
  simp only [findPte, hfrom, hhead]

/-- Where `add_collision` puts a page in a chain: after `x`. -/
theorem spot_spec {m : Mapped} {l : List Mapped} (hpath : Path t s (m :: l))
    (hlen : l.length ≤ t.maxCtable) :
    ∃ r a x b, spotFrom t s v (t.maxCtable + 1) none m.pte = some r ∧ r.1.getD r.2 = x.pte ∧
      m :: l = a ++ x :: b ∧
      ((a = [] ∧ (v ≤ m.page ∨ l = [])) ∨
        ((∀ y ∈ a ++ [x], y.page < v) ∧ ∃ n b', b = n :: b' ∧ (v ≤ n.page ∨ b' = []))) := by
  obtain ⟨a, n, b, heq, ha, hn, hspot⟩ :=
    spotFrom_spec (v := v) l m none _ hpath (Nat.lt_succ_of_le hlen)
  rcases List.eq_nil_or_concat a with rfl | ⟨a, x, rfl⟩
  · obtain ⟨rfl, rfl⟩ := List.cons.inj heq
    exact ⟨_, [], m, l, hspot, rfl, rfl, Or.inl ⟨rfl, hn⟩⟩
  · refine ⟨_, a, x, n :: b, hspot, by simp, by simpa using heq, Or.inr ⟨?_, n, b, rfl, hn⟩⟩
    simpa using ha

end Chains

end PageTables

end Mungi
