import Mungi.BTree.Del
import Mungi.BTree.Lookup

/-!
# Insertion without memory

`BTInsert` splits pages from the leaf upwards, and asks for a new page at every
split.  When the first request fails nothing has been written yet.  When a later
one does, the pages below have already been cut in half, and the half that was to
be promoted is lost: `BTIns` gives up with objects missing from the tree.

## Main definitions

* `allocCalls` — how often `BTIns` calls `alloc_page`.
* `AllocOutcome` — what becomes of these calls and of the page.
* `TableCall`, `answers` — lookups and deletions, and what they return.
* `FailsAtomically` — what a failed insertion is to do.

## Main results

* `btInsert_alloc`, `btIns_alloc` — one call of `BTInsert`, and of `BTIns`.
* `btIns_atomic_iff` — **a failed insertion does what it is to do just when the first
  `alloc_page` fails.**
-/

namespace Mungi

open Cat ForLoop

variable {α : Type} {c : BTConf α}

/-! ### The calls of `alloc_page` -/

/-- `alloc_page`, so many times; `none` when one of the calls fails. -/
def allocPages : ℕ → PagePool → Option PagePool
  | 0, pool => some pool
  | n + 1, pool => (allocPage pool).bind fun r => allocPages n r.2

/-- How often `BTInsert` calls `alloc_page` for an object at base `k`, unless one of the
calls fails: once for every page it splits. -/
def splitCalls (c : BTConf α) (k : ℕ) : BTPtr α → ℕ
  | .null => 0
  | .obj _ => 0
  | .page ⟨idx, count, isleaf, key, child⟩ =>
      (if isleaf then 0
        else splitCalls c k (child (PageOf.search ⟨idx, count, isleaf, key, child⟩ k).1)) +
      if splits c k (.page ⟨idx, count, isleaf, key, child⟩) then 1 else 0

/-- How often `BTIns` does: once more for a new root. -/
def allocCalls (c : BTConf α) (t : BTree α) (k : ℕ) : ℕ :=
  match t.root with
  | .null => 1
  | root => splitCalls c k root + if splits c k root then 1 else 0

theorem splitCalls_page (p : BTPage α) (k : ℕ) : splitCalls c k (.page p) =
    (if p.isleaf then 0 else splitCalls c k (p.child (p.search k).1)) +
      if splits c k (.page p) then 1 else 0 := rfl

@[simp] theorem allocPages_zero (pool : PagePool) : allocPages 0 pool = some pool := rfl

theorem allocPages_succ (n : ℕ) (pool : PagePool) :
    allocPages (n + 1) pool = (allocPage pool).bind fun r => allocPages n r.2 := rfl

@[simp] theorem allocPages_one (pool : PagePool) :
    allocPages 1 pool = (allocPage pool).map Prod.snd := by
  rw [allocPages_succ]
  cases allocPage pool with
  | none => rfl
  | some r => rfl

theorem allocPages_add (m n : ℕ) : ∀ pool : PagePool,
    allocPages (m + n) pool = (allocPages m pool).bind fun pool' => allocPages n pool' := by
  induction m with
  | zero =>
    intro pool
    rw [Nat.zero_add]
    rfl
  | succ m ih =>
    intro pool
    rw [Nat.add_right_comm, allocPages_succ, allocPages_succ]
    cases allocPage pool with
    | none => rfl
    | some r => exact ih r.2

/-- No call succeeds after the first one has failed. -/
theorem allocPages_of_first {n : ℕ} (hn : n ≠ 0) {pool : PagePool} (h : allocPage pool = none) :
    allocPages n pool = none := by
  obtain ⟨m, rfl⟩ := Nat.exists_eq_succ_of_ne_zero hn
  rw [allocPages_succ, h]
  rfl

theorem allocPage_ne_none {n : ℕ} (hn : n ≠ 0) {pool pool' : PagePool}
    (h : allocPages n pool = some pool') : allocPage pool ≠ none := by
  intro hnone
  rw [allocPages_of_first hn hnone] at h
  cases h

theorem splitCalls_ne_zero {k : ℕ} {p : BTPage α} (h : splits c k (.page p) = true) :
    splitCalls c k (.page p) ≠ 0 := by
  rw [splitCalls_page, if_pos h]
  omega

/-! ### One call of `BTInsert` -/

/-- What becomes of the calls of `alloc_page`, and of the page `p`. -/
inductive AllocOutcome (c : BTConf α) (k : ℕ) (pool : PagePool) (p : BTPage α)
    (r : BTInsRes α) : Prop
  /-- All of them succeed. -/
  | made (ret : r.ret ≠ .allocFail)
      (all : allocPages (splitCalls c k (.page p)) pool = some r.pool)
  /-- The first one fails, and nothing has changed. -/
  | first (ret : r.ret = .allocFail) (none : allocPage pool = none)
      (calls : splitCalls c k (.page p) ≠ 0) (current : r.current = .page p)
      (pool_eq : r.pool = pool)
  /-- A later one fails, and an object is lost. -/
  | later (q : BTPage α) (o : α) (ret : r.ret = .allocFail) (some : allocPage pool ≠ none)
      (all : allocPages (splitCalls c k (.page p)) pool = none) (current : r.current = .page q)
      (mem : o ∈ (BTPtr.page p).toList) (lost : o ∉ (BTPtr.page q).toList)

/-- The end of `BTInsert`, as far as the pool is concerned. -/
theorem btPlace_alloc (pool : PagePool) (p : BTPage α) (hi : ℤ) (k : ℕ) (q : BTPtr α)
    (ngb : Option α) :
    (p.count < c.btMaxkey ∧ (btPlace c pool p hi k q ngb).ret = .ok ∧
        (btPlace c pool p hi k q ngb).pool = pool) ∨
      (c.btMaxkey ≤ p.count ∧ allocPage pool = none ∧
        (btPlace c pool p hi k q ngb).ret = .allocFail ∧
        (btPlace c pool p hi k q ngb).pool = pool ∧
        (btPlace c pool p hi k q ngb).current = .page p) ∨
      (c.btMaxkey ≤ p.count ∧ (btPlace c pool p hi k q ngb).ret = .promotion ∧
        allocPages 1 pool = some (btPlace c pool p hi k q ngb).pool) := by
  unfold btPlace
  by_cases hlt : p.count < c.btMaxkey
  · rw [if_pos hlt]
    exact .inl ⟨hlt, rfl, rfl⟩
  · rw [if_neg hlt]
    cases hal : allocPage pool with
    | none => exact .inr (.inl ⟨not_lt.mp hlt, rfl, rfl, rfl, rfl⟩)
    | some ip => exact .inr (.inr ⟨not_lt.mp hlt, rfl, by rw [allocPages_one, hal]; rfl⟩)

/-- A page with two children has an object other than a given one. -/
theorem exists_ne_of_two {n : ℕ} {q : BTPage α} (hu : Uniform n q) (h1 : 1 ≤ q.count)
    (hs : (BTPtr.page q).toList.Pairwise c.Before) (obj : α) :
    ∃ o ∈ (BTPtr.page q).toList, o ≠ obj := by
  obtain ⟨x, hx⟩ := List.exists_mem_of_ne_nil _ (hu.child_ne_nil 0 le_rfl (by omega))
  obtain ⟨y, hy⟩ := List.exists_mem_of_ne_nil _ (hu.child_ne_nil 1 (by omega) h1)
  have hxy : c.Before x y := lt_of_mem_child hs le_rfl (by omega) h1 hx hy
  by_cases hxo : x = obj
  · refine ⟨y, mem_toList_page.mpr ⟨1, by omega, h1, hy⟩, ?_⟩
    rintro rfl
    rw [hxo] at hxy
    exact lt_irrefl _ hxy.1
  · exact ⟨x, mem_toList_page.mpr ⟨0, le_rfl, by omega, hx⟩, hxo⟩

theorem BTConf.not_before_self (a : α) : ¬ c.Before a a := fun h => lt_irrefl _ h.1

section Node
variable {n : ℕ} {p : BTPage α} {obj : α} {hi : ℤ}

/-- An object of a child that is not in the page put in its place is lost. -/
theorem not_mem_setChild (h₁ : 0 ≤ hi) (h₂ : hi ≤ p.count)
    (hs : (BTPtr.page p).toList.Pairwise c.Before) {o : α} (ho : o ∈ (p.child hi).toList)
    {q : BTPtr α} (hq : o ∉ q.toList) : o ∉ (BTPtr.page (p.setChild hi q)).toList := by
  rw [toList_eq_lower_upper p h₁ h₂, List.append_assoc, List.pairwise_append] at hs
  obtain ⟨-, hs, hlow⟩ := hs
  rw [List.pairwise_append] at hs
  intro hmem
  rw [toList_setChild p h₁ h₂ q, List.mem_append, List.mem_append] at hmem
  rcases hmem with (hmem | hmem) | hmem
  · exact BTConf.not_before_self o (hlow o hmem o (List.mem_append_left _ ho))
  · exact hq hmem
  · exact BTConf.not_before_self o (hs.2.2 o ho o hmem)

/-- When a page is split and its right half lost, an object is. -/
theorem exists_lost (hc : c.Odd) {q q₁ q₂ : BTPage α} {l₁ l₂ : List α}
    (hr : Ready c obj (.page q)) (hs₂ : Shape c n q₂) (hc₂ : q₂.count = c.btMinkey)
    (old : (BTPtr.page q).toList = l₁ ++ l₂)
    (new : (BTPtr.page q₁).toList ++ (BTPtr.page q₂).toList = l₁ ++ obj :: l₂)
    (hb : Between c l₁ obj l₂) :
    ∃ o ∈ (BTPtr.page q).toList, o ∉ (BTPtr.page q₁).toList := by
  have hmM := hc.bounds
  have hs : ((BTPtr.page q₁).toList ++ (BTPtr.page q₂).toList).Pairwise c.Before := by
    rw [new]
    exact hb.pairwise (old ▸ hr.sorted)
  rw [List.pairwise_append] at hs
  obtain ⟨o, ho, hne⟩ := exists_ne_of_two (hs₂.uniform (by omega) (by omega)) (by omega) hs.2.1 obj
  refine ⟨o, ?_, fun h₁ => BTConf.not_before_self o (hs.2.2 o h₁ o ho)⟩
  have hmem : o ∈ l₁ ++ obj :: l₂ := new ▸ List.mem_append_right _ ho
  rw [old]
  simp only [List.mem_append, List.mem_cons] at hmem ⊢
  rcases hmem with h | h | h
  · exact .inl h
  · exact absurd h hne
  · exact .inr h

/-- An object to insert that meets no object of a page meets none below a child. -/
theorem not_meet_child (hno : ∀ o ∈ (BTPtr.page p).toList, ¬ c.Meet obj o) (h₁ : 0 ≤ hi)
    (h₂ : hi ≤ p.count) : ∀ o ∈ (p.child hi).toList, ¬ c.Meet obj o :=
  fun o ho => hno o (mem_toList_page.mpr ⟨hi, h₁, h₂, ho⟩)

/-- `BTInsert` in a leaf. -/
theorem btInsert_leaf_alloc (pool : PagePool) (hc : c.Odd) (hsh : Shape c 0 p) (h0 : 0 ≤ p.count)
    (hmax : p.count ≤ c.btMaxkey) (hr : Ready c obj (.page p))
    (hno : ∀ o ∈ (BTPtr.page p).toList, ¬ c.Meet obj o) :
    AllocOutcome c (c.btGetObjKey obj) pool p (btInsert c obj pool (.page p)) := by
  obtain ⟨hb₁, hb₂⟩ := PageOf.search_bounds p (c.btGetObjKey obj) h0
  obtain ⟨o, ho⟩ := hsh.2 _ hb₁ hb₂
  have hmem : o ∈ (BTPtr.page p).toList :=
    mem_toList_page.mpr ⟨_, hb₁, hb₂, by rw [ho]; exact List.mem_singleton_self o⟩
  have hcalls := splitCalls_page (c := c) p (c.btGetObjKey obj)
  have hsplits := splits_page (c := c) p (c.btGetObjKey obj)
  rw [if_pos hsh.isleaf_zero, Nat.zero_add] at hcalls
  simp only [hsh.isleaf_zero, true_or, and_true] at hsplits
  have hfound : ¬ (p.search (c.btGetObjKey obj)).2 = true := fun hf =>
    let ⟨x, hx, hm⟩ := hr.meet_of_duplicate hc hsh h0 hf
    hno x hx hm
  have hov : ¬ ((p.search (c.btGetObjKey obj)).1 < p.count ∧
      c.btObjMatch obj (p.key (p.search (c.btGetObjKey obj)).1) = true) := fun h =>
    let ⟨x, hx, hm⟩ := hr.meet_of_match hc hsh h0 h.1 h.2
    hno x hx hm
  rw [btInsert_page]
  dsimp only
  rw [ho, if_neg hfound, if_neg hov, if_pos hsh.isleaf_zero]
  cases hl : btInsertLeaf c obj (p.search (c.btGetObjKey obj)).1 (.obj o) with
  | none => exact absurd (meet_of_btInsertLeaf hr.obj_proper (hr.proper o hmem) hl) (hno o hmem)
  | some r =>
    dsimp only
    rcases btPlace_alloc (c := c) pool p r.1 (c.btGetObjKey obj) (.obj obj) (some r.2) with
      ⟨hlt, hret, hpool⟩ | ⟨hge, hal, hret, hpool, hcur⟩ | ⟨hge, hret, hal⟩
    · rw [if_neg (by rw [hsplits]; omega)] at hcalls
      exact .made (by rw [hret]; decide) (by rw [hcalls, hpool]; rfl)
    · rw [if_pos (hsplits.mpr (by omega))] at hcalls
      exact .first hret hal (by omega) hcur hpool
    · rw [if_pos (hsplits.mpr (by omega))] at hcalls
      exact .made (by rw [hret]; decide) (by rw [hcalls, hal])

/-- `BTInsert` in an index page. -/
theorem btInsert_node_alloc (pool : PagePool) (hc : c.Odd) (hsh : Shape c (n + 1) p)
    (h0 : 0 ≤ p.count) (hmax : p.count ≤ c.btMaxkey) (hr : Ready c obj (.page p))
    (hno : ∀ o ∈ (BTPtr.page p).toList, ¬ c.Meet obj o)
    (ih : ∀ q : BTPage α, Shape c n q → 0 ≤ q.count → q.count ≤ c.btMaxkey →
      Ready c obj (.page q) → (∀ o ∈ (BTPtr.page q).toList, ¬ c.Meet obj o) →
        AllocOutcome c (c.btGetObjKey obj) pool q (btInsert c obj pool (.page q))) :
    AllocOutcome c (c.btGetObjKey obj) pool p (btInsert c obj pool (.page p)) := by
  have hmM := hc.bounds
  obtain ⟨hb₁, hb₂⟩ := PageOf.search_bounds p (c.btGetObjKey obj) h0
  obtain ⟨q, hq, hqsh, hqmin, hqmax⟩ := hsh.2 _ hb₁ hb₂
  have hrq : Ready c obj (.page q) := hq ▸ hr.child hb₁ hb₂
  have hnoq : ∀ o ∈ (BTPtr.page q).toList, ¬ c.Meet obj o := hq ▸ not_meet_child hno hb₁ hb₂
  have hleaf : ¬ p.isleaf = true := by simp [hsh.isleaf_succ]
  have hcalls := splitCalls_page (c := c) p (c.btGetObjKey obj)
  have hsplits := splits_page (c := c) p (c.btGetObjKey obj)
  rw [if_neg hleaf, hq] at hcalls
  rw [hq] at hsplits
  simp only [hsh.isleaf_succ, Bool.false_eq_true, false_or] at hsplits
  have hfound : ¬ (p.search (c.btGetObjKey obj)).2 = true := fun hf =>
    let ⟨x, hx, hm⟩ := hr.meet_of_duplicate hc hsh h0 hf
    hno x hx hm
  have hov : ¬ ((p.search (c.btGetObjKey obj)).1 < p.count ∧
      c.btObjMatch obj (p.key (p.search (c.btGetObjKey obj)).1) = true) := fun h =>
    let ⟨x, hx, hm⟩ := hr.meet_of_match hc hsh h0 h.1 h.2
    hno x hx hm
  have hmemq : ∀ o ∈ (BTPtr.page q).toList, o ∈ (BTPtr.page p).toList := fun o ho =>
    mem_toList_page.mpr ⟨_, hb₁, hb₂, by rw [hq]; exact ho⟩
  have hout := btInsert_outcome hc obj pool q hqsh (by omega) hqmax
  rw [btInsert_page]
  dsimp only
  rw [hq, if_neg hfound, if_neg hov, if_neg hleaf]
  cases ih q hqsh (by omega) hqmax hrq hnoq with
  | made ret all =>
    cases hout with
    | refused _ _ _ meet =>
      obtain ⟨x, hx, hm⟩ := meet hrq
      exact absurd hm (hnoq x hx)
    | failed _ hret => exact absurd hret ret
    | placed _ _ _ hret _ _ _ _ _ _ _ full =>
      rw [full] at hsplits
      rw [if_neg (by rw [hsplits]; simp), Nat.add_zero] at hcalls
      rw [if_neg (by rw [hret]; decide)]
      exact .made ret (hcalls ▸ all)
    | promoted q₁ q₂ l₁ l₂ hret hcur hprom hs₁ hs₂ hc₁ hc₂ old new ngb full hbetween =>
      rw [full] at hsplits
      rw [if_pos hret, hcur, hprom]
      rcases btPlace_alloc (c := c) (btInsert c obj pool (.page q)).pool
          (p.setChild (p.search (c.btGetObjKey obj)).1 (.page q₁)) (p.search (c.btGetObjKey obj)).1
          (btInsert c obj pool (.page q)).kpromoted (.page q₂)
          (btInsert c obj pool (.page q)).ngb with
        ⟨hlt, hret', hpool⟩ | ⟨hge, hal, hret', hpool, hcur'⟩ | ⟨hge, hret', hal⟩
      · rw [PageOf.setChild_count] at hlt
        rw [if_neg (by rw [hsplits]; omega), Nat.add_zero] at hcalls
        exact .made (by rw [hret']; decide) (by rw [hcalls, hpool]; exact all)
      · -- the halves of the child are there, and there is no room for the right one
        rw [PageOf.setChild_count] at hge
        rw [if_pos (hsplits.mpr ⟨by omega, rfl⟩)] at hcalls
        obtain ⟨o, ho, hlost⟩ := exists_lost hc hrq hs₂ hc₂ old new (hbetween hrq)
        refine .later _ o hret' (allocPage_ne_none (splitCalls_ne_zero full) all) ?_ hcur'
          (hmemq o ho) (not_mem_setChild hb₁ hb₂ hr.sorted (by rw [hq]; exact ho) hlost)
        rw [hcalls, allocPages_add, all, Option.bind_some, allocPages_one, hal]
        rfl
      · rw [PageOf.setChild_count] at hge
        rw [if_pos (hsplits.mpr ⟨by omega, rfl⟩)] at hcalls
        refine .made (by rw [hret']; decide) ?_
        rw [hcalls, allocPages_add, all, Option.bind_some, hal]
  | first ret none calls current pool_eq =>
    rw [if_neg (by rw [ret]; decide), current]
    refine .first ret none (by omega) ?_ pool_eq
    rw [← hq]
    exact congrArg BTPtr.page (by unfold PageOf.setChild; rw [Function.update_eq_self])
  | later q' o ret some all current mem lost =>
    rw [if_neg (by rw [ret]; decide), current]
    refine .later _ o ret some ?_ rfl (hmemq o mem)
      (not_mem_setChild hb₁ hb₂ hr.sorted (by rw [hq]; exact mem) lost)
    rw [hcalls, allocPages_add, all]
    rfl

end Node

/-- **One call of `BTInsert`**, as far as the pool is concerned. -/
theorem btInsert_alloc (hc : c.Odd) (obj : α) (pool : PagePool) : ∀ {n : ℕ} (p : BTPage α),
    Shape c n p → 0 ≤ p.count → p.count ≤ c.btMaxkey → Ready c obj (.page p) →
      (∀ o ∈ (BTPtr.page p).toList, ¬ c.Meet obj o) →
        AllocOutcome c (c.btGetObjKey obj) pool p (btInsert c obj pool (.page p)) := by
  intro n
  induction n with
  | zero => exact fun p hsh h0 hmax hr hno => btInsert_leaf_alloc pool hc hsh h0 hmax hr hno
  | succ n ih => exact fun p hsh h0 hmax hr hno => btInsert_node_alloc pool hc hsh h0 hmax hr hno ih

/-! ### The whole tree -/

/-- **`BTIns` when a call of `alloc_page` fails**: it says so, and either that was the
first call and the tree is as before, or an object is lost. -/
theorem btIns_alloc (hc : c.Odd) {t : BTree α} {obj : α} (ht : t.WF c)
    (hr : Ready c obj t.root) (hno : ∀ o ∈ t.toList, ¬ c.Meet obj o)
    (hfail : allocPages (allocCalls c t (c.btGetObjKey obj)) t.pool = none) :
    (btIns c t obj).1 = .allocFail ∧
      ((allocPage t.pool = none ∧ (btIns c t obj).2.1 = t) ∨
        (allocPage t.pool ≠ none ∧ ∃ o ∈ t.toList, o ∉ (btIns c t obj).2.1.toList)) := by
  have hsh := ht.shaped
  unfold BTree.Shaped at hsh
  unfold allocCalls at hfail
  unfold BTree.toList at hno ⊢
  cases hroot : t.root with
  | obj o =>
    rw [hroot] at hsh
    exact hsh.elim
  | null =>
    rw [hroot] at hfail
    dsimp only at hfail
    rw [allocPages_one, Option.map_eq_none_iff] at hfail
    unfold btIns
    rw [hroot]
    dsimp only
    rw [hfail]
    exact ⟨rfl, .inl ⟨rfl, rfl⟩⟩
  | page p =>
    rw [hroot] at hsh hr hno hfail
    obtain ⟨n, -, hsh, h0, hmax, -⟩ := hsh
    dsimp only at hfail
    rw [btIns_page t obj hroot]
    dsimp only
    have hout := btInsert_outcome hc obj t.pool p hsh h0 hmax
    cases btInsert_alloc hc obj t.pool p hsh h0 hmax hr hno with
    | made ret all =>
      rw [allocPages_add, all, Option.bind_some] at hfail
      cases hout with
      | refused _ _ _ meet =>
        obtain ⟨x, hx, hm⟩ := meet hr
        exact absurd hm (hno x hx)
      | failed _ hret => exact absurd hret ret
      | placed _ _ _ _ _ _ _ _ _ _ _ full =>
        rw [full] at hfail
        cases hfail
      | promoted q₁ q₂ l₁ l₂ hret hcur hprom hs₁ hs₂ hc₁ hc₂ old new ngb full hbetween =>
        rw [if_pos full, allocPages_one, Option.map_eq_none_iff] at hfail
        rw [if_pos hret, hfail, hcur]
        exact ⟨rfl, .inr ⟨allocPage_ne_none (splitCalls_ne_zero full) all,
          exists_lost hc hr hs₂ hc₂ old new (hbetween hr)⟩⟩
    | first ret none calls current pool_eq =>
      rw [if_neg (by rw [ret]; decide), current, pool_eq]
      refine ⟨ret, .inl ⟨none, ?_⟩⟩
      rw [← hroot]
    | later q o ret some all current mem lost =>
      rw [if_neg (by rw [ret]; decide), current]
      exact ⟨ret, .inr ⟨some, o, mem, lost⟩⟩

/-- A lookup or a deletion. -/
inductive TableCall where
  | search (k : ℕ)
  | del (k : ℕ)

/-- What `BTSearch` and `BTDel` return, one call after another; nothing more once
`free_page` panics.  The object is meant only with `BT_OK`. -/
def answers (c : BTConf α) : BTree α → List TableCall → List (Option (BTRet × Option α))
  | _, [] => []
  | t, .search k :: calls =>
      let r := btSearch c t k
      some (r.1, if r.1 = .ok then r.2 else none) :: answers c t calls
  | t, .del k :: calls =>
      match btDel c t k with
      | none => [none]
      | some (ret, t', o) => some (ret, if ret = .ok then o else none) :: answers c t' calls

/-- **What a failed insertion is to do**: say so, change no later answer, and leave no
reference to the object. -/
structure FailsAtomically (c : BTConf α) (t : BTree α) (obj : α)
    (r : BTRet × BTree α × Option α) : Prop where
  failure : r.1 = .allocFail
  later : ∀ calls, answers c r.2.1 calls = answers c t calls
  absent : ∀ s, ¬ r.2.1.Slot s obj

theorem mem_of_slot {t : BTree α} (ht : t.Laid c) {s : List ℤ} {o : α} (h : t.Slot s o) :
    o ∈ t.toList := by
  unfold BTree.Slot at h
  unfold BTree.toList
  rcases ht.uniform with hroot | ⟨n, p, hroot, hu⟩
  · rw [hroot] at h
    cases s with
    | nil => exact h.elim
    | cons i s => exact h.elim
  · rw [hroot] at h ⊢
    exact (exists_slot_iff hu).mp ⟨s, h⟩

/-- **When a failed insertion is atomic**: just when the first `alloc_page` fails. -/
theorem btIns_atomic_iff (hc : c.Odd) {t : BTree α} {obj : α} (ht : t.WF c)
    (hp : ∀ o ∈ t.toList, c.Proper o) (hdis : t.toList.Pairwise fun a b => ¬ c.Meet a b)
    (hobj : c.Proper obj) (hno : ∀ o ∈ t.toList, ¬ c.Meet obj o)
    (hfail : allocPages (allocCalls c t (c.btGetObjKey obj)) t.pool = none) :
    FailsAtomically c t obj (btIns c t obj) ↔ allocPage t.pool = none := by
  obtain ⟨hret, h⟩ := btIns_alloc hc ht (ready_root ht hdis hp hobj) hno hfail
  rcases h with ⟨hnone, htree⟩ | ⟨hsome, o, ho, hlost⟩
  · refine iff_of_true ⟨hret, fun calls => by rw [htree], fun s hs => ?_⟩ hnone
    rw [htree] at hs
    refine hno obj (mem_of_slot (ht.laid hc) hs) ⟨hobj, hobj⟩
  · refine iff_of_false (fun hat => ?_) hsome
    -- the lost object is no longer found at its base
    have hkey : c.btGetObjKey o ≤ c.btGetObjKey o ∧ c.btGetObjKey o < c.btGetObjLim o :=
      ⟨le_rfl, hp o ho⟩
    obtain ⟨found, place, -, rfl, hok, -⟩ := object_lookup (ht.laid hc) hp hdis (c.btGetObjKey o)
    have hfound := (hok o).mpr ⟨ho, hkey⟩
    have hsame := hat.later [.search (c.btGetObjKey o)]
    simp only [answers, List.cons.injEq, Option.some.injEq, and_true, hfound, Prod.mk.injEq,
      if_true] at hsame
    have hshaped : (btIns c t obj).2.1.Shaped c := by
      cases btIns_outcome hc ht.shaped obj with
      | refused hr => rcases hr with h | h <;> rw [hret] at h <;> cases h
      | failed _ shaped => exact shaped
      | inserted _ _ hr => rw [hret] at hr; cases hr
    obtain ⟨o', ho', hs', -⟩ := btSearch_sound hc hshaped hsame.1
    rw [hs'] at hsame
    obtain rfl : o' = o := by simpa using hsame.2
    exact hlost ho'

end Mungi
