import Mungi.BTree.Ins
import Mungi.BTree.Search
import Mungi.Naming.Tree

/-!
# Insertion into a directory's tree

`BTIns` of the naming library is that of the object table without its intervals.  Whether a hash
is there already is seen in two places: the search for a page sees the keys, and `BTInsertPage`
compares with the first child, which no key tells of.  That child is taken for an entry in an index
page, too: the hash of an entry lies where a page has its fourth key.

A leaf that is split asks `BTInsertPage` as well, and does not look at the answer.

## Main definitions

* `nsBtInsertPage`, `nsBtSplit`, `nsBtInsert`, `nsBtIns` — the functions of `btree.c`.
* `splitsMiddle`, `firstLeafFull` — what can go wrong, from the tree and the hash alone.
* `NsInsOutcome` — what `BTInsert` can do to a page.

## Main results

* `nsBtInsert_outcome` — what the function does.
* `nsBtIns_spec_iff` — **when insertion is right.**
-/

namespace Mungi.Naming

open Cat ForLoop

variable {α : Type}

/-! ### The code -/

/-- `BTGetObjKey` of a child pointer.  Of a page, it is the fourth key: an entry has 32 bytes in
front of its hash, and a page eight in front of its keys. -/
def nsKey (c : BTConf α) : BTPtr α → ℕ
  | .null => 0
  | .obj o => c.btGetObjKey o
  | .page p => p.key 3

/-- `BTInsertPage`: what it returns, and the page. -/
def nsBtInsertPage (c : BTConf α) (current : BTPage α) (hi : ℤ) (kpromoted : ℕ)
    (ppromoted : BTPtr α) : BTRet × BTPage α :=
  if nsKey c (current.child 0) = kpromoted then (.duplicate, current)
  else
    let s := forDown makeRoom (max hi 0) (current.count - max hi 0).toNat current
    let s :=
      if hi < 0 then
        { s with
          key := Function.update s.key 0 (nsKey c (s.child 0))
          child := Function.update (Function.update s.child 1 (s.child 0)) 0 ppromoted }
      else
        { s with
          key := Function.update s.key hi kpromoted
          child := Function.update s.child (hi + 1) ppromoted }
    (.ok, { s with count := s.count + 1 })

/-- The split of a full page: the old page, the median key and the new page.  What `BTInsertPage`
returns is not looked at. -/
def nsBtSplit (c : BTConf α) (current : BTPage α) (hi : ℤ) (kpromoted : ℕ) (ppromoted : BTPtr α) :
    BTPage α × ℕ × BTPage α :=
  let cut := splitCut c current hi kpromoted
  let s := splitMove c cut.1 0 cut.2.1
  if hi < c.btMinkey then
    ((nsBtInsertPage c s.1 hi kpromoted ppromoted).2, cut.2.2, s.2)
  else
    (s.1, cut.2.2, (nsBtInsertPage c s.2 (hi - (cut.1.count + 1)) kpromoted ppromoted).2)

/-- What `BTInsert` returns: its code, how many pages the heap can still give, the page it was
called on and its out-parameters. -/
structure NsInsRes (α : Type) where
  ret : BTRet
  pages : ℕ
  current : BTPtr α
  kpromoted : ℕ
  ppromoted : BTPtr α

/-- The end of `BTInsert`. -/
def nsBtPlace (c : BTConf α) (pages : ℕ) (current : BTPage α) (hi : ℤ) (kpromoted : ℕ)
    (ppromoted : BTPtr α) : NsInsRes α :=
  if current.count < c.btMaxkey then
    let r := nsBtInsertPage c current hi kpromoted ppromoted
    { ret := r.1, pages, current := .page r.2, kpromoted, ppromoted }
  else
    match pages with
    | 0 => { ret := .allocFail, pages := 0, current := .page current, kpromoted, ppromoted }
    | pages + 1 =>
      let s := nsBtSplit c current hi kpromoted ppromoted
      { ret := .promotion, pages, current := .page s.1, kpromoted := s.2.1,
        ppromoted := .page s.2.2 }

/-- `BTInsert`.  Without a page it promotes the hash at once; an entry in the place of a page does
not occur. -/
def nsBtInsert (c : BTConf α) (obj : α) (pages : ℕ) : BTPtr α → NsInsRes α
  | .null =>
      { ret := .promotion, pages, current := .null, kpromoted := c.btGetObjKey obj,
        ppromoted := .null }
  | .obj o => { ret := .invalid, pages, current := .obj o, kpromoted := 0, ppromoted := .null }
  | .page ⟨idx, count, isleaf, key, child⟩ =>
      let current : BTPage α := ⟨idx, count, isleaf, key, child⟩
      let s := current.search (c.btGetObjKey obj)
      let hi := s.1
      if s.2 then
        { ret := .duplicate, pages, current := .page current, kpromoted := 0, ppromoted := .null }
      else if isleaf then
        let hi := if hi = 0 ∧ c.btGetObjKey obj < nsKey c (child 0) then -1 else hi
        nsBtPlace c pages current hi (c.btGetObjKey obj) (.obj obj)
      else
        let r := nsBtInsert c obj pages (child hi)
        let current := current.setChild hi r.current
        if r.ret = .promotion then nsBtPlace c r.pages current hi r.kpromoted r.ppromoted
        else { r with current := .page current }

/-- `BTIns`, when the heap can give `pages` pages: its code, and the tree. -/
def nsBtIns (c : BTConf α) (t : NsTree α) (obj : α) (pages : ℕ) : BTRet × NsTree α :=
  match t.root with
  | .null =>
    match pages with
    | 0 => (.allocFail, t)
    | _ + 1 => (.ok, { depth := 1, root := .page ((newRoot 0 0 true).setChild 0 (.obj obj)) })
  | root =>
    let r := nsBtInsert c obj pages root
    let t := { t with root := r.current }
    if r.ret = .promotion then
      match r.pages with
      | 0 => (.allocFail, t)
      | _ + 1 =>
        let newroot := ((newRoot 0 1 false).setChild 0 r.current).setChild 1 r.ppromoted
        (.ok, { depth := t.depth + 1,
                root := .page { newroot with key := Function.update newroot.key 0 r.kpromoted } })
    else (r.ret, t)

/-- `BTSearch`; the entry is meant only with `BT_OK`. -/
def nsBtSearch (c : BTConf α) (t : NsTree α) (k : ℕ) : BTRet × Option α :=
  match t.root with
  | .null => (.notFound, none)
  | r =>
    match btSearchPage c k r with
    | some o => if c.btObjMatch o k then (.ok, some o) else (.notFound, some o)
    | none => (.notFound, none)

/-! ### What can go wrong -/

/-- Inserting a hash splits an index page with the promoted child between its halves. -/
def splitsMiddle (c : BTConf α) (k : ℕ) : BTPtr α → Bool
  | .null => false
  | .obj _ => false
  | .page ⟨idx, count, isleaf, key, child⟩ =>
      let hi := (PageOf.search ⟨idx, count, isleaf, key, child⟩ k).1
      !isleaf && (splitsMiddle c k (child hi) ||
        (decide (count = c.btMaxkey) && splits c k (child hi) && decide (hi = c.btMinkey)))

/-- The first leaf is full. -/
def firstLeafFull (c : BTConf α) : BTPtr α → Bool
  | .null => false
  | .obj _ => false
  | .page ⟨_, count, isleaf, _, child⟩ =>
      if isleaf then decide (count = c.btMaxkey) else firstLeafFull c (child 0)

/-- **What inserting an entry is to do.** -/
structure NsInsSpec (c : BTConf α) (t : NsTree α) (obj : α) (res : BTRet × NsTree α) : Prop where
  /-- It is refused just when an entry has the hash. -/
  duplicate_iff : res.1 = .duplicate ↔ ∃ o ∈ t.toList, c.btGetObjKey o = c.btGetObjKey obj
  /-- Then nothing changes. -/
  unchanged : res.1 = .duplicate → res.2 = t
  /-- Otherwise it is put in its place. -/
  ok : res.1 ≠ .duplicate → res.1 = .ok
  inserted : res.1 ≠ .duplicate →
    ∃ l₁ l₂, t.toList = l₁ ++ l₂ ∧ res.2.toList = l₁ ++ obj :: l₂
  wf : res.1 ≠ .duplicate → res.2.WF c
  /-- The new entry is found, and every old one. -/
  found : res.1 ≠ .duplicate → ∀ o, (o = obj ∨ o ∈ t.toList) →
    nsBtSearch c res.2 (c.btGetObjKey o) = (.ok, some o)

variable {c : BTConf α}

theorem splitsMiddle_leaf {p : BTPage α} (h : p.isleaf = true) (k : ℕ) :
    splitsMiddle c k (.page p) = false := by
  change (!p.isleaf && _) = false
  rw [h]
  rfl

theorem splitsMiddle_page {p : BTPage α} (h : p.isleaf = false) (k : ℕ) :
    splitsMiddle c k (.page p) = true ↔ splitsMiddle c k (p.child (p.search k).1) = true ∨
      (p.count = c.btMaxkey ∧ splits c k (p.child (p.search k).1) = true ∧
        (p.search k).1 = c.btMinkey) := by
  change (!p.isleaf && (splitsMiddle c k (p.child (p.search k).1) ||
    (decide (p.count = c.btMaxkey) && splits c k (p.child (p.search k).1) &&
      decide ((p.search k).1 = c.btMinkey)))) = true ↔ _
  simp only [h, Bool.not_false, Bool.true_and, Bool.or_eq_true, Bool.and_eq_true,
    decide_eq_true_eq, and_assoc]

theorem firstLeafFull_leaf {p : BTPage α} (h : p.isleaf = true) :
    firstLeafFull c (.page p) = true ↔ p.count = c.btMaxkey := by
  change (if p.isleaf = true then decide (p.count = c.btMaxkey) else _) = true ↔ _
  rw [if_pos h, decide_eq_true_eq]

theorem firstLeafFull_page {p : BTPage α} (h : p.isleaf = false) :
    firstLeafFull c (.page p) = firstLeafFull c (p.child 0) := by
  change (if p.isleaf = true then _ else firstLeafFull c (p.child 0)) = _
  rw [if_neg (by simp [h])]

/-! ### Pages and splits -/

/-- The same tree, when the first word of a page is `w`. -/
def reading (c : BTConf α) (w : ℕ) : BTConf α := { c with pageWord := fun _ _ => w }

@[simp] theorem reading_btMinkey (w : ℕ) : (reading c w).btMinkey = c.btMinkey := rfl

theorem ptrKey_reading (q : BTPtr α) : (reading c (nsKey c q)).ptrKey q = nsKey c q := by
  cases q <;> rfl

section InsertPage
variable (p : BTPage α) {hi : ℤ} (k : ℕ) (q : BTPtr α)

/-- What is read off a page matters in front of it only. -/
theorem btInsertPage_reading (h : 0 ≤ hi ∨ ∃ o, p.child 0 = .obj o) (w : ℕ) :
    btInsertPage (reading c w) p hi k q = btInsertPage c p hi k q := by
  have hc0 := forDown_makeRoom_child p (max hi 0) 0
  rw [if_neg (by omega)] at hc0
  unfold btInsertPage
  dsimp only
  by_cases hneg : hi < 0
  · obtain ⟨o, ho⟩ := h.resolve_left (by omega)
    rw [if_pos hneg, if_pos hneg, hc0, ho]
    rfl
  · rw [if_neg hneg, if_neg hneg]

/-- **`BTInsertPage` inserts** unless the promoted hash is that of the first child. -/
theorem nsBtInsertPage_eq (hi : ℤ) (hfresh : nsKey c (p.child 0) ≠ k) : nsBtInsertPage c p hi k q =
    (.ok, btInsertPage (reading c (nsKey c (p.child 0))) p hi k q) := by
  have hc0 := forDown_makeRoom_child p (max hi 0) 0
  rw [if_neg (by omega)] at hc0
  unfold nsBtInsertPage btInsertPage
  rw [if_neg hfresh]
  dsimp only
  rw [hc0, ptrKey_reading]

/-- A split in which the promoted hash is not one of the children's is that of the object table,
with the word that is read. -/
theorem nsBtSplit_eq (hfull : p.count = c.btMaxkey) (hc : c.Odd)
    (hfresh : ∀ j, 0 ≤ j → j ≤ p.count → nsKey c (p.child j) ≠ k) :
    nsBtSplit c p hi k q = btSplit (reading c (nsKey c
      (p.child (if hi < c.btMinkey then 0 else c.btMinkey + 1)))) p 0 hi k q := by
  obtain ⟨hm, hM⟩ := hc.bounds
  unfold nsBtSplit btSplit
  by_cases hlt : hi < c.btMinkey
  · have hcut : (splitCut c p hi k).1.count = c.btMinkey - 1 := by
      unfold splitCut
      rw [if_pos hlt]
    have hchild : (splitCut c p hi k).1.child = p.child := by
      unfold splitCut
      rw [if_pos hlt]
    have hzero : (splitMove c (splitCut c p hi k).1 0 (splitCut c p hi k).2.1).1.child 0 =
        p.child 0 := by
      rw [splitMove_fst_child _ _ (by omega), hchild]
    have hinsert := nsBtInsertPage_eq (c := c)
      (splitMove c (splitCut c p hi k).1 0 (splitCut c p hi k).2.1).1 k q hi
      (by rw [hzero]; exact hfresh 0 le_rfl (by omega))
    rw [hzero] at hinsert
    dsimp only
    rw [if_pos hlt, if_pos hlt, reading_btMinkey, if_pos hlt, hinsert]
    rfl
  · have hcut : (splitCut c p hi k).1.count = c.btMinkey := by
      unfold splitCut
      rw [if_neg hlt]
      split <;> rfl
    have hnum : (splitCut c p hi k).2.1 = c.btMaxkey - c.btMinkey - 1 := by
      unfold splitCut
      rw [if_neg hlt]
      split <;> rfl
    have hchild : (splitCut c p hi k).1.child = p.child := by
      unfold splitCut
      rw [if_neg hlt]
      split <;> rfl
    have hzero : (splitMove c (splitCut c p hi k).1 0 (splitCut c p hi k).2.1).2.child 0 =
        p.child (c.btMinkey + 1) := by
      rw [splitMove_snd_child _ _ le_rfl (by omega), hchild, hcut, Int.zero_add]
    have hinsert := nsBtInsertPage_eq (c := c)
      (splitMove c (splitCut c p hi k).1 0 (splitCut c p hi k).2.1).2 k q
      (hi - ((splitCut c p hi k).1.count + 1)) (by rw [hzero]; exact hfresh _ (by omega) (by omega))
    rw [hzero] at hinsert
    dsimp only
    rw [if_neg hlt, if_neg hlt, reading_btMinkey, if_neg hlt, hinsert]
    rfl

/-- **The split of a full page.** -/
theorem nsBtSplit_spec (hc : c.Odd) (hfull : p.count = c.btMaxkey) (h₁ : -1 ≤ hi)
    (h₂ : hi ≤ p.count) (hfirst : 0 ≤ hi ∨ ∃ o, p.child 0 = .obj o)
    (hfresh : ∀ j, 0 ≤ j → j ≤ p.count → nsKey c (p.child j) ≠ k) :
    SplitOf c (btInsertPage c p hi k q)
      (if hi = c.btMinkey then nsKey c (p.child (c.btMinkey + 1))
        else (btInsertPage c p hi k q).key (c.btMinkey + 1)) (nsBtSplit c p hi k q) := by
  rw [nsBtSplit_eq p k q hfull hc hfresh]
  set w := nsKey c (p.child (if hi < c.btMinkey then 0 else c.btMinkey + 1)) with hw
  have hspec : SplitOf (reading c w) _ _ _ := btSplit_spec 0 k q hc hfull h₁ h₂
  rw [btInsertPage_reading p k q hfirst w] at hspec
  refine ⟨hspec.left, hspec.kmed, hspec.right, hspec.key_zero.trans ?_⟩
  by_cases hmid : hi = c.btMinkey
  · rw [reading_btMinkey, if_pos hmid, if_pos hmid]
    rw [if_neg (by omega)] at hw
    rw [hw]
    exact ptrKey_reading _
  · rw [reading_btMinkey, if_neg hmid, if_neg hmid]

end InsertPage

/-- The end of `BTInsert`, when the promoted hash is not one of the children's: there is room, or
the page is split. -/
theorem nsBtPlace_cases (hc : c.Odd) {pages : ℕ} {p : BTPage α} {hi : ℤ} {k : ℕ} {q : BTPtr α}
    (hpages : 0 < pages) (h₁ : -1 ≤ hi) (h₂ : hi ≤ p.count) (h0 : 0 ≤ p.count)
    (hmax : p.count ≤ c.btMaxkey) (hfirst : 0 ≤ hi ∨ ∃ o, p.child 0 = .obj o)
    (hfresh : ∀ j, 0 ≤ j → j ≤ p.count → nsKey c (p.child j) ≠ k) :
    (p.count < c.btMaxkey ∧ nsBtPlace c pages p hi k q =
        ⟨.ok, pages, .page (btInsertPage c p hi k q), k, q⟩) ∨
      (p.count = c.btMaxkey ∧ ∃ l kmed r,
        nsBtPlace c pages p hi k q = ⟨.promotion, pages - 1, .page l, kmed, .page r⟩ ∧
        SplitOf c (btInsertPage c p hi k q)
          (if hi = c.btMinkey then nsKey c (p.child (c.btMinkey + 1))
            else (btInsertPage c p hi k q).key (c.btMinkey + 1)) (l, kmed, r)) := by
  unfold nsBtPlace
  by_cases hlt : p.count < c.btMaxkey
  · left
    rw [if_pos hlt, nsBtInsertPage_eq p k q hi (hfresh 0 le_rfl h0),
      btInsertPage_reading p k q hfirst]
    exact ⟨hlt, rfl⟩
  · right
    have hfull : p.count = c.btMaxkey := by omega
    obtain ⟨pages, rfl⟩ := Nat.exists_eq_succ_of_ne_zero (Nat.ne_of_gt hpages)
    rw [if_neg hlt]
    exact ⟨hfull, _, _, _, rfl, nsBtSplit_spec p k q hc hfull h₁ h₂ hfirst hfresh⟩

/-! ### Hashes -/

/-- What the naming library's trees are used with: their pages are big enough, and an entry is found
at its hash only. -/
structure Hashed (c : BTConf α) : Prop where
  odd : c.Odd
  four : 4 < c.btMinkey
  lim : ∀ o, c.btGetObjLim o = c.btGetObjKey o + 1

theorem nsConf_hashed (hash : α → ℕ) : Hashed (nsConf hash) :=
  ⟨nsConf_odd hash, show (4 : ℤ) < (255 - 1) / 2 by decide, fun _ => rfl⟩

section Hashes
variable {n : ℕ} {p q : BTPage α} {obj o : α} {hi i : ℤ} {x : BTPtr α}

theorem Hashed.before_iff (hc : Hashed c) {a b : α} : c.Before a b ↔ c.Lt a b := by
  unfold BTConf.Before BTConf.Lt
  rw [hc.lim]
  exact ⟨fun h => h.1, fun h => ⟨h, h⟩⟩

/-- What is read off a child is the hash of an entry below it. -/
theorem exists_nsKey (hc : Hashed c) (hx : ChildShape c n x) (he : Exact c x) :
    ∃ o ∈ x.toList, nsKey c x = c.btGetObjKey o := by
  have h4 := hc.four
  cases n with
  | zero =>
    obtain ⟨o, rfl⟩ := hx
    exact ⟨o, List.mem_singleton_self o, rfl⟩
  | succ n =>
    obtain ⟨r, rfl, hsh, hmin, -⟩ := hx
    obtain ⟨o, ho, hleast⟩ := BTConf.exists_leastBase (c := c)
      (hsh.child_ne_nil (show 0 ≤ c.btMinkey by omega) (show 0 ≤ (3 : ℤ) + 1 by omega) (by omega))
    refine ⟨o, mem_toList_page.mpr ⟨3 + 1, by omega, by omega, ho⟩, ?_⟩
    exact ((exact_page.mp he).1 3 (by omega) (by omega)).trans hleast

/-- Off a page, it is not the least hash. -/
theorem leastBase_lt_nsKey (hc : Hashed c) (hsh : Shape c n p) (hmin : c.btMinkey ≤ p.count)
    (he : Exact c (.page p)) (hs : (BTPtr.page p).toList.Pairwise c.Lt) :
    c.leastBase (BTPtr.page p).toList < nsKey c (.page p) := by
  have h4 := hc.four
  have hm : 0 ≤ c.btMinkey := by omega
  obtain ⟨a, ha, hleast⟩ := BTConf.exists_leastBase (c := c)
    (hsh.child_ne_nil hm le_rfl (show 0 ≤ p.count by omega))
  obtain ⟨b, hb, hkey⟩ := BTConf.exists_leastBase (c := c)
    (hsh.child_ne_nil hm (show 0 ≤ (3 : ℤ) + 1 by omega) (by omega))
  have hkey' : p.key 3 = _ := (exact_page.mp he).1 3 (by omega) (by omega)
  rw [hsh.leastBase_page hm (by omega), hleast]
  change _ < p.key 3
  rw [hkey', hkey]
  exact lt_of_mem_child hs le_rfl (by omega) (by omega) ha hb

/-- The least hash of a page is not found behind the first child. -/
theorem leastBase_lt_of_mem (hc : Hashed c) (hsh : Shape c n p)
    (hs : (BTPtr.page p).toList.Pairwise c.Lt) (hpos : 0 < i) (hle : i ≤ p.count)
    (ho : o ∈ (p.child i).toList) : c.leastBase (BTPtr.page p).toList < c.btGetObjKey o := by
  have h4 := hc.four
  have hm : 0 ≤ c.btMinkey := by omega
  obtain ⟨a, ha, hleast⟩ := BTConf.exists_leastBase (c := c)
    (hsh.child_ne_nil hm le_rfl (show 0 ≤ p.count by omega))
  rw [hsh.leastBase_page hm (by omega), hleast]
  exact lt_of_mem_child hs le_rfl hpos hle ha ho

theorem sorted_of_ready (h : Ready c obj (.page p)) : (BTPtr.page p).toList.Pairwise c.Lt :=
  h.sorted.imp fun hab => hab.lt

/-- The entries right of the child found have bigger hashes. -/
theorem before_upper_of_ready (hc : Hashed c) (hsh : Shape c n p) (h0 : 0 ≤ p.count)
    (h : Ready c obj (.page p)) :
    ∀ b ∈ upper p (p.search (c.btGetObjKey obj)).1, c.Before obj b := by
  refine h.before_upper hc.odd hsh h0 ?_
  rintro ⟨hlt, hmatch⟩
  have hkey := (h.search hc.odd hsh h0).2.1 hlt
  rw [btObjMatch_iff, hc.lim] at hmatch
  omega

end Hashes

/-! ### One call of `BTInsert` -/

/-- The entry has the least hash of a page, and the first leaf is full. -/
def AtFullLeaf (c : BTConf α) (obj : α) (q : BTPtr α) : Prop :=
  firstLeafFull c q = true ∧ c.leastBase q.toList = c.btGetObjKey obj

/-- **What `BTInsert` can do to a page** with `n` levels below it. -/
inductive NsInsOutcome (c : BTConf α) (n : ℕ) (obj : α) (pages : ℕ) (p : BTPage α)
    (r : NsInsRes α) : Prop
  /-- An entry has the hash, and nothing changes. -/
  | refused (ret : r.ret = .duplicate) (current : r.current = .page p)
      (dup : ∃ o ∈ (BTPtr.page p).toList, c.btGetObjKey o = c.btGetObjKey obj)
      (first : ¬ AtFullLeaf c obj (.page p))
  /-- The first entry has the hash; its leaf is split, and the new entry left out. -/
  | lost (first : AtFullLeaf c obj (.page p)) (pages_le : pages ≤ r.pages + (n + 1))
      (done : r.ret = .ok ∨ r.ret = .promotion ∧ ∃ q, r.current = .page q ∧
        q.key 3 < r.kpromoted ∧ ∃ o ∈ (BTPtr.page p).toList, r.kpromoted = c.btGetObjKey o)
  /-- The entry is in. -/
  | placed (q : BTPage α) (l₁ l₂ : List α) (ret : r.ret = .ok) (current : r.current = .page q)
      (shape : Shape c n q) (count_le : p.count ≤ q.count) (count_max : q.count ≤ c.btMaxkey)
      (old : (BTPtr.page p).toList = l₁ ++ l₂) (new : (BTPtr.page q).toList = l₁ ++ obj :: l₂)
      (full : splits c (c.btGetObjKey obj) (.page p) = false) (between : Between c l₁ obj l₂)
      (exact_iff : Exact c (.page q) ↔ splitsMiddle c (c.btGetObjKey obj) (.page p) = false)
  /-- The entry is in, and the page was split. -/
  | promoted (q q' : BTPage α) (l₁ l₂ : List α) (ret : r.ret = .promotion)
      (pages_le : pages ≤ r.pages + (n + 1)) (current : r.current = .page q)
      (ppromoted : r.ppromoted = .page q') (shape : Shape c n q) (shape' : Shape c n q')
      (count : q.count = c.btMinkey) (count' : q'.count = c.btMinkey)
      (old : (BTPtr.page p).toList = l₁ ++ l₂)
      (new : (BTPtr.page q).toList ++ (BTPtr.page q').toList = l₁ ++ obj :: l₂)
      (full : splits c (c.btGetObjKey obj) (.page p) = true) (between : Between c l₁ obj l₂)
      (exact_iff : Exact c (.page q) ∧ Exact c (.page q') ↔
        splitsMiddle c (c.btGetObjKey obj) (.page p) = false)
      (kpromoted : r.kpromoted = c.leastBase (BTPtr.page q').toList)
      (fourth : q.key 3 < r.kpromoted)

theorem nsBtInsert_page (obj : α) (pages : ℕ) (p : BTPage α) :
    nsBtInsert c obj pages (.page p) =
      (let hi := (p.search (c.btGetObjKey obj)).1
      if (p.search (c.btGetObjKey obj)).2 then
        { ret := .duplicate, pages, current := .page p, kpromoted := 0, ppromoted := .null }
      else if p.isleaf then
        nsBtPlace c pages p (if hi = 0 ∧ c.btGetObjKey obj < nsKey c (p.child 0) then -1 else hi)
          (c.btGetObjKey obj) (.obj obj)
      else
        let r := nsBtInsert c obj pages (p.child hi)
        if r.ret = .promotion then
          nsBtPlace c r.pages (p.setChild hi r.current) hi r.kpromoted r.ppromoted
        else { r with current := .page (p.setChild hi r.current) }) := rfl

section Page
variable {n pages pages' : ℕ} {p p₁ : BTPage α} {obj : α} {hi : ℤ} {k : ℕ} {q : BTPtr α}

theorem pairwise_lt_of_between (hc : Hashed c) {l₁ l₂ : List α} (h : Between c l₁ obj l₂)
    (hs : (l₁ ++ l₂).Pairwise c.Before) : (l₁ ++ obj :: l₂).Pairwise c.Lt :=
  (h.pairwise hs).imp fun hab => hc.before_iff.mp hab

/-- The end of `BTInsert`, on the page `p₁` that the call below left in place of `p`.  The keys of
the page that results where there is room are right; those of its halves are, unless one is read off
a page. -/
theorem nsBtPlace_outcome (hc : Hashed c) (l₁ l₂ : List α) (h₁ : -1 ≤ hi) (h₂ : hi ≤ p₁.count)
    (hready : Ready c obj (.page p)) (hcount : p₁.count = p.count) (h0 : 0 ≤ p.count)
    (hmax : p.count ≤ c.btMaxkey) (hpages : 0 < pages') (hle : pages ≤ pages' + n)
    (hfirst : 0 ≤ hi ∨ ∃ o, p₁.child 0 = .obj o)
    (hfresh : ∀ j, 0 ≤ j → j ≤ p₁.count → nsKey c (p₁.child j) ≠ k)
    (hv : Shape c n (btInsertPage c p₁ hi k q)) (hkeys : Keys c (btInsertPage c p₁ hi k q))
    (old : (BTPtr.page p).toList = l₁ ++ l₂)
    (new : (BTPtr.page (btInsertPage c p₁ hi k q)).toList = l₁ ++ obj :: l₂)
    (hsplits : splits c (c.btGetObjKey obj) (.page p) = true ↔ p.count = c.btMaxkey)
    (hbetween : Between c l₁ obj l₂)
    (hmiddle : splitsMiddle c (c.btGetObjKey obj) (.page p) = false ↔
      Exact c (.page (btInsertPage c p₁ hi k q)) ∧ (p.count = c.btMaxkey → hi = c.btMinkey →
        nsKey c (p₁.child (c.btMinkey + 1)) = (btInsertPage c p₁ hi k q).key (c.btMinkey + 1))) :
    NsInsOutcome c n obj pages p (nsBtPlace c pages' p₁ hi k q) := by
  have h4 := hc.four
  have hmM := hc.odd.bounds
  have hvc : (btInsertPage c p₁ hi k q).count = p.count + 1 := by
    rw [btInsertPage_count, hcount]
  rcases nsBtPlace_cases (q := q) hc.odd hpages h₁ h₂ (by omega) (by omega) hfirst hfresh with
    ⟨hlt, hr⟩ | ⟨hfull, l, kmed, r, hr, hsplit⟩
  · rw [hr]
    refine .placed _ l₁ l₂ rfl rfl hv (by omega) (by omega) old new ?_ hbetween ?_
    · rw [← Bool.not_eq_true, hsplits]
      omega
    · rw [hmiddle]
      exact ⟨fun he => ⟨he, fun hf => by omega⟩, fun he => he.1⟩
  · have hhalves := hsplit.halves hc.odd hv (by omega)
    have hsorted : (BTPtr.page (btInsertPage c p₁ hi k q)).toList.Pairwise c.Lt := by
      rw [new]
      refine pairwise_lt_of_between hc hbetween ?_
      rw [← old]
      exact hready.sorted
    -- the halves are right exactly when the whole is and the key read off a child is
    have hkey0 : r.key 0 = (btInsertPage c p₁ hi k q).key (c.btMinkey + 1) ↔
        (hi = c.btMinkey → nsKey c (p₁.child (c.btMinkey + 1)) =
          (btInsertPage c p₁ hi k q).key (c.btMinkey + 1)) := by
      have hzero := hsplit.key_zero
      dsimp only at hzero
      rw [hzero]
      by_cases hm : hi = c.btMinkey
      · rw [if_pos hm]
        exact ⟨fun h _ => h, fun h => h hm⟩
      · rw [if_neg hm]
        exact ⟨fun _ h => absurd h hm, fun _ => rfl⟩
    have hwhole : Exact c (.page l) → Exact c (.page r) →
        Exact c (.page (btInsertPage c p₁ hi k q)) := fun hel her =>
      exact_page.mpr ⟨hkeys, hhalves.exact_child hel her⟩
    have hkmed : kmed = (btInsertPage c p₁ hi k q).key c.btMinkey := hsplit.kmed
    rw [hr]
    refine .promoted l r l₁ l₂ rfl (by dsimp only; omega) rfl rfl hhalves.shape_left
      hhalves.shape_right hhalves.count_left hhalves.count_right old (by rw [← hhalves.toList, new])
      (hsplits.mpr (by omega)) hbetween ?_ ?_ ?_
    · rw [hmiddle]
      constructor
      · rintro ⟨hel, her⟩
        have hev := hwhole hel her
        exact ⟨hev, fun _ => hkey0.mp ((hhalves.exact_right hev).mp her)⟩
      · rintro ⟨hev, hk⟩
        exact ⟨hhalves.exact_left hev,
          (hhalves.exact_right hev).mpr (hkey0.mpr (hk (by omega)))⟩
    · have hchild := hsplit.right.child 0 le_rfl (by omega)
      rw [PageOf.setKey_child, Int.add_zero] at hchild
      have hcr := hhalves.count_right
      dsimp only at hchild
      rw [hkmed, hkeys c.btMinkey (by omega) (by omega),
        hhalves.shape_right.leastBase_page (by omega) (by dsimp only at hcr ⊢; omega)]
      exact congrArg (fun x : BTPtr α => c.leastBase x.toList) hchild.symm
    · have hkey := hsplit.left.key 3 (by omega) (by omega)
      dsimp only at hkey ⊢
      rw [hkey, hkmed]
      exact hkeys.key_lt_key (fun i => hv.child_ne_nil (by omega)) hsorted (by omega) (by omega)
        (by omega)

/-- An entry with the hash of the first one, and a full leaf: it is split, and nothing is
inserted. -/
theorem nsBtPlace_lost (hc : Hashed c) {o : α} (hsh : Shape c 0 p) (hfull : p.count = c.btMaxkey)
    (hready : Ready c obj (.page p)) (hpages : 0 < pages) (hfirst : p.child 0 = .obj o)
    (hkey : c.btGetObjKey o = c.btGetObjKey obj) :
    NsInsOutcome c 0 obj pages p (nsBtPlace c pages p 0 (c.btGetObjKey obj) q) := by
  have h4 := hc.four
  have hmM := hc.odd.bounds
  obtain ⟨pages, rfl⟩ := Nat.exists_eq_succ_of_ne_zero (Nat.ne_of_gt hpages)
  have hlt : ¬ p.count < c.btMaxkey := by omega
  have hmin : 0 < c.btMinkey := by omega
  have hkeys := (exact_page.mp hready.exact).1
  have hcut : splitCut c p 0 (c.btGetObjKey obj) =
      ({ p with count := c.btMinkey - 1, key := Function.update p.key (c.btMinkey - 1) 0 },
        c.btMaxkey - c.btMinkey, p.key (c.btMinkey - 1)) := by
    unfold splitCut
    rw [if_pos hmin]
  unfold nsBtPlace nsBtSplit nsBtInsertPage
  rw [if_neg hlt, hcut]
  dsimp only
  rw [if_pos hmin, splitMove_fst_child _ _ (by dsimp only; omega)]
  dsimp only
  have hdup : nsKey c (p.child 0) = c.btGetObjKey obj := by
    rw [hfirst]
    exact hkey
  rw [if_pos hdup]
  refine .lost ⟨(firstLeafFull_leaf hsh.isleaf_zero).mpr hfull, ?_⟩ le_rfl
    (Or.inr ⟨rfl, _, rfl, ?_, ?_⟩)
  · rw [hsh.leastBase_page (by omega) (by omega), hfirst]
    exact hkey
  · rw [splitMove_fst_key _ _ (by dsimp only; omega)]
    dsimp only
    rw [Function.update_of_ne (by omega)]
    exact hkeys.key_lt_key (fun i => hsh.child_ne_nil (by omega)) (sorted_of_ready hready)
      (by omega) (by omega) (by omega)
  · obtain ⟨x, hx, hkx⟩ := hready.exists_key hc.odd hsh (show 0 ≤ c.btMinkey - 1 by omega)
      (by omega)
    exact ⟨x, mem_toList_page.mpr ⟨_, by omega, by omega, hx⟩, hkx⟩

/-- **`BTInsert` in a leaf.** -/
theorem nsBtInsert_leaf (hc : Hashed c) (hsh : Shape c 0 p) (h0 : 0 ≤ p.count)
    (hmax : p.count ≤ c.btMaxkey) (hready : Ready c obj (.page p)) (hpages : 0 < pages) :
    NsInsOutcome c 0 obj pages p (nsBtInsert c obj pages (.page p)) := by
  have hmM := hc.odd.bounds
  obtain ⟨hb₁, hb₂⟩ := PageOf.search_bounds p (c.btGetObjKey obj) h0
  have hbefore := hready.before_lower hc.odd hsh h0
  have hafter := before_upper_of_ready hc hsh h0 hready
  have hsearch := hready.search hc.odd hsh h0
  have hsorted := sorted_of_ready hready
  have hfullp := splits_page (c := c) p (c.btGetObjKey obj)
  have hkeys := (exact_page.mp hready.exact).1
  rw [nsBtInsert_page]
  dsimp only
  generalize p.search (c.btGetObjKey obj) = s at *
  obtain ⟨hi, found⟩ := s
  dsimp only at *
  by_cases hfound : found = true
  · rw [if_pos hfound]
    obtain ⟨hpos, hkey⟩ := hsearch.2.2.mp hfound
    obtain ⟨o, ho, hko⟩ := hready.exists_key hc.odd hsh (show 0 ≤ hi - 1 by omega) (by omega)
    have hdup : c.btGetObjKey o = c.btGetObjKey obj := hko.symm.trans hkey
    have hleast := leastBase_lt_of_mem hc hsh hsorted (show 0 < hi - 1 + 1 by omega) (by omega) ho
    refine .refused rfl rfl ⟨o, mem_toList_page.mpr ⟨_, by omega, by omega, ho⟩, hdup⟩ ?_
    rintro ⟨-, heq⟩
    omega
  rw [if_neg hfound, if_pos hsh.isleaf_zero]
  obtain ⟨o, ho⟩ := hsh.2 hi hb₁ hb₂
  obtain ⟨o₀, ho₀⟩ := hsh.2 0 le_rfl h0
  -- behind the first place, the entry found is not above the new one
  have hlower : 0 < hi → c.btGetObjKey o < c.btGetObjKey obj := by
    intro hpos
    have hle := hsearch.1 hpos
    have hne : p.key (hi - 1) ≠ c.btGetObjKey obj := fun h => hfound (hsearch.2.2.mpr ⟨hpos, h⟩)
    have hkey := hkeys (hi - 1) (by omega) (by omega)
    rw [Int.sub_add_cancel, ho] at hkey
    change _ = c.btGetObjKey o at hkey
    omega
  by_cases hsame : c.btGetObjKey o = c.btGetObjKey obj
  · obtain rfl : hi = 0 := by omega
    have hplace : ¬ ((0 : ℤ) = 0 ∧ c.btGetObjKey obj < nsKey c (p.child 0)) := by
      rw [ho]
      rintro ⟨-, hlt⟩
      change c.btGetObjKey obj < c.btGetObjKey o at hlt
      omega
    rw [if_neg hplace]
    by_cases hfull : p.count = c.btMaxkey
    · exact nsBtPlace_lost hc hsh hfull hready hpages ho hsame
    · have hdup : nsKey c (p.child 0) = c.btGetObjKey obj := by
        rw [ho]
        exact hsame
      unfold nsBtPlace nsBtInsertPage
      rw [if_pos (by omega), if_pos hdup]
      refine .refused rfl rfl ⟨o, mem_toList_page.mpr ⟨0, le_rfl, h0, ?_⟩, hsame⟩ ?_
      · rw [ho]
        exact List.mem_singleton_self o
      · rintro ⟨hfirst, -⟩
        exact hfull ((firstLeafFull_leaf hsh.isleaf_zero).mp hfirst)
  -- the place in the leaf: in front of the first entry, or behind the one found
  obtain ⟨hi', hhi', hplace⟩ : ∃ hi', hi' =
      (if hi = 0 ∧ c.btGetObjKey obj < nsKey c (p.child 0) then -1 else hi) ∧
      ((hi' = -1 ∧ hi = 0 ∧ c.Before obj o) ∨ (hi' = hi ∧ c.Before o obj)) := by
    refine ⟨_, rfl, ?_⟩
    by_cases hfront : hi = 0 ∧ c.btGetObjKey obj < nsKey c (p.child 0)
    · rw [if_pos hfront]
      obtain ⟨rfl, hlt⟩ := hfront
      rw [ho] at hlt
      exact Or.inl ⟨rfl, rfl, hc.before_iff.mpr hlt⟩
    · rw [if_neg hfront]
      refine Or.inr ⟨rfl, hc.before_iff.mpr ?_⟩
      by_cases hpos : 0 < hi
      · exact hlower hpos
      · obtain rfl : hi = 0 := by omega
        rw [ho] at hfront
        have hle : ¬ c.btGetObjKey obj < c.btGetObjKey o := fun h => hfront ⟨rfl, h⟩
        change c.btGetObjKey o < c.btGetObjKey obj
        omega
  rw [← hhi']
  have h₁ : -1 ≤ hi' := by omega
  have h₂ : hi' ≤ p.count := by omega
  have hcut : (hi' = -1 ∧ cat (fun i => (p.child i).toList) 0 (hi' + 1).toNat = [] ∧
        cat (fun i => (p.child i).toList) (hi' + 1) (p.count - hi').toNat = o :: upper p hi) ∨
      (hi' = hi ∧ cat (fun i => (p.child i).toList) 0 (hi' + 1).toNat = lower p hi ++ [o] ∧
        cat (fun i => (p.child i).toList) (hi' + 1) (p.count - hi').toNat = upper p hi) := by
    rcases hplace with ⟨rfl, rfl, -⟩ | ⟨rfl, -⟩
    · refine Or.inl ⟨rfl, rfl, ?_⟩
      have h := toList_eq_lower_upper p le_rfl h0
      rw [ho, toList_page] at h
      rw [show p.count - -1 = p.count + 1 by omega]
      exact h
    · refine Or.inr ⟨rfl, ?_, rfl⟩
      rw [show (hi' + 1).toNat = hi'.toNat + 1 by omega, cat_succ, Int.toNat_of_nonneg hb₁,
        Int.zero_add, ho]
      rfl
  have hold : (BTPtr.page p).toList = cat (fun i => (p.child i).toList) 0 (hi' + 1).toNat ++
      cat (fun i => (p.child i).toList) (hi' + 1) (p.count - hi').toNat := by
    have hcut := cat_split (fun i => (p.child i).toList) (show (0 : ℤ) ≤ hi' + 1 by omega)
      (show hi' + 1 ≤ p.count + 1 by omega)
    rw [toList_page]
    simpa only [Int.sub_zero, show p.count + 1 - (hi' + 1) = p.count - hi' by omega] using hcut
  have hbetween : Between c (cat (fun i => (p.child i).toList) 0 (hi' + 1).toNat) obj
      (cat (fun i => (p.child i).toList) (hi' + 1) (p.count - hi').toNat) := by
    rcases hcut with ⟨hneg, hl₁, hl₂⟩ | ⟨hpos, hl₁, hl₂⟩
    · rw [hl₁, hl₂]
      have hfirst : c.Before obj o := by
        rcases hplace with ⟨-, -, hb⟩ | ⟨heq, -⟩
        · exact hb
        · omega
      refine ⟨by simp, fun b hb => ?_⟩
      rcases List.mem_cons.mp hb with rfl | hb
      · exact hfirst
      · exact hafter b hb
    · rw [hl₁, hl₂]
      have hlast : c.Before o obj := by
        rcases hplace with ⟨hneg, -, -⟩ | ⟨-, hb⟩
        · omega
        · exact hb
      refine ⟨fun a ha => ?_, hafter⟩
      rcases List.mem_append.mp ha with ha | ha
      · exact hbefore a ha
      · rw [List.mem_singleton.mp ha]
        exact hlast
  have hfresh : ∀ j, 0 ≤ j → j ≤ p.count → nsKey c (p.child j) ≠ c.btGetObjKey obj := by
    intro j hj₁ hj₂ heq
    obtain ⟨x, hx⟩ := hsh.2 j hj₁ hj₂
    have hmem : x ∈ (BTPtr.page p).toList :=
      mem_toList_page.mpr ⟨j, hj₁, hj₂, by rw [hx]; exact List.mem_singleton_self x⟩
    rw [hx] at heq
    change c.btGetObjKey x = c.btGetObjKey obj at heq
    rw [hold] at hmem
    rcases List.mem_append.mp hmem with hmem | hmem
    · have := (hbetween.before x hmem).lt
      unfold BTConf.Lt at this
      omega
    · have := (hbetween.after x hmem).lt
      unfold BTConf.Lt at this
      omega
  have hobj : ∀ i, 0 ≤ i → i ≤ p.count →
      nsKey c (p.child i) = c.leastBase (p.child i).toList := by
    intro i hi₁ hi₂
    obtain ⟨x, hx⟩ := hsh.2 i hi₁ hi₂
    rw [hx]
    rfl
  have hexact : Exact c (.page (btInsertPage c p hi' (c.btGetObjKey obj) (.obj obj))) := by
    refine btInsertPage_exact p _ _ hready.exact trivial h₁ h₂ (fun _ => rfl) fun _ => ?_
    rw [ho₀]
    rfl
  refine nsBtPlace_outcome hc _ _ h₁ h₂ hready rfl h0 hmax hpages le_rfl
    (Or.inr ⟨o₀, ho₀⟩) hfresh (btInsertPage_shape p _ _ hsh ⟨obj, rfl⟩ h₁ h₂)
    (exact_page.mp hexact).1 hold ?_ ?_ hbetween ?_
  · rw [btInsertPage_toList p _ _ h₁ h₂]
    simp
  · rw [hfullp, hsh.isleaf_zero]
    simp
  · simp only [splitsMiddle_leaf hsh.isleaf_zero, hexact, true_and, true_iff]
    intro hf hm
    rw [btInsertPage_key p _ _ h₁ (by omega) (by omega), if_neg (by omega), if_neg (by omega),
      if_neg (by omega), Int.add_sub_cancel, hkeys _ (by omega) (by omega),
      hobj _ (by omega) (by omega)]

/-- The promoted hash lies between the keys around the child. -/
structure KeyFits (p : BTPage α) (hi : ℤ) (k : ℕ) : Prop where
  above : 0 < hi → p.key (hi - 1) < k
  below : hi < p.count → k < p.key hi

/-- A hash that fits is not read off another child, nor off the one in its place if that has been
split below it. -/
theorem KeyFits.fresh (hc : Hashed c) (hsh : Shape c (n + 1) p) (hready : Ready c obj (.page p))
    (h₁ : 0 ≤ hi) (h₂ : hi ≤ p.count) (hfits : KeyFits p hi k) {x : BTPage α} (hx : x.key 3 < k) :
    ∀ j, 0 ≤ j → j ≤ (p.setChild hi (.page x)).count →
      nsKey c ((p.setChild hi (.page x)).child j) ≠ k := by
  have h4 := hc.four
  have hne : ∀ i, 0 ≤ i → i ≤ p.count → (p.child i).toList ≠ [] :=
    fun i => hsh.child_ne_nil (by omega)
  have hkeys := (exact_page.mp hready.exact).1
  have hsorted := sorted_of_ready hready
  intro j hj₁ hj₂
  rw [PageOf.setChild_count] at hj₂
  by_cases hj : j = hi
  · rw [hj, PageOf.setChild_child_self]
    exact Nat.ne_of_lt hx
  rw [PageOf.setChild_child_ne _ hj]
  obtain ⟨o, ho, hkey⟩ := exists_nsKey hc ((shape_iff.mp hsh).2 j hj₁ hj₂)
    ((exact_page.mp hready.exact).2 j hj₁ hj₂)
  rw [hkey]
  rcases lt_or_gt_of_ne hj with hlt | hgt
  · obtain ⟨b, hb, hleast⟩ := BTConf.exists_leastBase (c := c) (hne hi h₁ h₂)
    have hob : c.btGetObjKey o < c.btGetObjKey b := lt_of_mem_child hsorted hj₁ hlt h₂ ho hb
    have habove := hfits.above (by omega)
    rw [hkeys (hi - 1) (by omega) (by omega), Int.sub_add_cancel, hleast] at habove
    omega
  · have hbelow := hfits.below (by omega)
    rw [hkeys hi h₁ (by omega)] at hbelow
    have hle : c.leastBase (p.child (hi + 1)).toList ≤ c.btGetObjKey o := by
      rcases (show j = hi + 1 ∨ hi + 1 < j by omega) with rfl | hlt
      · exact BTConf.leastBase_le (pairwise_child hsorted hj₁ hj₂) ho
      · obtain ⟨b, hb, hleast⟩ := BTConf.exists_leastBase (c := c)
          (hne (hi + 1) (by omega) (by omega))
        rw [hleast]
        exact Nat.le_of_lt (lt_of_mem_child hsorted (by omega) hlt hj₂ hb ho)
    omega

/-- The hash of an entry of the child found fits below. -/
theorem key_lt_of_mem_child (hc : Hashed c) (hsh : Shape c (n + 1) p)
    (hready : Ready c obj (.page p)) (h₁ : 0 ≤ hi) {o : α} (ho : o ∈ (p.child hi).toList)
    (hlt : hi < p.count) : c.btGetObjKey o < p.key hi := by
  have h4 := hc.four
  obtain ⟨b, hb, hkey⟩ := hready.exists_key hc.odd hsh h₁ hlt
  rw [hkey]
  exact lt_of_mem_child (sorted_of_ready hready) h₁ (by omega) (by omega) ho hb

/-- What is promoted fits. -/
theorem fits_of_promoted (hc : Hashed c) (hsh : Shape c (n + 1) p)
    (hready : Ready c obj (.page p)) (h₁ : 0 ≤ hi) (h₂ : hi ≤ p.count) {x q₁ q₂ : BTPage α}
    (hx : p.child hi = .page x)
    (hle : 0 < hi → p.key (hi - 1) ≤ c.btGetObjKey obj)
    (hlt : hi < p.count → c.btGetObjKey obj < p.key hi) {l₁ l₂ : List α}
    (hold : (BTPtr.page x).toList = l₁ ++ l₂) (hbetween : Between c l₁ obj l₂)
    (hnew : (BTPtr.page q₁).toList ++ (BTPtr.page q₂).toList = l₁ ++ obj :: l₂)
    (hne₁ : (BTPtr.page q₁).toList ≠ []) (hne₂ : (BTPtr.page q₂).toList ≠ [])
    (hk : k = c.leastBase (BTPtr.page q₂).toList) : KeyFits p hi k := by
  obtain ⟨b, hb, hleast⟩ := BTConf.exists_leastBase (c := c) hne₂
  rw [hleast] at hk
  refine ⟨fun hpos => ?_, fun hlast => ?_⟩
  · obtain ⟨a, ha, hfirst⟩ := BTConf.exists_leastBase (c := c) hne₁
    have hsorted : (l₁ ++ obj :: l₂).Pairwise c.Lt := by
      refine pairwise_lt_of_between hc hbetween ?_
      rw [← hold, ← hx]
      exact (hready.child h₁ h₂).sorted
    rw [← hnew] at hsorted
    have hab : c.btGetObjKey a < c.btGetObjKey b :=
      (List.pairwise_append.mp hsorted).2.2 a ha b hb
    have hkeep := hready.leastBase_child hc.odd hsh h₁ h₂ hx hle hold hbetween hnew hne₁ hpos
    rw [(exact_page.mp hready.exact).1 (hi - 1) (by omega) (by omega), Int.sub_add_cancel,
      ← hkeep, hfirst, hk]
    exact hab
  · have hmem : b ∈ l₁ ++ obj :: l₂ := by
      rw [← hnew]
      exact List.mem_append_right _ hb
    rw [hk]
    rcases List.mem_append.mp hmem with hmem | hmem
    · refine key_lt_of_mem_child hc hsh hready h₁ ?_ hlast
      rw [hx, hold]
      exact List.mem_append_left _ hmem
    · rcases List.mem_cons.mp hmem with rfl | hmem
      · exact hlt hlast
      · refine key_lt_of_mem_child hc hsh hready h₁ ?_ hlast
        rw [hx, hold]
        exact List.mem_append_right _ hmem

/-- The call below has lost the entry, and split its page. -/
theorem nsBtPlace_lost_node (hc : Hashed c) (hsh : Shape c (n + 1) p) (h0 : 0 ≤ p.count)
    (hmax : p.count ≤ c.btMaxkey) (hready : Ready c obj (.page p)) (hpages : 0 < pages')
    (hle : pages ≤ pages' + (n + 1)) (hfirst : AtFullLeaf c obj (.page p)) {x : BTPage α}
    (hx : x.key 3 < k) {o : α} (ho : o ∈ (p.child 0).toList) (hk : k = c.btGetObjKey o) :
    NsInsOutcome c (n + 1) obj pages p
      (nsBtPlace c pages' (p.setChild 0 (.page x)) 0 k q) := by
  have h4 := hc.four
  have hmM := hc.odd.bounds
  have hkeys := (exact_page.mp hready.exact).1
  have hfits : KeyFits p 0 k := by
    refine ⟨fun h => absurd h (lt_irrefl _), fun hlt => ?_⟩
    rw [hk]
    exact key_lt_of_mem_child hc hsh hready le_rfl ho hlt
  rcases nsBtPlace_cases (p := p.setChild 0 (.page x)) (q := q) hc.odd hpages (by omega) h0 h0 hmax
    (Or.inl le_rfl) (hfits.fresh hc hsh hready le_rfl h0 hx) with
    ⟨-, hr⟩ | ⟨hfull, l, kmed, r, hr, hsplit⟩
  · rw [hr]
    exact .lost hfirst (by dsimp only; omega) (Or.inl rfl)
  · rw [PageOf.setChild_count] at hfull
    have hkey : l.key 3 = p.key 2 := by
      have h := hsplit.left.key 3 (by omega) (by omega)
      dsimp only at h
      rw [h, btInsertPage_key _ _ _ (by omega) (by omega) (by rw [PageOf.setChild_count]; omega),
        if_neg (by omega), if_neg (by omega), if_neg (by omega)]
      rfl
    have hkmed : kmed = p.key (c.btMinkey - 1) := by
      have h := hsplit.kmed
      dsimp only at h
      rw [h, btInsertPage_key _ _ _ (by omega) (by omega) (by rw [PageOf.setChild_count]; omega),
        if_neg (by omega), if_neg (by omega), if_neg (by omega)]
      rfl
    rw [hr]
    refine .lost hfirst (by dsimp only; omega) (Or.inr ⟨rfl, l, rfl, ?_, ?_⟩)
    · rw [hkey, hkmed]
      exact hkeys.key_lt_key (fun i => hsh.child_ne_nil (by omega)) (sorted_of_ready hready)
        (by omega) (by omega) (by omega)
    · obtain ⟨y, hy, hky⟩ := hready.exists_key hc.odd hsh (show 0 ≤ c.btMinkey - 1 by omega)
        (by omega)
      exact ⟨y, mem_toList_page.mpr ⟨_, by omega, by omega, hy⟩, hkmed.trans hky⟩

/-- The call below has split its page. -/
theorem nsBtPlace_promoted (hc : Hashed c) (hsh : Shape c (n + 1) p)
    (hready : Ready c obj (.page p)) (h₁ : 0 ≤ hi) (h₂ : hi ≤ p.count)
    (hmax : p.count ≤ c.btMaxkey) (hpages : 0 < pages') (hpages_le : pages ≤ pages' + (n + 1))
    {x : BTPage α} (hx : p.child hi = .page x)
    (hle : 0 < hi → p.key (hi - 1) ≤ c.btGetObjKey obj)
    (hlt : hi < p.count → c.btGetObjKey obj < p.key hi)
    {q₁ q₂ : BTPage α} {l₁ l₂ : List α} (hs₁ : Shape c n q₁) (hs₂ : Shape c n q₂)
    (hc₁ : q₁.count = c.btMinkey) (hc₂ : q₂.count = c.btMinkey)
    (hold : (BTPtr.page x).toList = l₁ ++ l₂)
    (hnew : (BTPtr.page q₁).toList ++ (BTPtr.page q₂).toList = l₁ ++ obj :: l₂)
    (hfourth : q₁.key 3 < k) (hk : k = c.leastBase (BTPtr.page q₂).toList)
    (hsplits : splits c (c.btGetObjKey obj) (.page p) = true ↔ p.count = c.btMaxkey)
    (hbetween : Between c l₁ obj l₂) (hall : Between c (lower p hi ++ l₁) obj (l₂ ++ upper p hi))
    (hmiddle : splitsMiddle c (c.btGetObjKey obj) (.page p) = false ↔
      (Exact c (.page q₁) ∧ Exact c (.page q₂)) ∧ (p.count = c.btMaxkey → hi ≠ c.btMinkey)) :
    NsInsOutcome c (n + 1) obj pages p
      (nsBtPlace c pages' (p.setChild hi (.page q₁)) hi k (.page q₂)) := by
  have h4 := hc.four
  have hmM := hc.odd.bounds
  have hne₁ : (BTPtr.page q₁).toList ≠ [] := hs₁.toList_ne_nil (by omega) (by omega)
  have hne₂ : (BTPtr.page q₂).toList ≠ [] := hs₂.toList_ne_nil (by omega) (by omega)
  have hfits := fits_of_promoted hc hsh hready h₁ h₂ hx hle hlt hold hbetween hnew hne₁ hne₂ hk
  have hp₁ : Shape c (n + 1) (p.setChild hi (.page q₁)) :=
    hsh.setChild hi ⟨q₁, rfl, hs₁, by omega, by omega⟩
  have hkeys₁ : Keys c (p.setChild hi (.page q₁)) :=
    (exact_page.mp hready.exact).1.setChild fun hpos _ =>
      hready.leastBase_child hc.odd hsh h₁ h₂ hx hle hold hbetween hnew hne₁ hpos
  have hexact := Ready.exact_promoted_iff hc.odd hsh hready h₁ h₂ hx hle hold hbetween hnew hne₁
    fun _ _ => hk
  refine nsBtPlace_outcome hc (lower p hi ++ l₁) (l₂ ++ upper p hi) (by omega) h₂ hready rfl
    (by omega) hmax hpages hpages_le (Or.inl h₁) (hfits.fresh hc hsh hready h₁ h₂ hfourth)
    (btInsertPage_shape _ _ _ hp₁ ⟨q₂, rfl, hs₂, by omega, by omega⟩ (by omega) h₂)
    (btInsertPage_keys _ _ _ hkeys₁ (by omega) h₂ (fun _ => hk) (by omega)) ?_ ?_ hsplits hall ?_
  · rw [toList_eq_lower_upper p h₁ h₂, hx, hold]
    simp
  · exact promoted_toList h₁ h₂ k hnew
  · rw [hmiddle, hexact]
    refine and_congr_right fun _ => forall_congr' fun hf => ?_
    -- the page in the middle does not start with its fourth key
    obtain ⟨y, hy, hsy, hmin, -⟩ := hsh.2 (c.btMinkey + 1) (by omega) (by omega)
    have hchild := hready.child (show 0 ≤ c.btMinkey + 1 by omega) (by omega)
    rw [hy] at hchild
    have hgt := leastBase_lt_nsKey hc hsy hmin hchild.exact (sorted_of_ready hchild)
    constructor
    · exact fun hm hm' => absurd hm' hm
    · intro hread hm
      have hread := hread hm
      rw [btInsertPage_key _ _ _ (by omega) (by omega) (by rw [PageOf.setChild_count]; omega),
        if_neg (by omega), if_neg (by omega), if_neg (by omega), Int.add_sub_cancel,
        PageOf.setChild_child_ne _ (by omega), PageOf.setChild_key, hy,
        (exact_page.mp hready.exact).1 _ (by omega) (by omega), hy] at hread
      omega

/-- **`BTInsert` in an index page.** -/
theorem nsBtInsert_node (hc : Hashed c) (hsh : Shape c (n + 1) p) (h0 : 0 ≤ p.count)
    (hmax : p.count ≤ c.btMaxkey) (hready : Ready c obj (.page p)) (hpages : n + 1 < pages)
    (ih : ∀ q : BTPage α, Shape c n q → 0 ≤ q.count → q.count ≤ c.btMaxkey →
      Ready c obj (.page q) → NsInsOutcome c n obj pages q (nsBtInsert c obj pages (.page q))) :
    NsInsOutcome c (n + 1) obj pages p (nsBtInsert c obj pages (.page p)) := by
  obtain ⟨hb₁, hb₂⟩ := PageOf.search_bounds p (c.btGetObjKey obj) h0
  have h4 := hc.four
  have hmM := hc.odd.bounds
  have hbefore := hready.before_lower hc.odd hsh h0
  have hafter := before_upper_of_ready hc hsh h0 hready
  have hsearch := hready.search hc.odd hsh h0
  have hsorted := sorted_of_ready hready
  have hkeys := (exact_page.mp hready.exact).1
  have hfullp := splits_page (c := c) p (c.btGetObjKey obj)
  have hmidp := splitsMiddle_page (c := c) hsh.isleaf_succ (c.btGetObjKey obj)
  have hfirst := firstLeafFull_page (c := c) hsh.isleaf_succ
  have hleast := hsh.leastBase_page (show 0 ≤ c.btMinkey by omega) h0
  rw [nsBtInsert_page]
  dsimp only
  generalize p.search (c.btGetObjKey obj) = s at *
  obtain ⟨hi, found⟩ := s
  dsimp only at *
  by_cases hfound : found = true
  · rw [if_pos hfound]
    obtain ⟨hpos, hkey⟩ := hsearch.2.2.mp hfound
    obtain ⟨o, ho, hko⟩ := hready.exists_key hc.odd hsh (show 0 ≤ hi - 1 by omega) (by omega)
    have hlt := leastBase_lt_of_mem hc hsh hsorted (show 0 < hi - 1 + 1 by omega) (by omega) ho
    have hdup : c.btGetObjKey o = c.btGetObjKey obj := hko.symm.trans hkey
    refine .refused rfl rfl ⟨o, mem_toList_page.mpr ⟨_, by omega, by omega, ho⟩, hdup⟩ ?_
    rintro ⟨-, heq⟩
    omega
  rw [if_neg hfound, if_neg (by rw [hsh.isleaf_succ]; simp)]
  obtain ⟨x, hx, hxsh, hxmin, hxmax⟩ := hsh.2 hi hb₁ hb₂
  have hlist : (BTPtr.page p).toList = lower p hi ++ (BTPtr.page x).toList ++ upper p hi := by
    rw [← hx]
    exact toList_eq_lower_upper p hb₁ hb₂
  have hchild : Ready c obj (.page x) := by
    have := hready.child hb₁ hb₂
    rwa [hx] at this
  rw [hx] at hfullp hmidp ⊢
  rw [hsh.isleaf_succ] at hfullp
  cases ih x hxsh (by omega) hxmax hchild with
  | refused ret current dup first =>
    rw [if_neg (by rw [ret]; decide)]
    obtain ⟨o, ho, hdup⟩ := dup
    refine .refused ret ?_ ⟨o, by rw [hlist]; simp [ho], hdup⟩ ?_
    · dsimp only
      rw [current, ← hx]
      exact congrArg BTPtr.page (by unfold PageOf.setChild; rw [Function.update_eq_self])
    · rintro ⟨hff, heq⟩
      by_cases hpos : 0 < hi
      · have hlt := leastBase_lt_of_mem hc hsh hsorted hpos hb₂ (by rw [hx]; exact ho)
        omega
      · obtain rfl : hi = 0 := by omega
        rw [hx] at hfirst hleast
        exact first ⟨hfirst ▸ hff, hleast.symm.trans heq⟩
  | lost first pages_le done =>
    -- the least hash is that of the first child
    obtain rfl : hi = 0 := by
      by_contra hne
      have hkey := hkeys (hi - 1) (by omega) (by omega)
      rw [Int.sub_add_cancel, hx, first.2] at hkey
      exact hfound (hsearch.2.2.mpr ⟨by omega, hkey⟩)
    rw [hx] at hfirst hleast
    have hat : AtFullLeaf c obj (.page p) := ⟨hfirst.trans first.1, hleast.trans first.2⟩
    rcases done with hok | ⟨hprom, y, hcur, hfourth, o, ho, hkey⟩
    · rw [if_neg (by rw [hok]; decide)]
      exact .lost hat (by dsimp only; omega) (Or.inl hok)
    · rw [if_pos hprom, hcur]
      exact nsBtPlace_lost_node hc hsh h0 hmax hready (by omega) (by omega) hat hfourth
        (by rw [hx]; exact ho) hkey
  | placed q l₁ l₂ ret current shape count_le count_max old new full between exact_iff =>
    rw [if_neg (by rw [ret]; decide)]
    have hset := toList_setChild p hb₁ hb₂ (BTPtr.page q)
    refine .placed (p.setChild hi (.page q)) (lower p hi ++ l₁) (l₂ ++ upper p hi) ret
      (by rw [current]) (hsh.setChild hi ⟨q, rfl, shape, by omega, count_max⟩) le_rfl hmax
      (by rw [hlist, old]; simp) (by rw [hset, new]; simp [lower, upper]) ?_
      (between.append hbefore hafter) ?_
    · rw [← Bool.not_eq_true, hfullp, full]
      simp
    · have hmid : splitsMiddle c (c.btGetObjKey obj) (.page p) = false ↔
          splitsMiddle c (c.btGetObjKey obj) (.page x) = false := by
        rw [← Bool.not_eq_true, ← Bool.not_eq_true, hmidp, full]
        simp
      rw [hmid, ← exact_iff]
      constructor
      · intro hex
        have := (exact_page.mp hex).2 hi hb₁ hb₂
        rwa [PageOf.setChild_child_self] at this
      · intro hex
        exact hready.exact_setChild hc.odd hsh hb₁ hb₂ hx hsearch.1 old between
          ((List.append_nil _).trans new) (by rw [new]; simp) hex
  | promoted q₁ q₂ l₁ l₂ ret pages_le current ppromoted shape shape' count count' old new full
      between exact_iff kpromoted fourth =>
    rw [if_pos ret, current, ppromoted]
    refine nsBtPlace_promoted hc hsh hready hb₁ hb₂ hmax (by omega) (by omega) hx hsearch.1
      hsearch.2.1 shape shape' count count' old new fourth kpromoted ?_ between
      (between.append hbefore hafter) ?_
    · rw [hfullp, full]
      simp
    · rw [exact_iff, ← Bool.not_eq_true, hmidp, full, ← Bool.not_eq_true]
      constructor
      · intro hno
        exact ⟨fun hmid => hno (Or.inl hmid), fun hf hm => hno (Or.inr ⟨hf, rfl, hm⟩)⟩
      · rintro ⟨hno, hne⟩ (hmid | ⟨hf, -, hm⟩)
        · exact hno hmid
        · exact hne hf hm

/-- **One call of `BTInsert`**, on a page with any number of levels below it. -/
theorem nsBtInsert_outcome (hc : Hashed c) (obj : α) : ∀ {n : ℕ} (p : BTPage α), Shape c n p →
    0 ≤ p.count → p.count ≤ c.btMaxkey → Ready c obj (.page p) → ∀ {pages : ℕ}, n < pages →
      NsInsOutcome c n obj pages p (nsBtInsert c obj pages (.page p)) := by
  intro n
  induction n with
  | zero => exact fun p hsh h0 hmax hready _ hpages => nsBtInsert_leaf hc hsh h0 hmax hready hpages
  | succ n ih =>
    intro p hsh h0 hmax hready pages hpages
    exact nsBtInsert_node hc hsh h0 hmax hready hpages fun q hq hq0 hqmax hqr =>
      ih q hq hq0 hqmax hqr (by omega)

end Page

/-! ### The whole tree -/

section Whole
variable {t : NsTree α} {obj o : α} {res : BTRet × NsTree α} {pages : ℕ}

theorem nsBtIns_page (t : NsTree α) (obj : α) (pages : ℕ) {p : BTPage α}
    (hroot : t.root = .page p) :
    nsBtIns c t obj pages =
      (let r := nsBtInsert c obj pages (.page p)
      let t := { t with root := r.current }
      if r.ret = .promotion then
        match r.pages with
        | 0 => (.allocFail, t)
        | _ + 1 =>
          (.ok, { depth := t.depth + 1,
                  root := .page (rootOver 0 r.current r.ppromoted r.kpromoted) })
      else (r.ret, t)) := by
  obtain ⟨root, depth⟩ := t
  dsimp only at hroot
  subst hroot
  rfl

/-- **`BTSearch` finds every entry of a well-formed tree.** -/
theorem nsBtSearch_found (hc : Hashed c) (ht : t.WF c) (ho : o ∈ t.toList) :
    nsBtSearch c t (c.btGetObjKey o) = (.ok, some o) := by
  obtain ⟨hshaped, hexact, hsorted⟩ := ht
  obtain ⟨root, depth⟩ := t
  cases root with
  | null => exact absurd ho List.not_mem_nil
  | obj x => exact hshaped.elim
  | page p =>
    obtain ⟨n, -, hsh, h0, -⟩ := hshaped
    obtain ⟨l₁, x, l₂, hlist, hfind, hle, hgt⟩ :=
      btSearchPage_last hc.odd (c.btGetObjKey o) hsh h0 hexact hsorted
    change o ∈ (BTPtr.page p).toList at ho
    change (BTPtr.page p).toList.Pairwise c.Lt at hsorted
    rw [hlist] at ho hsorted
    have hox : x = o := by
      rcases List.mem_append.mp ho with ho | ho
      · have hlt : c.btGetObjKey o < c.btGetObjKey x :=
          (List.pairwise_append.mp hsorted).2.2 o ho x List.mem_cons_self
        have := hle (List.ne_nil_of_mem ho)
        omega
      · rcases List.mem_cons.mp ho with rfl | ho
        · rfl
        · exact absurd (hgt o ho) (lt_irrefl _)
    have hmatch : c.btObjMatch o (c.btGetObjKey o) = true := by
      rw [btObjMatch_iff, hc.lim]
      omega
    unfold nsBtSearch
    dsimp only
    rw [hfind, hox]
    dsimp only
    rw [if_pos hmatch]

theorem ready_of_wf (hc : Hashed c) (ht : t.WF c) (obj : α) : Ready c obj t.root := by
  refine ⟨ht.exact, ht.sorted.imp fun h => hc.before_iff.mpr h, fun o _ => ?_, ?_⟩
  · unfold BTConf.Proper
    rw [hc.lim]
    exact Nat.lt_succ_self _
  · unfold BTConf.Proper
    rw [hc.lim]
    exact Nat.lt_succ_self _

/-- Where nothing stands in the way of a new entry. -/
def Inserts (c : BTConf α) (t : NsTree α) (obj : α) : Prop :=
  ¬ AtFullLeaf c obj t.root ∧ ¬ (splitsMiddle c (c.btGetObjKey obj) t.root = true ∧
    ∀ o ∈ t.toList, c.btGetObjKey o ≠ c.btGetObjKey obj)

/-- The entry with the least hash is one with the hash. -/
theorem AtFullLeaf.exists_mem (h : AtFullLeaf c obj t.root) (hc : Hashed c) (ht : t.WF c) :
    ∃ o ∈ t.toList, c.btGetObjKey o = c.btGetObjKey obj := by
  obtain ⟨hshaped, -, -⟩ := ht
  obtain ⟨root, depth⟩ := t
  cases root with
  | null => exact absurd h.1 (by simp [firstLeafFull])
  | obj x => exact hshaped.elim
  | page p =>
    obtain ⟨n, -, hsh, h0, -⟩ := hshaped
    have hmM := hc.odd.bounds
    obtain ⟨o, ho, hleast⟩ := BTConf.exists_leastBase (c := c) (hsh.toList_ne_nil (by omega) h0)
    exact ⟨o, ho, hleast.symm.trans h.2⟩

/-- An entry that is in: all is well if the keys are right. -/
theorem nsInsSpec_iff_of_inserted (hc : Hashed c) (ht : t.WF c) (l₁ l₂ : List α) (ret : res.1 = .ok)
    (shaped : res.2.Shaped c) (old : t.toList = l₁ ++ l₂) (new : res.2.toList = l₁ ++ obj :: l₂)
    (between : Between c l₁ obj l₂)
    (exact_iff : Exact c res.2.root ↔ splitsMiddle c (c.btGetObjKey obj) t.root = false) :
    NsInsSpec c t obj res ↔ Inserts c t obj := by
  have hno : ∀ o ∈ t.toList, c.btGetObjKey o ≠ c.btGetObjKey obj := by
    intro o ho
    rw [old] at ho
    rcases List.mem_append.mp ho with ho | ho
    · exact Nat.ne_of_lt (between.before o ho).lt
    · exact Nat.ne_of_gt (between.after o ho).lt
  have hleaf : ¬ AtFullLeaf c obj t.root := by
    intro h
    obtain ⟨o, ho, hkey⟩ := h.exists_mem hc ht
    exact hno o ho hkey
  have hsorted : res.2.toList.Pairwise c.Lt := by
    rw [new]
    refine pairwise_lt_of_between hc between ?_
    rw [← old]
    exact (ready_of_wf hc ht obj).sorted
  have hne : res.1 ≠ .duplicate := by
    rw [ret]
    decide
  have hiff : Inserts c t obj ↔ Exact c res.2.root := by
    rw [exact_iff]
    unfold Inserts
    rw [and_iff_right hleaf, and_iff_left hno, Bool.not_eq_true]
  rw [hiff]
  constructor
  · exact fun h => (h.wf hne).exact
  · intro hexact
    have hwf : res.2.WF c := ⟨shaped, hexact, hsorted⟩
    refine ⟨iff_of_false hne fun ⟨o, ho, hkey⟩ => hno o ho hkey, fun h => absurd h hne,
      fun _ => ret, fun _ => ⟨l₁, l₂, old, new⟩, fun _ => hwf, fun _ o ho => ?_⟩
    refine nsBtSearch_found hc hwf ?_
    rw [new]
    rw [old] at ho
    simp only [List.mem_append, List.mem_cons] at ho ⊢
    tauto

/-- **When insertion into a directory's tree is right**: unless the entry has the least hash and the
first leaf is full, or is new and an index page is split with the promoted child between its
halves. -/
theorem nsBtIns_spec_iff (hash : α → ℕ) {t : NsTree α} (ht : t.WF (nsConf hash)) (obj : α)
    {pages : ℕ} (hpages : t.depth < pages) :
    NsInsSpec (nsConf hash) t obj (nsBtIns (nsConf hash) t obj pages) ↔
      Inserts (nsConf hash) t obj := by
  have hc := nsConf_hashed hash
  have hmM := hc.odd.bounds
  have hready := ready_of_wf hc ht obj
  generalize nsConf hash = c at *
  have hshaped := ht.shaped
  unfold NsTree.Shaped at hshaped
  cases hroot : t.root with
  | obj x =>
    rw [hroot] at hshaped
    exact hshaped.elim
  | null =>
    rw [hroot] at hshaped
    obtain ⟨pages, rfl⟩ := Nat.exists_eq_succ_of_ne_zero (show pages ≠ 0 by omega)
    have hnil : t.toList = [] := by
      unfold NsTree.toList
      rw [hroot]
      rfl
    have hres : nsBtIns c t obj (pages + 1) =
        (.ok, { depth := 1, root := .page ((newRoot 0 0 true).setChild 0 (.obj obj)) }) := by
      unfold nsBtIns
      rw [hroot]
    rw [Nat.succ_eq_add_one, hres]
    refine nsInsSpec_iff_of_inserted hc ht [] [] rfl
      ⟨0, rfl, ⟨rfl, fun i h₁ h₂ => ?_⟩, le_rfl, ?_, by rintro ⟨⟩⟩ hnil rfl ⟨by simp, by simp⟩ ?_
    · change i ≤ 0 at h₂
      obtain rfl : i = 0 := by omega
      exact ⟨obj, rfl⟩
    · change 0 ≤ c.btMaxkey
      omega
    · rw [hroot]
      refine ⟨fun _ => rfl, fun _ => ⟨fun i h₁ h₂ => ?_, fun i h₁ h₂ => ?_⟩⟩
      · change i < 0 at h₂
        omega
      · change i ≤ 0 at h₂
        obtain rfl : i = 0 := by omega
        trivial
  | page p =>
    rw [hroot] at hshaped hready
    obtain ⟨n, hdepth, hsh, h0, hmax, hpos⟩ := hshaped
    have hlist : t.toList = (BTPtr.page p).toList := by
      unfold NsTree.toList
      rw [hroot]
    have hn : n < pages := by omega
    rw [nsBtIns_page t obj pages hroot]
    dsimp only
    cases nsBtInsert_outcome hc obj p hsh h0 hmax hready hn with
    | refused ret current dup first =>
      rw [if_neg (by rw [ret]; decide), current, ret]
      rw [← hlist] at dup
      have hsame : ({ t with root := .page p } : NsTree α) = t := by rw [← hroot]
      rw [hsame]
      refine iff_of_true ⟨iff_of_true rfl dup, fun _ => rfl, fun h => absurd rfl h,
        fun h => absurd rfl h, fun h => absurd rfl h, fun h => absurd rfl h⟩ ⟨?_, ?_⟩
      · rw [hroot]
        exact first
      · rintro ⟨-, hno⟩
        obtain ⟨o, ho, hkey⟩ := dup
        exact hno o ho hkey
    | lost first pages_le done =>
      rw [← hroot] at first
      have hret : ∀ res : BTRet × NsTree α, res.1 = .ok →
          (NsInsSpec c t obj res ↔ Inserts c t obj) := fun res ret =>
        iff_of_false (fun h => by
          have hdup := h.duplicate_iff.mpr (first.exists_mem hc ht)
          rw [ret] at hdup
          cases hdup) fun h => h.1 first
      rcases done with ret | ⟨ret, -⟩
      · rw [if_neg (by rw [ret]; decide)]
        exact hret _ ret
      · obtain ⟨left, hleft⟩ := Nat.exists_eq_succ_of_ne_zero
          (show (nsBtInsert c obj pages (.page p)).pages ≠ 0 by omega)
        rw [if_pos ret, hleft]
        exact hret _ rfl
    | placed q l₁ l₂ ret current shape count_le count_max old new full between exact_iff =>
      rw [if_neg (by rw [ret]; decide), current]
      refine nsInsSpec_iff_of_inserted hc ht l₁ l₂ ret
        ⟨n, hdepth, shape, by omega, count_max, by omega⟩ (hlist.trans old) new between ?_
      rw [hroot]
      exact exact_iff
    | promoted q q' l₁ l₂ ret pages_le current ppromoted shape shape' count count' old new full
        between exact_iff kpromoted fourth =>
      obtain ⟨left, hleft⟩ := Nat.exists_eq_succ_of_ne_zero
        (show (nsBtInsert c obj pages (.page p)).pages ≠ 0 by omega)
      rw [if_pos ret, hleft, current, ppromoted]
      refine nsInsSpec_iff_of_inserted hc ht l₁ l₂ rfl ⟨n + 1, ?_,
        rootOver_shape _ _ hc.odd shape shape' count count', Int.one_nonneg, ?_, fun _ => le_rfl⟩
        (hlist.trans old) ((rootOver_toList _ _ _ _).trans new) between ?_
      · dsimp only
        rw [hdepth]
        push_cast
        rfl
      · change 1 ≤ c.btMaxkey
        omega
      · rw [hroot, ← exact_iff]
        exact rootOver_exact_iff _ _ fun _ _ => kpromoted

end Whole

/-! ### A full leaf -/

/-- The even numbers below 510, in one leaf. -/
def evenLeaf : NsTree ℕ where
  root := .page ⟨0, 254, true, fun i => 2 * (i.toNat + 1), fun i => .obj (2 * i.toNat)⟩
  depth := 1

theorem evenLeaf_wf : evenLeaf.WF (nsConf id) := by
  refine ⟨⟨0, rfl, ⟨rfl, fun _ _ _ => ⟨_, rfl⟩⟩, by decide, by decide, by rintro ⟨⟩⟩,
    ⟨fun i h₁ _ => ?_, fun _ _ _ => trivial⟩, ?_⟩
  · change 2 * (i.toNat + 1) = 2 * (i + 1).toNat
    omega
  · change List.Pairwise (fun a b : ℕ => a < b) _
    decide +kernel

/-- An odd number goes in; the leaf is split. -/
theorem nsBtIns_spec_evenLeaf :
    NsInsSpec (nsConf id) evenLeaf 1 (nsBtIns (nsConf id) evenLeaf 1 2) :=
  (nsBtIns_spec_iff id evenLeaf_wf 1 (by decide)).mpr
    ⟨fun h => absurd h.2 (by decide +kernel), fun h => absurd h.1 (by decide +kernel)⟩

/-- **Zero is there already, and is said to be inserted.** -/
theorem nsBtIns_not_spec : evenLeaf.WF (nsConf id) ∧ evenLeaf.depth < (2 : ℕ) ∧
    ¬ NsInsSpec (nsConf id) evenLeaf 0 (nsBtIns (nsConf id) evenLeaf 0 2) := by
  refine ⟨evenLeaf_wf, by decide, fun h => ?_⟩
  have hret : (nsBtIns (nsConf id) evenLeaf 0 2).1 = .ok := by
    decide +kernel
  have hdup : (nsBtIns (nsConf id) evenLeaf 0 2).1 = .duplicate :=
    h.duplicate_iff.mpr ⟨0, mem_toList_page.mpr ⟨0, le_rfl, by decide, List.mem_singleton_self 0⟩,
      rfl⟩
  rw [hret] at hdup
  cases hdup

end Mungi.Naming
