import Mungi.BTree.Shape

/-!
# Insertion into the object table

`BTIns` looks for the leaf an object belongs to, refuses it when it meets an
object it passes on the way, places it, and splits full pages on the way back
up.  The split of a page is described through the page that would have resulted
had there been room: both halves are runs of it, except for one key that
`BTInsertPage` reads out of the wrong kind of record.

## Main definitions

* `btInsertPage`, `btSplit`, `btInsert`, `btIns` — the functions of `btree.c`.

## Main results

* `btInsertPage_toList`, `btInsertPage_exact` — the page with one more child.
* `btSplit_spec` — the two halves of a split.
-/

namespace Mungi

open Cat ForLoop

variable {α : Type} {c : BTConf α}

/-! ### The code -/

/-- The body of the loop of `BTInsertPage`. -/
def makeRoom (i : ℤ) (p : BTPage α) : BTPage α :=
  { p with
    key := Function.update p.key (i + 1) (p.key i)
    child := Function.update p.child (i + 2) (p.child (i + 1)) }

/-- `BTInsertPage` -/
def btInsertPage (c : BTConf α) (current : BTPage α) (hi : ℤ) (kpromoted : ℕ)
    (ppromoted : BTPtr α) : BTPage α :=
  let s := forDown makeRoom (max hi 0) (current.count - max hi 0).toNat current
  let s :=
    if hi < 0 then
      -- the old first child is taken for an object here, also in an index page
      { s with
        key := Function.update s.key 0 (c.ptrKey (s.child 0))
        child := Function.update (Function.update s.child 1 (s.child 0)) 0 ppromoted }
    else
      { s with
        key := Function.update s.key hi kpromoted
        child := Function.update s.child (hi + 1) ppromoted }
  { s with count := s.count + 1 }

/-- The start of a split in `BTInsert`: `current` cut to its share of the keys,
the number of keys left for the new page, and the median key. -/
def splitCut (c : BTConf α) (current : BTPage α) (hi : ℤ) (kpromoted : ℕ) :
    BTPage α × ℤ × ℕ :=
  let m := c.btMinkey
  if hi < m then
    ({ current with count := m - 1, key := Function.update current.key (m - 1) 0 },
      c.btMaxkey - m, current.key (m - 1))
  else if hi = m then
    ({ current with count := m }, c.btMaxkey - m - 1, kpromoted)
  else
    ({ current with count := m, key := Function.update current.key m 0 },
      c.btMaxkey - m - 1, current.key m)

/-- The body of the first loop of a split: `i` counts the keys of the new page, and
`j + i` those of the old one. -/
def splitStep (j i : ℤ) (s : BTPage α × BTPage α) : BTPage α × BTPage α :=
  ({ s.1 with
      key := Function.update s.1.key (i + j) 0
      child := Function.update s.1.child (i + (j + 1)) .null },
    { s.2 with
      key := Function.update s.2.key i (s.1.key (i + j))
      child := Function.update s.2.child (i + 1) (s.1.child (i + (j + 1))) })

/-- The body of the second loop of a split. -/
def clearStep (i : ℤ) (p : BTPage α) : BTPage α :=
  { p with
    key := Function.update p.key i 0
    child := Function.update p.child (i + 1) .null }

/-- The loops of a split: the keys from `current->count + 1` on and the children
around them move to the new page, whose other places are cleared. -/
def splitMove (c : BTConf α) (current : BTPage α) (idx : ℕ) (count : ℤ) : BTPage α × BTPage α :=
  let j := current.count + 1
  let newpage : BTPage α :=
    { idx, count, isleaf := current.isleaf, key := fun _ => 0,
      child := Function.update (fun _ => .null) 0 (current.child j) }
  let s := forUp (splitStep j) 0 count.toNat (current.setChild j .null, newpage)
  (s.1, forUp clearStep count (c.btMaxkey - count).toNat s.2)

/-- The split of a full page in `BTInsert`: the old page, the median key and the
new page. -/
def btSplit (c : BTConf α) (current : BTPage α) (idx : ℕ) (hi : ℤ) (kpromoted : ℕ)
    (ppromoted : BTPtr α) : BTPage α × ℕ × BTPage α :=
  let cut := splitCut c current hi kpromoted
  let s := splitMove c cut.1 idx cut.2.1
  if hi < c.btMinkey then
    (btInsertPage c s.1 hi kpromoted ppromoted, cut.2.2, s.2)
  else
    (s.1, cut.2.2, btInsertPage c s.2 (hi - (cut.1.count + 1)) kpromoted ppromoted)

/-- What `BTInsert` returns: its code, the pool, the page it was called on and
its out-parameters. -/
structure BTInsRes (α : Type) where
  ret : BTRet
  pool : PagePool
  current : BTPtr α
  kpromoted : ℕ
  ppromoted : BTPtr α
  ngb : Option α

/-- The end of `BTInsert`: the promoted key goes into `current`, or `current` is
split. -/
def btPlace (c : BTConf α) (pool : PagePool) (current : BTPage α) (hi : ℤ) (kpromoted : ℕ)
    (ppromoted : BTPtr α) (ngb : Option α) : BTInsRes α :=
  if current.count < c.btMaxkey then
    { ret := .ok, pool, current := .page (btInsertPage c current hi kpromoted ppromoted),
      kpromoted, ppromoted, ngb }
  else
    match allocPage pool with
    | none => { ret := .allocFail, pool, current := .page current, kpromoted, ppromoted, ngb }
    | some (idx, pool) =>
      let s := btSplit c current idx hi kpromoted ppromoted
      { ret := .promotion, pool, current := .page s.1, kpromoted := s.2.1,
        ppromoted := .page s.2.2, ngb }

/-- The leaf branch of `BTInsert`: `none` for `BT_OVERLAP`, else the position and
the neighbour. -/
def btInsertLeaf (c : BTConf α) (obj : α) (hi : ℤ) : BTPtr α → Option (ℤ × α)
  | .obj o =>
      if c.btObjMatch o (c.btGetObjKey obj) || (decide (hi = 0) && c.btOverlaps obj o) then none
      else if hi = 0 ∧ c.btGetObjKey obj < c.btGetObjKey o then some (-1, o)
      else some (hi, o)
  | _ => none

/-- `BTInsert`.  Without a page it promotes the key at once; an object in the
place of a page does not occur. -/
def btInsert (c : BTConf α) (obj : α) (pool : PagePool) : BTPtr α → BTInsRes α
  | .null =>
      { ret := .promotion, pool, current := .null, kpromoted := c.btGetObjKey obj,
        ppromoted := .null, ngb := none }
  | .obj o =>
      { ret := .invalid, pool, current := .obj o, kpromoted := 0, ppromoted := .null, ngb := none }
  | .page ⟨idx, count, isleaf, key, child⟩ =>
      let current : BTPage α := ⟨idx, count, isleaf, key, child⟩
      let fail (ret : BTRet) : BTInsRes α :=
        { ret, pool, current := .page current, kpromoted := 0, ppromoted := .null, ngb := none }
      let s := current.search (c.btGetObjKey obj)
      let hi := s.1
      if s.2 then fail .duplicate
      else if hi < count ∧ c.btObjMatch obj (key hi) then fail .overlap
      else if isleaf then
        match btInsertLeaf c obj hi (child hi) with
        | none => fail .overlap
        | some (hi', o) =>
          btPlace c pool current hi' (c.btGetObjKey obj) (.obj obj) (some o)
      else
        let r := btInsert c obj pool (child hi)
        let current := current.setChild hi r.current
        if r.ret = .promotion then btPlace c r.pool current hi r.kpromoted r.ppromoted r.ngb
        else { r with current := .page current }

/-- A new root as `BTIns` clears it. -/
def newRoot (idx : ℕ) (count : ℤ) (isleaf : Bool) : BTPage α :=
  { idx, count, isleaf, key := fun _ => 0, child := fun _ => .null }

/-- `BTIns`: its code, the tree, and `*ngb`. -/
def btIns (c : BTConf α) (t : BTree α) (obj : α) : BTRet × BTree α × Option α :=
  match t.root with
  | .null =>
    match allocPage t.pool with
    | none => (.allocFail, t, none)
    | some (idx, pool) =>
      (.ok, { depth := 1, root := .page ((newRoot idx 0 true).setChild 0 (.obj obj)), pool }, none)
  | root =>
    let r := btInsert c obj t.pool root
    let t := { t with root := r.current, pool := r.pool }
    if r.ret = .promotion then
      match allocPage r.pool with
      | none => (.allocFail, t, r.ngb)
      | some (idx, pool) =>
        let newroot := ((newRoot idx 1 false).setChild 0 r.current).setChild 1 r.ppromoted
        (.ok, { depth := t.depth + 1, pool,
                root := .page { newroot with key := Function.update newroot.key 0 r.kpromoted } },
          r.ngb)
    else (r.ret, t, r.ngb)

/-! ### One more child in a page -/

section InsertPage
variable (p : BTPage α) {hi : ℤ} (k : ℕ) (q : BTPtr α)

@[simp] theorem btInsertPage_isleaf : (btInsertPage c p hi k q).isleaf = p.isleaf := by
  have h := forDown_frame (f := makeRoom) (π := fun p : BTPage α => p.isleaf) (fun _ _ => rfl)
    (max hi 0) (p.count - max hi 0).toNat p
  unfold btInsertPage
  dsimp only
  split <;> exact h

@[simp] theorem btInsertPage_count : (btInsertPage c p hi k q).count = p.count + 1 := by
  have h := forDown_frame (f := makeRoom) (π := fun p : BTPage α => p.count) (fun _ _ => rfl)
    (max hi 0) (p.count - max hi 0).toNat p
  unfold btInsertPage
  dsimp only
  split <;> exact congrArg (· + 1) h

/-- The keys once room is made from `lo` on. -/
theorem forDown_makeRoom_key (lo j : ℤ) :
    (forDown makeRoom lo (p.count - lo).toNat p).key j
      = if lo + 1 ≤ j ∧ j < p.count + 1 then p.key (j - 1) else p.key j := by
  rw [forDown_hom (f := makeRoom) (π := fun p : BTPage α => p.key)
    (g := fun i a => Function.update a (i + 0 + 1) (a (i + 0)))
    (fun i s => by rw [Int.add_zero]; rfl), forDown_shiftUp Int.one_pos]
  congr 1
  exact propext ⟨fun ⟨a, b⟩ => ⟨by omega, by omega⟩, fun ⟨a, b⟩ => ⟨by omega, by omega⟩⟩

theorem forDown_makeRoom_child (lo j : ℤ) :
    (forDown makeRoom lo (p.count - lo).toNat p).child j
      = if lo + 2 ≤ j ∧ j < p.count + 2 then p.child (j - 1) else p.child j := by
  rw [forDown_hom (f := makeRoom) (π := fun p : BTPage α => p.child)
    (g := fun i a => Function.update a (i + 1 + 1) (a (i + 1)))
    (fun i s => by rw [Int.add_assoc]; rfl), forDown_shiftUp Int.one_pos]
  congr 1
  exact propext ⟨fun ⟨a, b⟩ => ⟨by omega, by omega⟩, fun ⟨a, b⟩ => ⟨by omega, by omega⟩⟩

/-- The children of a page with one more: up to `hi` as before, then the new one,
then the others one place further up. -/
theorem btInsertPage_child (h₁ : -1 ≤ hi) {i : ℤ} (h₀ : 0 ≤ i) (hi' : i ≤ p.count + 1) :
    (btInsertPage c p hi k q).child i
      = if i ≤ hi then p.child i else if i = hi + 1 then q else p.child (i - 1) := by
  have h := forDown_makeRoom_child p (max hi 0)
  unfold btInsertPage
  dsimp only
  by_cases hneg : hi < 0
  · -- the new child goes to the front
    rw [if_pos hneg]
    dsimp only
    by_cases hi0 : i = 0
    · subst hi0; rw [Function.update_self, if_neg (by omega), if_pos (by omega)]
    · rw [Function.update_of_ne hi0, if_neg (by omega), if_neg (by omega)]
      by_cases hi1 : i = 1
      · subst hi1; rw [Function.update_self, h, if_neg (by omega)]; rfl
      · rw [Function.update_of_ne hi1, h, if_pos (by omega)]
  · rw [if_neg hneg]
    dsimp only
    by_cases hi1 : i = hi + 1
    · subst hi1; rw [Function.update_self, if_neg (by omega), if_pos rfl]
    · rw [Function.update_of_ne hi1, h]
      by_cases hle : i ≤ hi
      · rw [if_neg (by omega), if_pos hle]
      · rw [if_pos (by omega), if_neg hle, if_neg hi1]

/-- The keys of a page with one more child; in front of the first child a new key
is read off it. -/
theorem btInsertPage_key (h₁ : -1 ≤ hi) {i : ℤ} (h₀ : 0 ≤ i) (hi' : i ≤ p.count) :
    (btInsertPage c p hi k q).key i
      = if i < hi then p.key i else if i = hi then k
        else if i = 0 then c.ptrKey (p.child 0) else p.key (i - 1) := by
  have h := forDown_makeRoom_key p (max hi 0)
  have hc0 := forDown_makeRoom_child p (max hi 0) 0
  rw [if_neg (by omega)] at hc0
  unfold btInsertPage
  dsimp only
  by_cases hneg : hi < 0
  · rw [if_pos hneg, if_neg (by omega), if_neg (by omega)]
    dsimp only
    by_cases hi0 : i = 0
    · subst hi0; rw [Function.update_self, if_pos rfl, hc0]
    · rw [Function.update_of_ne hi0, if_neg hi0, h, if_pos (by omega)]
  · rw [if_neg hneg]
    dsimp only
    by_cases hie : i = hi
    · subst hie; rw [Function.update_self, if_neg (by omega), if_pos rfl]
    · rw [Function.update_of_ne hie, h]
      by_cases hlt : i < hi
      · rw [if_neg (by omega), if_pos hlt]
      · rw [if_pos (by omega), if_neg hlt, if_neg hie, if_neg (by omega)]

/-- The objects of a page with one more child. -/
theorem btInsertPage_toList (h₁ : -1 ≤ hi) (h₂ : hi ≤ p.count) :
    (BTPtr.page (btInsertPage c p hi k q)).toList
      = cat (fun i => (p.child i).toList) 0 (hi + 1).toNat ++ q.toList
        ++ cat (fun i => (p.child i).toList) (hi + 1) (p.count - hi).toNat := by
  have hl : cat (fun i => ((btInsertPage c p hi k q).child i).toList) 0 (hi + 1).toNat
      = cat (fun i => (p.child i).toList) 0 (hi + 1).toNat :=
    cat_congr fun i hi₁ hi₂ => by
      rw [btInsertPage_child p k q h₁ hi₁ (by omega), if_pos (by omega)]
  have hr : cat (fun i => (p.child i).toList) (hi + 1) (p.count - hi).toNat
      = cat (fun i => ((btInsertPage c p hi k q).child i).toList) (hi + 1 + 1)
        (p.count - hi).toNat :=
    cat_congr_shift fun i hi₁ hi₂ => by
      rw [btInsertPage_child p k q h₁ (by omega) (by omega), if_neg (by omega),
        if_neg (by omega), show i + 1 - 1 = i by omega]
  have hm : (btInsertPage c p hi k q).child (hi + 1) = q := by
    rw [btInsertPage_child p k q h₁ (by omega) (by omega), if_neg (by omega), if_pos rfl]
  rw [toList_focus _ (show (0 : ℤ) ≤ hi + 1 by omega) (by rw [btInsertPage_count]; omega), hl, hr,
    hm, btInsertPage_count, show p.count + 1 - (hi + 1) = p.count - hi by omega]

theorem btInsertPage_shape {n : ℕ} (hp : Shape c n p) (hq : ChildShape c n q) (h₁ : -1 ≤ hi)
    (h₂ : hi ≤ p.count) : Shape c n (btInsertPage c p hi k q) := by
  rw [shape_iff] at hp ⊢
  refine ⟨(btInsertPage_isleaf ..).trans hp.1, fun i hi₁ hi₂ => ?_⟩
  rw [btInsertPage_count] at hi₂
  rw [btInsertPage_child p k q h₁ hi₁ hi₂]
  by_cases hlo : i ≤ hi
  · rw [if_pos hlo]
    exact hp.2 i hi₁ (by omega)
  · rw [if_neg hlo]
    by_cases hn : i = hi + 1
    · rwa [if_pos hn]
    · rw [if_neg hn]
      exact hp.2 (i - 1) (by omega) (by omega)

/-- Every key of a page with one more child is right, if the new key is; in front
of the first child, if that is a leaf's. -/
theorem btInsertPage_keys (hp : Keys c p) (h₁ : -1 ≤ hi) (h₂ : hi ≤ p.count)
    (hk : 0 ≤ hi → k = c.leastBase q.toList)
    (hk0 : hi = -1 → c.ptrKey (p.child 0) = c.leastBase (p.child 0).toList) :
    Keys c (btInsertPage c p hi k q) := by
  intro i hi₁ hi₂
  rw [btInsertPage_count] at hi₂
  rw [btInsertPage_key p k q h₁ hi₁ (by omega),
    btInsertPage_child p k q h₁ (by omega) (by omega)]
  rcases lt_trichotomy i hi with hlt | heq | hgt
  · rw [if_pos hlt, if_pos (by omega), hp i hi₁ (by omega)]
  · rw [if_neg (by omega), if_pos heq, if_neg (by omega), if_pos (by omega), hk (by omega)]
  · rw [if_neg (by omega), if_neg (show ¬ i = hi by omega), if_neg (show ¬ i + 1 ≤ hi by omega),
      if_neg (show ¬ i + 1 = hi + 1 by omega)]
    by_cases h0 : i = 0
    · subst h0
      rw [if_pos rfl, hk0 (by omega), Int.zero_add, Int.sub_self]
    · rw [if_neg h0, hp (i - 1) (by omega) (by omega), show i - 1 + 1 = i + 1 - 1 by omega]

/-- With the keys, the children are right, too. -/
theorem btInsertPage_exact (hp : Exact c (.page p)) (hq : Exact c q) (h₁ : -1 ≤ hi)
    (h₂ : hi ≤ p.count) (hk : 0 ≤ hi → k = c.leastBase q.toList)
    (hk0 : hi = -1 → c.ptrKey (p.child 0) = c.leastBase (p.child 0).toList) :
    Exact c (.page (btInsertPage c p hi k q)) := by
  rw [exact_page] at hp ⊢
  refine ⟨btInsertPage_keys p k q hp.1 h₁ h₂ hk hk0, fun i hi₁ hi₂ => ?_⟩
  rw [btInsertPage_count] at hi₂
  rw [btInsertPage_child p k q h₁ hi₁ hi₂]
  by_cases hlo : i ≤ hi
  · rw [if_pos hlo]
    exact hp.2 i hi₁ (by omega)
  · rw [if_neg hlo]
    by_cases hn : i = hi + 1
    · rwa [if_pos hn]
    · rw [if_neg hn]
      exact hp.2 (i - 1) (by omega) (by omega)

end InsertPage

/-! ### The split of a page -/

@[simp] theorem splitMove_fst_count (p : BTPage α) (idx : ℕ) (n : ℤ) :
    (splitMove c p idx n).1.count = p.count :=
  forUp_frame (f := splitStep (p.count + 1)) (π := fun s : BTPage α × BTPage α => s.1.count)
    (fun _ _ => rfl) _ _ _

@[simp] theorem splitMove_fst_isleaf (p : BTPage α) (idx : ℕ) (n : ℤ) :
    (splitMove c p idx n).1.isleaf = p.isleaf :=
  forUp_frame (f := splitStep (p.count + 1)) (π := fun s : BTPage α × BTPage α => s.1.isleaf)
    (fun _ _ => rfl) _ _ _

@[simp] theorem splitMove_snd_count (p : BTPage α) (idx : ℕ) (n : ℤ) :
    (splitMove c p idx n).2.count = n :=
  (forUp_frame (f := clearStep) (π := fun p : BTPage α => p.count) (fun _ _ => rfl) _ _ _).trans
    (forUp_frame (f := splitStep (p.count + 1)) (π := fun s : BTPage α × BTPage α => s.2.count)
      (fun _ _ => rfl) _ _ _)

@[simp] theorem splitMove_snd_isleaf (p : BTPage α) (idx : ℕ) (n : ℤ) :
    (splitMove c p idx n).2.isleaf = p.isleaf :=
  (forUp_frame (f := clearStep) (π := fun p : BTPage α => p.isleaf) (fun _ _ => rfl) _ _ _).trans
    (forUp_frame (f := splitStep (p.count + 1)) (π := fun s : BTPage α × BTPage α => s.2.isleaf)
      (fun _ _ => rfl) _ _ _)

/-- The keys a split moves. -/
theorem forUp_splitStep_key (j : ℤ) (n : ℕ) (s : BTPage α × BTPage α) :
    ((forUp (splitStep j) 0 n s).1.key, (forUp (splitStep j) 0 n s).2.key)
      = forUp (moveStep 0 j 0) 0 n (s.1.key, s.2.key) :=
  forUp_hom (π := fun s : BTPage α × BTPage α => (s.1.key, s.2.key))
    (fun i s => by simp only [splitStep, moveStep, Int.add_zero]) 0 n s

/-- The children a split moves. -/
theorem forUp_splitStep_child (j : ℤ) (n : ℕ) (s : BTPage α × BTPage α) :
    ((forUp (splitStep j) 0 n s).1.child, (forUp (splitStep j) 0 n s).2.child)
      = forUp (moveStep .null (j + 1) 1) 0 n (s.1.child, s.2.child) :=
  forUp_hom (π := fun s : BTPage α × BTPage α => (s.1.child, s.2.child)) (fun _ _ => rfl) 0 n s

section SplitMove
variable (p : BTPage α) (idx : ℕ) {n i : ℤ}

theorem splitMove_fst_key (h : i < p.count + 1) : (splitMove c p idx n).1.key i = p.key i := by
  have hs := congrArg (fun a => a.1 i) (forUp_splitStep_key (p.count + 1) n.toNat
    (p.setChild (p.count + 1) .null,
      ⟨idx, n, p.isleaf, fun _ => 0, Function.update (fun _ => .null) 0 (p.child (p.count + 1))⟩))
  refine hs.trans ?_
  dsimp only
  rw [(forUp_move ..).1, if_neg (by omega)]
  rfl

theorem splitMove_fst_child (h : i < p.count + 1) :
    (splitMove c p idx n).1.child i = p.child i := by
  have hs := congrArg (fun a => a.1 i) (forUp_splitStep_child (p.count + 1) n.toNat
    (p.setChild (p.count + 1) .null,
      ⟨idx, n, p.isleaf, fun _ => 0, Function.update (fun _ => .null) 0 (p.child (p.count + 1))⟩))
  refine hs.trans ?_
  dsimp only
  rw [(forUp_move ..).1, if_neg (by omega)]
  exact PageOf.setChild_child_ne p (by omega) _

theorem splitMove_snd_key (h₁ : 0 ≤ i) (h₂ : i < n) :
    (splitMove c p idx n).2.key i = p.key (i + (p.count + 1)) := by
  have hs := congrArg (fun a => a.2 i) (forUp_splitStep_key (p.count + 1) n.toNat
    (p.setChild (p.count + 1) .null,
      ⟨idx, n, p.isleaf, fun _ => 0, Function.update (fun _ => .null) 0 (p.child (p.count + 1))⟩))
  unfold splitMove
  dsimp only
  rw [forUp_hom (f := clearStep) (π := fun q : BTPage α => q.key)
    (g := fun i a => Function.update a (i + 0) 0) (fun i s => by rw [Int.add_zero]; rfl),
    forUp_fill, if_neg (by omega)]
  refine hs.trans ?_
  dsimp only
  rw [(forUp_move ..).2, if_pos (by omega), Int.sub_zero]
  rfl

theorem splitMove_snd_child (h₁ : 0 ≤ i) (h₂ : i ≤ n) :
    (splitMove c p idx n).2.child i = p.child (i + (p.count + 1)) := by
  have hs := congrArg (fun a => a.2 i) (forUp_splitStep_child (p.count + 1) n.toNat
    (p.setChild (p.count + 1) .null,
      ⟨idx, n, p.isleaf, fun _ => 0, Function.update (fun _ => .null) 0 (p.child (p.count + 1))⟩))
  unfold splitMove
  dsimp only
  rw [forUp_hom (f := clearStep) (π := fun q : BTPage α => q.child)
    (g := fun i a => Function.update a (i + 1) .null) (fun _ _ => rfl), forUp_fill,
    if_neg (by omega)]
  refine hs.trans ?_
  dsimp only
  rw [(forUp_move ..).2]
  by_cases hi : i = 0
  · subst hi
    rw [if_neg (by omega), Function.update_self, Int.zero_add]
  · rw [if_pos (by omega), show i - 1 + (p.count + 1 + 1) = i + (p.count + 1) by omega]
    exact PageOf.setChild_child_ne p (by omega) _

end SplitMove

/-- What `BTInsert` leaves of a full page with a promoted child at `hi`: both
halves are runs of the page `v` that would have resulted had there been room, and
`v->key[BT_MINKEY]` is promoted. -/
structure SplitOf (c : BTConf α) (v : BTPage α) (key0 : ℕ) (s : BTPage α × ℕ × BTPage α) :
    Prop where
  left : IsSlice s.1 v 0 c.btMinkey
  kmed : s.2.1 = v.key c.btMinkey
  right : IsSlice (s.2.2.setKey 0 (v.key (c.btMinkey + 1))) v (c.btMinkey + 1) c.btMinkey
  /-- The first key of the new page. -/
  key_zero : s.2.2.key 0 = key0

section Split
variable {p : BTPage α} (idx : ℕ) {hi : ℤ} (k : ℕ) (q : BTPtr α)

/-- The keys and children below the new child are those of the page cut off above
them, with the new child. -/
theorem isSlice_btInsertPage {l : BTPage α} {m : ℤ} (h₁ : -1 ≤ hi) (hlt : hi < m)
    (hm : m ≤ p.count) (hcount : l.count = m - 1) (hleaf : l.isleaf = p.isleaf)
    (hkey : ∀ i, i < m - 1 → l.key i = p.key i) (hchild : ∀ i, i < m → l.child i = p.child i) :
    IsSlice (btInsertPage c l hi k q) (btInsertPage c p hi k q) 0 m := by
  refine ⟨by simp [hleaf], by simp [hcount], fun i hi₁ hi₂ => ?_, fun i hi₁ hi₂ => ?_⟩
  · rw [Int.zero_add, btInsertPage_key l k q h₁ hi₁ (by omega),
      btInsertPage_key p k q h₁ hi₁ (by omega)]
    by_cases hlo : i < hi
    · rw [if_pos hlo, if_pos hlo, hkey i (by omega)]
    · rw [if_neg hlo, if_neg hlo, hkey (i - 1) (by omega), hchild 0 (by omega)]
  · rw [Int.zero_add, btInsertPage_child l k q h₁ hi₁ (by omega),
      btInsertPage_child p k q h₁ hi₁ (by omega), hchild (i - 1) (by omega)]
    by_cases hlo : i ≤ hi
    · rw [if_pos hlo, if_pos hlo, hchild i (by omega)]
    · rw [if_neg hlo, if_neg hlo]

/-- The keys and children from `m + 1` on, with the new child among them. -/
theorem isSlice_btInsertPage_sub {r : BTPage α} {m : ℤ} (hle : m ≤ hi) (h₂ : hi ≤ p.count)
    (hm : 1 ≤ m) (hcount : r.count = p.count - (m + 1)) (hleaf : r.isleaf = p.isleaf)
    (hkey : ∀ i, 0 ≤ i → i < r.count → r.key i = p.key (i + (m + 1)))
    (hchild : ∀ i, 0 ≤ i → i ≤ r.count → r.child i = p.child (i + (m + 1))) :
    IsSlice ((btInsertPage c r (hi - (m + 1)) k q).setKey 0
        ((btInsertPage c p hi k q).key (m + 1)))
      (btInsertPage c p hi k q) (m + 1) (p.count - m) := by
  refine ⟨?_, ?_, fun i hi₁ hi₂ => ?_, fun i hi₁ hi₂ => ?_⟩
  · exact (btInsertPage_isleaf ..).trans (hleaf.trans (btInsertPage_isleaf ..).symm)
  · exact (btInsertPage_count ..).trans (by omega)
  · by_cases h0 : i = 0
    · subst h0
      rw [PageOf.setKey_key_self, Int.add_zero]
    · rw [PageOf.setKey_key_ne _ h0, btInsertPage_key r k q (by omega) hi₁ (by omega),
        btInsertPage_key p k q (by omega) (by omega) (by omega), if_neg h0,
        if_neg (show ¬ m + 1 + i = 0 by omega), hkey (i - 1) (by omega) (by omega),
        show i - 1 + (m + 1) = m + 1 + i - 1 by omega]
      by_cases hlo : i < hi - (m + 1)
      · rw [if_pos hlo, if_pos (by omega), hkey i hi₁ (by omega), Int.add_comm]
      · rw [if_neg hlo, if_neg (show ¬ m + 1 + i < hi by omega)]
        congr 1
        exact propext ⟨fun h => by omega, fun h => by omega⟩
  · show (btInsertPage c r (hi - (m + 1)) k q).child i = _
    rw [btInsertPage_child r k q (by omega) hi₁ (by omega),
      btInsertPage_child p k q (by omega) (by omega) (by omega)]
    by_cases hlo : i ≤ hi - (m + 1)
    · rw [if_pos hlo, if_pos (by omega), hchild i hi₁ (by omega), Int.add_comm]
    · rw [if_neg hlo, if_neg (show ¬ m + 1 + i ≤ hi by omega)]
      by_cases hn : i = hi - (m + 1) + 1
      · rw [if_pos hn, if_pos (by omega)]
      · rw [if_neg hn, if_neg (by omega), hchild (i - 1) (by omega) (by omega)]
        congr 1
        omega

/-- The promoted child goes to the old page, which is cut one key shorter. -/
theorem btSplit_lt (hc : c.Odd) (h₁ : -1 ≤ hi) (hfull : p.count = c.btMaxkey)
    (hlt : hi < c.btMinkey) :
    SplitOf c (btInsertPage c p hi k q) ((btInsertPage c p hi k q).key (c.btMinkey + 1))
      (btSplit c p idx hi k q) := by
  obtain ⟨hm, hM⟩ := hc.bounds
  have hkey : ∀ i, 0 ≤ i → i < c.btMinkey → (splitMove c { p with
      count := c.btMinkey - 1
      key := Function.update p.key (c.btMinkey - 1) 0 } idx (c.btMaxkey - c.btMinkey)).2.key i
        = (btInsertPage c p hi k q).key (c.btMinkey + 1 + i) := by
    intro i hi₁ hi₂
    rw [splitMove_snd_key _ _ hi₁ (by omega), btInsertPage_key p k q h₁ (by omega) (by omega),
      if_neg (by omega), if_neg (by omega), if_neg (by omega)]
    refine (Function.update_of_ne (by dsimp only; omega) ..).trans ?_
    congr 1
    dsimp only
    omega
  unfold btSplit splitCut
  rw [if_pos hlt, if_pos hlt]
  refine ⟨?_, ?_, ⟨?_, ?_, fun i hi₁ hi₂ => ?_, fun i hi₁ hi₂ => ?_⟩, ?_⟩
  · refine isSlice_btInsertPage k q h₁ hlt (by omega) (by simp) (by simp) (fun i hi' => ?_)
      (fun i hi' => ?_)
    · rw [splitMove_fst_key _ _ (by dsimp only; omega)]
      exact Function.update_of_ne (by omega) ..
    · rw [splitMove_fst_child _ _ (by dsimp only; omega)]
  · rw [btInsertPage_key p k q h₁ (by omega) (by omega), if_neg (by omega), if_neg (by omega),
      if_neg (by omega)]
  · rw [btInsertPage_isleaf]
    exact splitMove_snd_isleaf ..
  · refine (splitMove_snd_count ..).trans ?_
    dsimp only
    omega
  · by_cases h0 : i = 0
    · subst h0
      rw [PageOf.setKey_key_self, Int.add_zero]
    · rw [PageOf.setKey_key_ne _ h0]
      exact hkey i hi₁ hi₂
  · show (splitMove c _ idx _).2.child i = _
    rw [splitMove_snd_child _ _ hi₁ (by dsimp only; omega),
      btInsertPage_child p k q h₁ (by omega) (by omega), if_neg (by omega), if_neg (by omega)]
    dsimp only
    congr 1
    omega
  · exact (hkey 0 le_rfl (by omega)).trans (by rw [Int.add_zero])

/-- The promoted child goes to the new page: the old one keeps its first
`BT_MINKEY` keys. -/
theorem isSlice_splitMove {l : BTPage α} {m n : ℤ} (hle : m ≤ hi) (hm : 0 ≤ m) (hmp : m ≤ p.count)
    (hcount : l.count = m) (hleaf : l.isleaf = p.isleaf)
    (hkey : ∀ i, i < m → l.key i = p.key i) (hchild : l.child = p.child) :
    IsSlice (splitMove c l idx n).1 (btInsertPage c p hi k q) 0 m := by
  refine ⟨by simp [hleaf], by simp [hcount], fun i hi₁ hi₂ => ?_, fun i hi₁ hi₂ => ?_⟩
  · rw [Int.zero_add, splitMove_fst_key _ _ (by omega), hkey i hi₂,
      btInsertPage_key p k q (by omega) hi₁ (by omega), if_pos (by omega)]
  · rw [Int.zero_add, splitMove_fst_child _ _ (by omega), hchild,
      btInsertPage_child p k q (by omega) hi₁ (by omega), if_pos (by omega)]

/-- The promoted child becomes the first one of the new page, and the key after it
is read off the next child as if that were an object. -/
theorem btSplit_eq (hc : c.Odd) (hfull : p.count = c.btMaxkey) (heq : hi = c.btMinkey) :
    SplitOf c (btInsertPage c p hi k q) (c.ptrKey (p.child (c.btMinkey + 1)))
      (btSplit c p idx hi k q) := by
  obtain ⟨hm, hM⟩ := hc.bounds
  unfold btSplit splitCut
  rw [if_neg (by omega), if_neg (by omega), if_pos heq]
  refine ⟨?_, ?_, ?_, ?_⟩
  · exact isSlice_splitMove idx k q (by omega) (by omega) (by omega) rfl rfl (fun _ _ => rfl) rfl
  · rw [btInsertPage_key p k q (by omega) (by omega) (by omega), if_neg (by omega),
      if_pos (by omega)]
  · have h := isSlice_btInsertPage_sub (c := c) (p := p) k q
      (r := (splitMove c { p with count := c.btMinkey } idx (c.btMaxkey - c.btMinkey - 1)).2)
      (m := c.btMinkey) (show c.btMinkey ≤ hi by omega) (by omega) (by omega) (by simp; omega)
      (by simp) (fun i hi₁ hi₂ => ?_) (fun i hi₁ hi₂ => ?_)
    · rwa [show p.count - c.btMinkey = c.btMinkey by omega] at h
    · rw [splitMove_snd_count] at hi₂
      rw [splitMove_snd_key _ _ hi₁ hi₂]
    · rw [splitMove_snd_count] at hi₂
      rw [splitMove_snd_child _ _ hi₁ hi₂]
  · dsimp only
    rw [btInsertPage_key _ k q (by omega) le_rfl (by simp; omega), if_neg (by omega),
      if_neg (by omega), if_pos rfl, splitMove_snd_child _ _ le_rfl (by omega), Int.zero_add]

/-- The promoted child goes further up in the new page. -/
theorem btSplit_gt (hc : c.Odd) (hfull : p.count = c.btMaxkey) (h₂ : hi ≤ p.count)
    (hgt : c.btMinkey < hi) :
    SplitOf c (btInsertPage c p hi k q) ((btInsertPage c p hi k q).key (c.btMinkey + 1))
      (btSplit c p idx hi k q) := by
  obtain ⟨hm, hM⟩ := hc.bounds
  unfold btSplit splitCut
  rw [if_neg (by omega), if_neg (by omega), if_neg (by omega)]
  have hkey : ∀ i, 0 ≤ i → i < c.btMaxkey - c.btMinkey - 1 → (splitMove c { p with
      count := c.btMinkey
      key := Function.update p.key c.btMinkey 0 } idx (c.btMaxkey - c.btMinkey - 1)).2.key i
        = p.key (i + (c.btMinkey + 1)) := by
    intro i hi₁ hi₂
    rw [splitMove_snd_key _ _ hi₁ hi₂]
    exact Function.update_of_ne (by dsimp only; omega) ..
  refine ⟨?_, ?_, ?_, ?_⟩
  · exact isSlice_splitMove idx k q (by omega) (by omega) (by omega) rfl rfl
      (fun i hi' => Function.update_of_ne (by omega) ..) rfl
  · rw [btInsertPage_key p k q (by omega) (by omega) (by omega), if_pos hgt]
  · have h := isSlice_btInsertPage_sub (c := c) (p := p) k q
      (r := (splitMove c { p with
        count := c.btMinkey
        key := Function.update p.key c.btMinkey 0 } idx (c.btMaxkey - c.btMinkey - 1)).2)
      (m := c.btMinkey) (show c.btMinkey ≤ hi by omega) (by omega) (by omega) (by simp; omega)
      (by simp) (fun i hi₁ hi₂ => ?_) (fun i hi₁ hi₂ => ?_)
    · rwa [show p.count - c.btMinkey = c.btMinkey by omega] at h
    · rw [splitMove_snd_count] at hi₂
      exact hkey i hi₁ hi₂
    · rw [splitMove_snd_count] at hi₂
      rw [splitMove_snd_child _ _ hi₁ hi₂]
  · dsimp only
    rw [btInsertPage_key _ k q (by omega) le_rfl (by simp; omega),
      btInsertPage_key p k q (by omega) (by omega) (by omega)]
    by_cases h0 : hi = c.btMinkey + 1
    · rw [if_neg (by omega), if_pos (by omega), if_neg (by omega), if_pos h0.symm]
    · rw [if_pos (by omega), if_pos (by omega), hkey 0 le_rfl (by omega), Int.zero_add]

/-- **The split of a full page.**  The first key of the new page is that of the
run, except where it is read off a child. -/
theorem btSplit_spec (hc : c.Odd) (hfull : p.count = c.btMaxkey) (h₁ : -1 ≤ hi)
    (h₂ : hi ≤ p.count) :
    SplitOf c (btInsertPage c p hi k q)
      (if hi = c.btMinkey then c.ptrKey (p.child (c.btMinkey + 1))
        else (btInsertPage c p hi k q).key (c.btMinkey + 1)) (btSplit c p idx hi k q) := by
  rcases lt_trichotomy hi c.btMinkey with hlt | heq | hgt
  · rw [if_neg (by omega)]
    exact btSplit_lt idx k q hc h₁ hfull hlt
  · rw [if_pos heq]
    exact btSplit_eq idx k q hc hfull heq
  · rw [if_neg (by omega)]
    exact btSplit_gt idx k q hc hfull h₂ hgt

end Split

end Mungi
