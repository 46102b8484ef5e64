import Mungi.BTree.Shape

/-!
# Deletion from the object table

`BTDel` looks for the leaf of a key, takes the object out of it, and repairs the
pages that underflow on the way back up: from the fatter neighbour if that has
keys to spare, and by collapsing two pages into one otherwise.  Both repairs are
described through the page the two neighbours make when glued together: collapsing
leaves that page, and redistributing cuts it elsewhere.

## Main definitions

* `btDeletePage`, `btCollapse`, `btRedistribute`, `btDelete`, `btDel` — the
  functions of `btree.c`.

## Main results

* `btDeletePage_child`, `btDeletePage_key` — the page with one child less.
* `Glued` — two neighbours glued together.
* `btRedistribute_spec` — redistribution cuts the glued page elsewhere.
-/

namespace Mungi

open Cat ForLoop

variable {α : Type} {c : BTConf α}

/-! ### The code -/

/-- The body of the loop of `BTDeletePage`. -/
def closeGap (i : ℤ) (p : BTPage α) : BTPage α :=
  { p with
    key := Function.update p.key (i - 1) (p.key i)
    child := Function.update p.child i (p.child (i + 1)) }

/-- `BTDeletePage` from its loop on. -/
def removeAt (c : BTConf α) (current : BTPage α) (idx : ℤ) : BTRet × BTPage α :=
  let s := forUp closeGap (idx + 1) (current.count - (idx + 1)).toNat current
  let s := s.setChild s.count .null
  let s := { s with count := s.count - 1 }
  let s := if 0 ≤ s.count then s.setKey s.count 0 else s
  (if s.count < c.btMinkey then .lessThanMin else .ok, s)

/-- `BTDeletePage` -/
def btDeletePage (c : BTConf α) (current : BTPage α) (idx : ℤ) : BTRet × BTPage α :=
  if idx < 0 then removeAt c (current.setChild 0 (current.child 1)) (idx + 1)
  else removeAt c current idx

/-- The body of the loop of `BTCollapse`: keys and children of `right` go to `left`,
`n` places further up. -/
def appendStep (right : BTPage α) (n i : ℤ) (left : BTPage α) : BTPage α :=
  { left with
    key := Function.update left.key (i + n) (right.key i)
    child := Function.update left.child (i + (n + 1)) (right.child (i + 1)) }

/-- `BTCollapse`, but for the call of `free_page`: the left page. -/
def btCollapse (c : BTConf α) (left right : BTPage α) : BTPage α :=
  let kmed := getLeastKey c (.page right)
  let s := (left.setKey left.count kmed).setChild (left.count + 1) (right.child 0)
  let s := forUp (appendStep right (left.count + 1)) 0 right.count.toNat s
  { s with count := left.count + right.count + 1 }

/-- The body of the first loop of `BTRedistribute`: keys and children of `right` go to
`left`, `n` places further up. -/
def takeStep (right : BTPage α) (n j : ℤ) (left : BTPage α) : BTPage α :=
  { left with
    key := Function.update left.key (j + n) (right.key j)
    child := Function.update left.child (j + n) (right.child j) }

/-- The body of the second loop of `BTRedistribute`: the rest of `right` moves down
by `delta`. -/
def moveDown (delta i : ℤ) (right : BTPage α) : BTPage α :=
  { right with
    key := Function.update (Function.update right.key i (right.key (i + delta))) (i + delta) 0
    child := Function.update
      (Function.update right.child (i + 1) (right.child (i + (delta + 1))))
      (i + (delta + 1)) .null }

/-- The body of the third loop of `BTRedistribute`: all of `right` moves up by
`delta`. -/
def moveUp (delta i : ℤ) (right : BTPage α) : BTPage α :=
  { right with
    key := Function.update right.key (i + delta) (right.key i)
    child := Function.update right.child (i + delta) (right.child i) }

/-- The body of the last loop of `BTRedistribute`: keys and children from `n` on move
from `left` to `right`. -/
def giveStep (n j : ℤ) (s : BTPage α × BTPage α) : BTPage α × BTPage α :=
  ({ s.1 with
      key := Function.update s.1.key (j + n) 0
      child := Function.update s.1.child (j + n) .null },
    { s.2 with
      key := Function.update s.2.key j (s.1.key (j + n))
      child := Function.update s.2.child j (s.1.child (j + n)) })

/-- `BTRedistribute`: the two pages and the new median key. -/
def btRedistribute (c : BTConf α) (left right : BTPage α) : BTPage α × BTPage α × ℕ :=
  let half := (left.count + right.count) / 2
  let kmed := getLeastKey c (.page right)
  if left.count < half then
    let delta := half - left.count
    let l := left.setKey left.count kmed
    let l := forUp (takeStep right (left.count + 1)) 0 (half - (left.count + 1)).toNat l
    let j := delta - 1
    let l := l.setChild half (right.child j)
    let kmedian := right.key j
    let r := right.setChild 0 (right.child (j + 1))
    -- `while (j++ < right->count)` runs once more than there are keys to move
    let r := forUp (moveDown delta) 0 (right.count - j).toNat r
    ({ l with count := half }, { r with count := right.count - delta }, kmedian)
  else
    let delta := left.count - half
    let r := right.setChild (right.count + delta) (right.child right.count)
    let r := forDown (moveUp delta) 0 right.count.toNat r
    let r := (r.setKey (delta - 1) kmed).setChild (delta - 1) (left.child left.count)
    let s := forDown (giveStep (half + 1)) 0 (delta - 1).toNat (left, r)
    ({ (s.1.setKey half 0) with count := half }, { s.2 with count := right.count + delta },
      s.1.key half)

/-- The sibling an underflowing child is repaired with: its only neighbour, or the
fatter one. -/
def PageOf.sibling (current : BTPage α) (hi : ℤ) : ℤ :=
  if hi = 0 then 1
  else if hi = current.count then hi - 1
  else if (current.child (hi - 1)).count > (current.child (hi + 1)).count then hi - 1
  else hi + 1

/-- What `BTDelete` returns: its code, the pool, the page it was called on and
`*obj`. -/
structure BTDelRes (α : Type) where
  ret : BTRet
  pool : PagePool
  current : BTPtr α
  obj : Option α

/-- The repair of child `hi` in `BTDelete`; `none` when `free_page` panics. -/
def btRepair (c : BTConf α) (pool : PagePool) (current : BTPage α) (hi : ℤ) :
    Option (BTRet × PagePool × BTPage α) :=
  let sibling := current.sibling hi
  let med := (hi + sibling) / 2
  match current.child (min hi sibling), current.child (max hi sibling) with
  | .page left, .page right =>
    if (current.child sibling).count > c.btMinkey then
      let s := btRedistribute c left right
      some (.ok, pool,
        (((current.setChild (min hi sibling) (.page s.1)).setChild (max hi sibling)
          (.page s.2.1)).setKey med s.2.2))
    else
      (freePage pool right.idx).map fun pool =>
        let s := btDeletePage c
          (current.setChild (min hi sibling) (.page (btCollapse c left right))) med
        (s.1, pool, s.2)
  | _, _ => none

/-- `BTDelete` in an index page, once the call on child `hi` is back. -/
def btDeleteReturn (c : BTConf α) (k : ℕ) (current : BTPage α) (hi : ℤ) (r : BTDelRes α) :
    Option (BTDelRes α) :=
  let current := current.setChild hi r.current
  let current :=
    if hi ≠ 0 ∧ (r.ret = .ok ∨ r.ret = .lessThanMin) ∧ current.key (hi - 1) = k then
      current.setKey (hi - 1) (getLeastKey c r.current)
    else current
  if r.ret = .lessThanMin then
    (btRepair c r.pool current hi).map fun s =>
      { ret := s.1, pool := s.2.1, current := .page s.2.2, obj := r.obj }
  else some { r with current := .page current }

/-- `BTDelete`; `none` when `free_page` panics.  An object in the place of a page does
not occur. -/
def btDelete (c : BTConf α) (k : ℕ) (pool : PagePool) : BTPtr α → Option (BTDelRes α)
  | .null => some { ret := .notFound, pool, current := .null, obj := none }
  | .obj o => some { ret := .invalid, pool, current := .obj o, obj := none }
  | .page ⟨idx, count, isleaf, key, child⟩ =>
      let current : BTPage α := ⟨idx, count, isleaf, key, child⟩
      let hi := (current.search k).1
      if isleaf then
        match child hi with
        | .obj o =>
          if c.btGetObjKey o ≠ k then
            some { ret := .notFound, pool, current := .page current, obj := none }
          else
            let s := btDeletePage c current (hi - 1)
            some { ret := s.1, pool, current := .page s.2, obj := some o }
        | _ => some { ret := .notFound, pool, current := .page current, obj := none }
      else (btDelete c k pool (child hi)).bind (btDeleteReturn c k current hi)

/-- The end of `BTDel`, when the root page has less than `BT_MINKEY` keys left; `none` when
`free_page` panics. -/
def btDelReturn (depth : ℤ) (pool : PagePool) (current : BTPage α) (obj : Option α) :
    Option (BTRet × BTree α × Option α) :=
  if current.isleaf then
    if current.count < 0 then
      (freePage pool current.idx).map fun pool => (.ok, ⟨0, .null, pool⟩, obj)
    else some (.ok, ⟨depth, .page current, pool⟩, obj)
  else if current.count = 0 then
    (freePage pool current.idx).map fun pool => (.ok, ⟨depth - 1, current.child 0, pool⟩, obj)
  else some (.ok, ⟨depth, .page current, pool⟩, obj)

/-- `BTDel`: its code, the tree, and `*obj`; `none` when `free_page` panics. -/
def btDel (c : BTConf α) (t : BTree α) (k : ℕ) : Option (BTRet × BTree α × Option α) :=
  match t.root with
  | .null => some (.notFound, t, none)
  | root =>
    (btDelete c k t.pool root).bind fun r =>
      if r.ret = .lessThanMin then
        match r.current with
        | .page current => btDelReturn t.depth r.pool current r.obj
        | _ => some (.ok, { t with root := r.current, pool := r.pool }, r.obj)
      else some (r.ret, { t with root := r.current, pool := r.pool }, r.obj)

/-! ### One child less in a page -/

theorem forUp_closeGap_key (lo : ℤ) (n : ℕ) (p : BTPage α) (j : ℤ) :
    (forUp closeGap lo n p).key j
      = if lo - 1 ≤ j ∧ j < lo - 1 + n then p.key (j + 1) else p.key j := by
  rw [forUp_hom (f := closeGap) (π := fun p : BTPage α => p.key)
    (g := fun i a => Function.update a (i + 0 - 1) (a (i + 0)))
    (fun i s => by rw [Int.add_zero]; rfl), forUp_shiftDown Int.one_pos, Int.add_zero]

theorem forUp_closeGap_child (lo : ℤ) (n : ℕ) (p : BTPage α) (j : ℤ) :
    (forUp closeGap lo n p).child j
      = if lo ≤ j ∧ j < lo + n then p.child (j + 1) else p.child j := by
  rw [forUp_hom (f := closeGap) (π := fun p : BTPage α => p.child)
    (g := fun i a => Function.update a (i + 1 - 1) (a (i + 1)))
    (fun i s => by rw [Int.add_sub_cancel]; rfl), forUp_shiftDown Int.one_pos, Int.add_sub_cancel]

theorem forUp_closeGap_count (lo : ℤ) (n : ℕ) (p : BTPage α) :
    (forUp closeGap lo n p).count = p.count :=
  forUp_frame (f := closeGap) (π := fun p : BTPage α => p.count) (fun _ _ => rfl) lo n p

theorem forUp_closeGap_isleaf (lo : ℤ) (n : ℕ) (p : BTPage α) :
    (forUp closeGap lo n p).isleaf = p.isleaf :=
  forUp_frame (f := closeGap) (π := fun p : BTPage α => p.isleaf) (fun _ _ => rfl) lo n p

theorem forUp_closeGap_idx (lo : ℤ) (n : ℕ) (p : BTPage α) :
    (forUp closeGap lo n p).idx = p.idx :=
  forUp_frame (f := closeGap) (π := fun p : BTPage α => p.idx) (fun _ _ => rfl) lo n p

section RemoveAt
variable (p : BTPage α) {idx : ℤ}

theorem removeAt_isleaf : (removeAt c p idx).2.isleaf = p.isleaf := by
  unfold removeAt
  dsimp only
  split_ifs <;> exact forUp_closeGap_isleaf ..

theorem removeAt_idx : (removeAt c p idx).2.idx = p.idx := by
  unfold removeAt
  dsimp only
  split_ifs <;> exact forUp_closeGap_idx ..

theorem removeAt_count : (removeAt c p idx).2.count = p.count - 1 := by
  unfold removeAt
  dsimp only
  split_ifs <;> exact congrArg (· - 1) (forUp_closeGap_count ..)

theorem removeAt_ret : (removeAt c p idx).1
    = if p.count ≤ c.btMinkey then .lessThanMin else .ok := by
  have h : (removeAt c p idx).1
      = if (removeAt c p idx).2.count < c.btMinkey then .lessThanMin else .ok := rfl
  rw [h, removeAt_count]
  congr 1
  exact propext ⟨fun h => by omega, fun h => by omega⟩

theorem removeAt_child {i : ℤ} (hi : i < p.count) :
    (removeAt c p idx).2.child i = if i ≤ idx then p.child i else p.child (i + 1) := by
  have h : (removeAt c p idx).2.child i
      = (forUp closeGap (idx + 1) (p.count - (idx + 1)).toNat p).child i := by
    unfold removeAt
    dsimp only
    split_ifs <;>
      exact PageOf.setChild_child_ne _ (by rw [forUp_closeGap_count]; omega) _
  rw [h, forUp_closeGap_child]
  by_cases hle : i ≤ idx
  · rw [if_neg (by omega), if_pos hle]
  · rw [if_pos (by omega), if_neg hle]

theorem removeAt_key {i : ℤ} (hi : i < p.count - 1) :
    (removeAt c p idx).2.key i = if i < idx then p.key i else p.key (i + 1) := by
  have h : (removeAt c p idx).2.key i
      = (forUp closeGap (idx + 1) (p.count - (idx + 1)).toNat p).key i := by
    unfold removeAt
    dsimp only
    split_ifs
    · refine PageOf.setKey_key_ne _ ?_ _
      show i ≠ (forUp closeGap _ _ _).count - 1
      rw [forUp_closeGap_count]
      omega
    · rfl
  rw [h, forUp_closeGap_key]
  by_cases hlt : i < idx
  · rw [if_neg (by omega), if_pos hlt]
  · rw [if_pos (by omega), if_neg hlt]

end RemoveAt

section DeletePage
variable (p : BTPage α) {idx : ℤ}

@[simp] theorem btDeletePage_isleaf : (btDeletePage c p idx).2.isleaf = p.isleaf := by
  unfold btDeletePage
  split_ifs <;> exact removeAt_isleaf _

@[simp] theorem btDeletePage_idx : (btDeletePage c p idx).2.idx = p.idx := by
  unfold btDeletePage
  split_ifs <;> exact removeAt_idx _

@[simp] theorem btDeletePage_count : (btDeletePage c p idx).2.count = p.count - 1 := by
  unfold btDeletePage
  split_ifs <;> exact removeAt_count _

theorem btDeletePage_ret : (btDeletePage c p idx).1
    = if p.count ≤ c.btMinkey then .lessThanMin else .ok := by
  unfold btDeletePage
  by_cases hneg : idx < 0
  · rw [if_pos hneg, removeAt_ret, PageOf.setChild_count]
  · rw [if_neg hneg, removeAt_ret]

/-- The children of a page with one less: up to `idx` as before, then the others one
place further down. -/
theorem btDeletePage_child (h₁ : -1 ≤ idx) {i : ℤ} (h₀ : 0 ≤ i) (hi : i < p.count) :
    (btDeletePage c p idx).2.child i = if i ≤ idx then p.child i else p.child (i + 1) := by
  unfold btDeletePage
  by_cases hneg : idx < 0
  · rw [if_pos hneg, removeAt_child (p.setChild 0 (p.child 1)) hi,
      if_neg (show ¬ i ≤ idx by omega)]
    split_ifs with hi0
    · obtain rfl : i = 0 := by omega
      exact PageOf.setChild_child_self ..
    · exact PageOf.setChild_child_ne _ (by omega) _
  · rw [if_neg hneg, removeAt_child _ hi]

/-- The keys of a page with one child less. -/
theorem btDeletePage_key (h₁ : -1 ≤ idx) {i : ℤ} (h₀ : 0 ≤ i) (hi : i < p.count - 1) :
    (btDeletePage c p idx).2.key i = if i < idx then p.key i else p.key (i + 1) := by
  unfold btDeletePage
  by_cases hneg : idx < 0
  · rw [if_pos hneg, removeAt_key (p.setChild 0 (p.child 1)) hi, if_neg (by omega),
      if_neg (by omega), PageOf.setChild_key]
  · rw [if_neg hneg, removeAt_key _ hi]

/-- The objects of a page with one child less. -/
theorem btDeletePage_toList (h₁ : -1 ≤ idx) (h₂ : idx < p.count) :
    (BTPtr.page (btDeletePage c p idx).2).toList
      = cat (fun i => (p.child i).toList) 0 (idx + 1).toNat
        ++ cat (fun i => (p.child i).toList) (idx + 2) (p.count - (idx + 1)).toNat := by
  have hl : cat (fun i => ((btDeletePage c p idx).2.child i).toList) 0 (idx + 1).toNat
      = cat (fun i => (p.child i).toList) 0 (idx + 1).toNat :=
    cat_congr fun i hi₁ hi₂ => by
      rw [btDeletePage_child p h₁ hi₁ (by omega), if_pos (by omega)]
  have hr : cat (fun i => ((btDeletePage c p idx).2.child i).toList) (idx + 1)
      (p.count - (idx + 1)).toNat
      = cat (fun i => (p.child i).toList) (idx + 1 + 1) (p.count - (idx + 1)).toNat :=
    cat_congr_shift fun i hi₁ hi₂ => by
      rw [btDeletePage_child p h₁ (by omega) (by omega), if_neg (by omega)]
  have hcut := cat_split (fun i => ((btDeletePage c p idx).2.child i).toList)
    (show (0 : ℤ) ≤ idx + 1 by omega) (show idx + 1 ≤ p.count by omega)
  rw [toList_page, btDeletePage_count, Int.sub_add_cancel]
  rw [Int.sub_zero, Int.sub_zero, hl, hr] at hcut
  rw [hcut, show idx + 1 + 1 = idx + 2 by omega]

theorem btDeletePage_shape {n : ℕ} (hp : Shape c n p) (h₁ : -1 ≤ idx) :
    Shape c n (btDeletePage c p idx).2 := by
  rw [shape_iff] at hp ⊢
  refine ⟨(btDeletePage_isleaf p).trans hp.1, fun i hi₁ hi₂ => ?_⟩
  rw [btDeletePage_count] at hi₂
  rw [btDeletePage_child p h₁ hi₁ (by omega)]
  split_ifs
  · exact hp.2 i hi₁ (by omega)
  · exact hp.2 (i + 1) (by omega) (by omega)

/-- The keys left after a deletion are right. -/
theorem btDeletePage_exact (hp : Exact c (.page p)) (h₁ : -1 ≤ idx) :
    Exact c (.page (btDeletePage c p idx).2) := by
  rw [exact_page] at hp ⊢
  refine ⟨fun i hi₁ hi₂ => ?_, fun i hi₁ hi₂ => ?_⟩
  · rw [btDeletePage_count] at hi₂
    rw [btDeletePage_key p h₁ hi₁ hi₂, btDeletePage_child p h₁ (by omega) (by omega)]
    by_cases hlt : i < idx
    · rw [if_pos hlt, if_pos (by omega), hp.1 i hi₁ (by omega)]
    · rw [if_neg hlt, if_neg (by omega), hp.1 (i + 1) (by omega) (by omega)]
  · rw [btDeletePage_count] at hi₂
    rw [btDeletePage_child p h₁ hi₁ (by omega)]
    split_ifs
    · exact hp.2 i hi₁ (by omega)
    · exact hp.2 (i + 1) (by omega) (by omega)

end DeletePage

/-! ### Neighbours glued together -/

/-- Page `v` is made of pages `l` and `r` with `kmed` between them. -/
structure Glued (l r v : BTPage α) (kmed : ℕ) : Prop where
  left : IsSlice l v 0 l.count
  right : IsSlice r v (l.count + 1) r.count
  key : v.key l.count = kmed
  count : v.count = l.count + r.count + 1

section Glued
variable {l r v : BTPage α} {kmed : ℕ} {i : ℤ}

theorem Glued.key_left (h : Glued l r v kmed) (h₁ : 0 ≤ i) (h₂ : i < l.count) :
    v.key i = l.key i := by
  rw [h.left.key i h₁ h₂, Int.zero_add]

theorem Glued.child_left (h : Glued l r v kmed) (h₁ : 0 ≤ i) (h₂ : i ≤ l.count) :
    v.child i = l.child i := by
  rw [h.left.child i h₁ h₂, Int.zero_add]

theorem Glued.key_right (h : Glued l r v kmed) (h₁ : l.count < i) (h₂ : i < v.count) :
    v.key i = r.key (i - (l.count + 1)) := by
  have hv := h.count
  rw [h.right.key (i - (l.count + 1)) (by omega) (by omega)]
  congr 1
  omega

theorem Glued.child_right (h : Glued l r v kmed) (h₁ : l.count < i) (h₂ : i ≤ v.count) :
    v.child i = r.child (i - (l.count + 1)) := by
  have hv := h.count
  rw [h.right.child (i - (l.count + 1)) (by omega) (by omega)]
  congr 1
  omega

theorem Glued.toList (h : Glued l r v kmed) (hl : 0 ≤ l.count) (hr : 0 ≤ r.count) :
    (BTPtr.page v).toList = (BTPtr.page l).toList ++ (BTPtr.page r).toList := by
  refine h.left.toList_eq_append ?_ hl (by rw [h.count]; omega)
  rw [h.count, show l.count + r.count + 1 - (l.count + 1) = r.count by omega]
  exact h.right

theorem Glued.shape (h : Glued l r v kmed) {n : ℕ} (hl : Shape c n l) (hr : Shape c n r) :
    Shape c n v := by
  rw [shape_iff] at hl hr ⊢
  refine ⟨h.left.isleaf.symm.trans hl.1, fun i h₁ h₂ => ?_⟩
  by_cases hi : i ≤ l.count
  · rw [h.child_left h₁ hi]
    exact hl.2 i h₁ hi
  · rw [h.child_right (by omega) h₂]
    rw [h.count] at h₂
    exact hr.2 _ (by omega) (by omega)

theorem Glued.exact (h : Glued l r v kmed) (hl : Exact c (.page l)) (hr : Exact c (.page r))
    (hk : kmed = c.leastBase (r.child 0).toList) : Exact c (.page v) := by
  rw [exact_page] at hl hr ⊢
  refine ⟨fun i h₁ h₂ => ?_, fun i h₁ h₂ => ?_⟩
  · have hv := h.count
    rcases lt_trichotomy i l.count with hlt | heq | hgt
    · rw [h.key_left h₁ hlt, h.child_left (by omega) (by omega)]
      exact hl.1 i h₁ hlt
    · rw [h.child_right (by omega) (by omega), heq, h.key, hk]
      congr 3
      omega
    · rw [h.key_right hgt h₂, h.child_right (by omega) (by omega),
        show i + 1 - (l.count + 1) = i - (l.count + 1) + 1 by omega]
      exact hr.1 _ (by omega) (by omega)
  · have hv := h.count
    by_cases hi : i ≤ l.count
    · rw [h.child_left h₁ hi]
      exact hl.2 i h₁ hi
    · rw [h.child_right (by omega) h₂]
      exact hr.2 _ (by omega) (by omega)

end Glued

/-- **`BTCollapse` glues the two pages together.** -/
theorem btCollapse_glued (l r : BTPage α) (hleaf : r.isleaf = l.isleaf) (hr : 0 ≤ r.count) :
    Glued l r (btCollapse c l r) (getLeastKey c (.page r)) := by
  have hcount : (btCollapse c l r).count = l.count + r.count + 1 := rfl
  have hisleaf : (btCollapse c l r).isleaf = l.isleaf :=
    forUp_frame (f := appendStep r (l.count + 1)) (π := fun p : BTPage α => p.isleaf)
      (fun _ _ => rfl) _ _ _
  have hkey : ∀ i, (btCollapse c l r).key i
      = if l.count + 1 ≤ i ∧ i < l.count + 1 + r.count then r.key (i - (l.count + 1))
        else Function.update l.key l.count (getLeastKey c (.page r)) i := fun i => by
    refine (congrFun (forUp_hom (f := appendStep r (l.count + 1)) (π := fun p : BTPage α => p.key)
      (g := fun i a => Function.update a (i + (l.count + 1)) (r.key (i + 0)))
      (fun i s => by rw [Int.add_zero]; rfl) 0 r.count.toNat _) i).trans ?_
    rw [forUp_copy, Int.add_zero, Int.zero_add, Int.toNat_of_nonneg hr]
    rfl
  have hchild : ∀ i, (btCollapse c l r).child i
      = if l.count + 2 ≤ i ∧ i < l.count + 2 + r.count then r.child (i - (l.count + 1))
        else Function.update l.child (l.count + 1) (r.child 0) i := fun i => by
    refine (congrFun (forUp_hom (f := appendStep r (l.count + 1))
      (π := fun p : BTPage α => p.child)
      (g := fun i a => Function.update a (i + (l.count + 1 + 1)) (r.child (i + 1)))
      (fun _ _ => rfl) 0 r.count.toNat _) i).trans ?_
    rw [forUp_copy, Int.zero_add, Int.toNat_of_nonneg hr, Int.add_assoc,
      show i - (l.count + (1 + 1)) + 1 = i - (l.count + 1) by omega]
    rfl
  refine ⟨⟨hisleaf.symm, rfl, fun i h₁ h₂ => ?_, fun i h₁ h₂ => ?_⟩,
    ⟨hleaf.trans hisleaf.symm, rfl, fun i h₁ h₂ => ?_, fun i h₁ h₂ => ?_⟩, ?_, hcount⟩
  · rw [Int.zero_add, hkey, if_neg (by omega), Function.update_of_ne (by omega)]
  · rw [Int.zero_add, hchild, if_neg (by omega), Function.update_of_ne (by omega)]
  · rw [hkey, if_pos (by omega), add_sub_cancel_left]
  · rw [hchild]
    by_cases hi : i = 0
    · subst hi
      rw [if_neg (by omega), Int.add_zero, Function.update_self]
    · rw [if_pos (by omega), add_sub_cancel_left]
  · rw [hkey, if_neg (by omega), Function.update_self]

/-! ### Redistribution -/

/-- Pages `l` and `r` are page `v` cut at key `a`. -/
structure CutAt (v : BTPage α) (a : ℤ) (l r : BTPage α) (k : ℕ) : Prop where
  left : IsSlice l v 0 a
  right : IsSlice r v (a + 1) (v.count - (a + 1))
  key : k = v.key a

section Take
variable (r : BTPage α) (n : ℤ) (m : ℕ) (l : BTPage α)

theorem forUp_takeStep_key (i : ℤ) : (forUp (takeStep r n) 0 m l).key i
    = if n ≤ i ∧ i < n + m then r.key (i - n) else l.key i := by
  refine (congrFun (forUp_hom (f := takeStep r n) (π := fun p : BTPage α => p.key)
    (g := fun i a => Function.update a (i + n) (r.key (i + 0)))
    (fun i s => by rw [Int.add_zero]; rfl) 0 m l) i).trans ?_
  rw [forUp_copy, Int.zero_add, Int.add_zero]

theorem forUp_takeStep_child (i : ℤ) : (forUp (takeStep r n) 0 m l).child i
    = if n ≤ i ∧ i < n + m then r.child (i - n) else l.child i := by
  refine (congrFun (forUp_hom (f := takeStep r n) (π := fun p : BTPage α => p.child)
    (g := fun i a => Function.update a (i + n) (r.child (i + 0)))
    (fun i s => by rw [Int.add_zero]; rfl) 0 m l) i).trans ?_
  rw [forUp_copy, Int.zero_add, Int.add_zero]

theorem forUp_takeStep_isleaf : (forUp (takeStep r n) 0 m l).isleaf = l.isleaf :=
  forUp_frame (f := takeStep r n) (π := fun p : BTPage α => p.isleaf) (fun _ _ => rfl) 0 m l

end Take

section Move
variable {d : ℤ} (hd : 0 < d) (m : ℕ) (r : BTPage α)
include hd

theorem forUp_moveDown_key (i : ℤ) (h₁ : 0 ≤ i) (h₂ : i < m) :
    (forUp (moveDown d) 0 m r).key i = r.key (i + d) := by
  refine (congrFun (forUp_hom (f := moveDown d) (π := fun p : BTPage α => p.key)
    (g := fun i a => Function.update (Function.update a (i + d - d) (a (i + d))) (i + d) 0)
    (fun i s => by rw [Int.add_sub_cancel]; rfl) 0 m r) i).trans ?_
  rw [forUp_shiftDown_clear hd, if_pos (by omega)]

theorem forUp_moveDown_child (i : ℤ) (h₁ : 0 ≤ i) (h₂ : i ≤ m) :
    (forUp (moveDown d) 0 m r).child i = if i = 0 then r.child 0 else r.child (i + d) := by
  refine (congrFun (forUp_hom (f := moveDown d) (π := fun p : BTPage α => p.child)
    (g := fun i a => Function.update (Function.update a (i + (d + 1) - d) (a (i + (d + 1))))
      (i + (d + 1)) .null)
    (fun i s => by rw [show i + (d + 1) - d = i + 1 by omega]; rfl) 0 m r) i).trans ?_
  rw [forUp_shiftDown_clear hd]
  by_cases hi : i = 0
  · rw [if_neg (by omega), if_neg (by omega), if_pos hi, hi]
  · rw [if_pos (by omega), if_neg hi]

theorem forDown_moveUp_key (i : ℤ) : (forDown (moveUp d) 0 m r).key i
    = if d ≤ i ∧ i < d + m then r.key (i - d) else r.key i := by
  refine (congrFun (forDown_hom (f := moveUp d) (π := fun p : BTPage α => p.key)
    (g := fun i a => Function.update a (i + 0 + d) (a (i + 0)))
    (fun i s => by rw [Int.add_zero]; rfl) 0 m r) i).trans ?_
  rw [forDown_shiftUp hd, Int.add_zero, Int.zero_add]

theorem forDown_moveUp_child (i : ℤ) : (forDown (moveUp d) 0 m r).child i
    = if d ≤ i ∧ i < d + m then r.child (i - d) else r.child i := by
  refine (congrFun (forDown_hom (f := moveUp d) (π := fun p : BTPage α => p.child)
    (g := fun i a => Function.update a (i + 0 + d) (a (i + 0)))
    (fun i s => by rw [Int.add_zero]; rfl) 0 m r) i).trans ?_
  rw [forDown_shiftUp hd, Int.add_zero, Int.zero_add]

end Move

section Give
variable (n : ℤ) (m : ℕ) (s : BTPage α × BTPage α)

theorem forDown_giveStep_key : ((forDown (giveStep n) 0 m s).1.key,
    (forDown (giveStep n) 0 m s).2.key) = forDown (moveStep 0 n 0) 0 m (s.1.key, s.2.key) :=
  forDown_hom (π := fun s : BTPage α × BTPage α => (s.1.key, s.2.key))
    (fun i s => by simp only [giveStep, moveStep, Int.add_zero]) 0 m s

theorem forDown_giveStep_child : ((forDown (giveStep n) 0 m s).1.child,
    (forDown (giveStep n) 0 m s).2.child)
      = forDown (moveStep .null n 0) 0 m (s.1.child, s.2.child) :=
  forDown_hom (π := fun s : BTPage α × BTPage α => (s.1.child, s.2.child))
    (fun i s => by simp only [giveStep, moveStep, Int.add_zero]) 0 m s

theorem forDown_giveStep_fst (i : ℤ) (h : i < n) :
    (forDown (giveStep n) 0 m s).1.key i = s.1.key i ∧
      (forDown (giveStep n) 0 m s).1.child i = s.1.child i := by
  have hk := congrArg (fun a => a.1 i) (forDown_giveStep_key n m s)
  have hc := congrArg (fun a => a.1 i) (forDown_giveStep_child n m s)
  dsimp only at hk hc
  rw [hk, hc, (forDown_move ..).1, (forDown_move ..).1, if_neg (by omega), if_neg (by omega)]
  exact ⟨rfl, rfl⟩

theorem forDown_giveStep_snd (i : ℤ) (h : 0 ≤ i) :
    (forDown (giveStep n) 0 m s).2.key i = (if i < m then s.1.key (i + n) else s.2.key i) ∧
      (forDown (giveStep n) 0 m s).2.child i
        = if i < m then s.1.child (i + n) else s.2.child i := by
  have hk := congrArg (fun a => a.2 i) (forDown_giveStep_key n m s)
  have hc := congrArg (fun a => a.2 i) (forDown_giveStep_child n m s)
  dsimp only at hk hc
  rw [hk, hc, (forDown_move ..).2, (forDown_move ..).2]
  simp only [Int.zero_add, Int.sub_zero, h, true_and, and_self]

theorem forDown_giveStep_isleaf :
    (forDown (giveStep n) 0 m s).1.isleaf = s.1.isleaf ∧
      (forDown (giveStep n) 0 m s).2.isleaf = s.2.isleaf :=
  ⟨forDown_frame (f := giveStep n) (π := fun s : BTPage α × BTPage α => s.1.isleaf)
      (fun _ _ => rfl) 0 m s,
    forDown_frame (f := giveStep n) (π := fun s : BTPage α × BTPage α => s.2.isleaf)
      (fun _ _ => rfl) 0 m s⟩

end Give

section Redistribute
variable {l r v : BTPage α}

/-- The left page takes from the right one. -/
theorem btRedistribute_take (h : Glued l r v (getLeastKey c (.page r))) (hl : 0 ≤ l.count)
    (hlt : l.count < (l.count + r.count) / 2) :
    CutAt v ((l.count + r.count) / 2) (btRedistribute c l r).1 (btRedistribute c l r).2.1
      (btRedistribute c l r).2.2 := by
  have hv := h.count
  have hleft := h.left.isleaf
  have hright := h.right.isleaf
  unfold btRedistribute
  dsimp only
  rw [if_pos hlt]
  generalize hhalf : (l.count + r.count) / 2 = half at *
  refine ⟨⟨?_, rfl, fun i h₁ h₂ => ?_, fun i h₁ h₂ => ?_⟩,
    ⟨?_, ?_, fun i h₁ h₂ => ?_, fun i h₁ h₂ => ?_⟩, ?_⟩
  · exact (forUp_takeStep_isleaf ..).trans hleft
  · rw [Int.zero_add]
    refine (forUp_takeStep_key ..).trans ?_
    rcases lt_trichotomy i l.count with hi | hi | hi
    · rw [if_neg (by omega), PageOf.setKey_key_ne _ (by omega), h.key_left h₁ hi]
    · rw [if_neg (by omega), hi, PageOf.setKey_key_self, h.key]
    · rw [if_pos (by omega), h.key_right hi (by omega)]
  · rw [Int.zero_add]
    by_cases hi : i = half
    · refine hi ▸ (PageOf.setChild_child_self ..).trans ?_
      rw [h.child_right (by omega) (by omega)]
      congr 1
      omega
    · refine (PageOf.setChild_child_ne _ hi _).trans ((forUp_takeStep_child ..).trans ?_)
      by_cases hil : i ≤ l.count
      · rw [if_neg (by omega), h.child_left h₁ hil]
        rfl
      · rw [if_pos (by omega), h.child_right (by omega) (by omega)]
  · exact (forUp_frame (f := moveDown (half - l.count)) (π := fun p : BTPage α => p.isleaf)
      (fun _ _ => rfl) _ _ _).trans hright
  · dsimp only
    omega
  · refine (forUp_moveDown_key (by omega) _ _ i h₁ (by omega)).trans ?_
    rw [h.key_right (by omega) (by omega)]
    show r.key _ = _
    congr 1
    omega
  · refine (forUp_moveDown_child (by omega) _ _ i h₁ (by omega)).trans ?_
    rw [h.child_right (by omega) (by omega)]
    by_cases hi : i = 0
    · rw [if_pos hi, PageOf.setChild_child_self]
      congr 1
      omega
    · rw [if_neg hi, PageOf.setChild_child_ne _ (by omega)]
      congr 1
      omega
  · rw [h.key_right (by omega) (by omega), show half - (l.count + 1) = half - l.count - 1 by omega]

/-- The left page gives to the right one. -/
theorem btRedistribute_give (h : Glued l r v (getLeastKey c (.page r))) (hr : 0 ≤ r.count)
    (hlt : (l.count + r.count) / 2 < l.count) :
    CutAt v ((l.count + r.count) / 2) (btRedistribute c l r).1 (btRedistribute c l r).2.1
      (btRedistribute c l r).2.2 := by
  have hv := h.count
  have hleft := h.left.isleaf
  have hright := h.right.isleaf
  unfold btRedistribute
  dsimp only
  rw [if_neg (by omega)]
  generalize hhalf : (l.count + r.count) / 2 = half at *
  have hd : 0 < l.count - half := by omega
  refine ⟨⟨?_, rfl, fun i h₁ h₂ => ?_, fun i h₁ h₂ => ?_⟩,
    ⟨?_, ?_, fun i h₁ h₂ => ?_, fun i h₁ h₂ => ?_⟩, ?_⟩
  · exact (forDown_giveStep_isleaf ..).1.trans hleft
  · rw [Int.zero_add, h.key_left h₁ (by omega)]
    refine (PageOf.setKey_key_ne _ (by omega) _).trans ?_
    exact (forDown_giveStep_fst _ _ _ i (by omega)).1
  · rw [Int.zero_add, h.child_left h₁ (by omega)]
    exact (forDown_giveStep_fst _ _ _ i (by omega)).2
  · refine (forDown_giveStep_isleaf ..).2.trans ?_
    exact (forDown_frame (f := moveUp (l.count - half)) (π := fun p : BTPage α => p.isleaf)
      (fun _ _ => rfl) _ _ _).trans hright
  · dsimp only
    omega
  · refine (forDown_giveStep_snd _ _ _ i h₁).1.trans ?_
    rcases lt_trichotomy i (l.count - half - 1) with hi | hi | hi
    · rw [if_pos (by omega), h.key_left (by omega) (by omega)]
      congr 1
      omega
    · rw [if_neg (by omega), hi, show half + 1 + (l.count - half - 1) = l.count by omega, h.key]
      exact PageOf.setKey_key_self ..
    · rw [if_neg (by omega), h.key_right (by omega) (by omega)]
      refine (PageOf.setKey_key_ne _ (by omega) _).trans ((forDown_moveUp_key hd _ _ i).trans ?_)
      rw [if_pos (by omega)]
      show r.key _ = _
      congr 1
      omega
  · refine (forDown_giveStep_snd _ _ _ i h₁).2.trans ?_
    rcases lt_trichotomy i (l.count - half - 1) with hi | hi | hi
    · rw [if_pos (by omega), h.child_left (by omega) (by omega)]
      congr 1
      omega
    · rw [if_neg (by omega), hi, show half + 1 + (l.count - half - 1) = l.count by omega,
        h.child_left (by omega) le_rfl]
      exact PageOf.setChild_child_self ..
    · rw [if_neg (by omega), h.child_right (by omega) (by omega)]
      refine (PageOf.setChild_child_ne _ (by omega) _).trans
        ((forDown_moveUp_child hd _ _ i).trans ?_)
      by_cases hlast : i = r.count + (l.count - half)
      · rw [if_neg (by omega), hlast, PageOf.setChild_child_self]
        congr 1
        omega
      · rw [if_pos (by omega), PageOf.setChild_child_ne _ (by omega)]
        congr 1
        omega
  · rw [h.key_left (by omega) hlt]
    exact (forDown_giveStep_fst _ _ _ half (by omega)).1

end Redistribute

/-- **Redistribution cuts the glued page elsewhere**, in its middle, as long as the
two pages differ in size enough for anything to move. -/
theorem btRedistribute_spec {l r v : BTPage α} (h : Glued l r v (getLeastKey c (.page r)))
    (hl : 0 ≤ l.count) (hr : 0 ≤ r.count) (hne : (l.count + r.count) / 2 ≠ l.count) :
    CutAt v ((l.count + r.count) / 2) (btRedistribute c l r).1 (btRedistribute c l r).2.1
      (btRedistribute c l r).2.2 := by
  rcases lt_or_gt_of_ne hne with hlt | hgt
  · exact btRedistribute_give h hr hlt
  · exact btRedistribute_take h hl hgt

end Mungi
