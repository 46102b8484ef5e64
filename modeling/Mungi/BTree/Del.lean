import Mungi.BTree.Delete
import Mungi.BTree.Ins

/-!
# Deletion is set deletion

What one call of `BTDelete` can do to a page is said once, by `DeleteOutcome`, and
proved by induction on the height of the page; `BTDel` follows.  As a function on
trees deletion is right throughout.  It does not always return, though: `free_page`
looks at the wrong bit of the bitmap for most pages, and panics when that bit is
clear.  Which pages a deletion frees is known from the occupancy of the pages on the
way alone, `freed`.

## Main definitions

* `underflows`, `freed` — from the tree and the key alone: a page is going to
  underflow, and the pages that are going to be freed, in order.
* `DeleteOutcome` — what `BTDelete` can do.
* `DelSpec` — what `BTDel` is to do.

## Main results

* `btRepair_spec` — an underflowing child is repaired.
* `btDelete_outcome`, `btDel_outcome` — what the functions can do.
* `btDel_spec_iff` — **when deletion is right.**
* `btDel_wrong_bit` — a tree on which it is not.
-/

namespace Mungi

open Cat ForLoop

variable {α : Type} {c : BTConf α}

/-! ### What is going to be freed -/

/-- Deleting key `k` leaves the page with less than `BT_MINKEY` keys. -/
def underflows (c : BTConf α) (k : ℕ) : BTPtr α → Bool
  | .null => false
  | .obj _ => false
  | .page ⟨idx, count, isleaf, key, child⟩ =>
      let p : BTPage α := ⟨idx, count, isleaf, key, child⟩
      let hi := (p.search k).1
      decide (count ≤ c.btMinkey) && (isleaf ||
        (underflows c k (child hi) && decide ((child (p.sibling hi)).count ≤ c.btMinkey)))

/-- Deleting key `k` collapses the child found with a sibling that has no key to
spare. -/
def collapses (c : BTConf α) (k : ℕ) (p : BTPage α) : Bool :=
  underflows c k (p.child (p.search k).1) &&
    decide ((p.child (p.sibling (p.search k).1)).count ≤ c.btMinkey)

/-- The pages `BTDelete` frees when key `k` is deleted below a page, in order. -/
def freedBelow (c : BTConf α) (k : ℕ) : BTPtr α → List ℕ
  | .null => []
  | .obj _ => []
  | .page ⟨idx, count, isleaf, key, child⟩ =>
      let p : BTPage α := ⟨idx, count, isleaf, key, child⟩
      let hi := (p.search k).1
      if isleaf then []
      else freedBelow c k (child hi) ++
        if collapses c k p then [(child (max hi (p.sibling hi))).idx] else []

/-- The pages `BTDel` frees when key `k` is deleted, in order. -/
def freed (c : BTConf α) (k : ℕ) : BTPtr α → List ℕ
  | .page p => freedBelow c k (.page p) ++
      if (p.isleaf = true ∧ p.count = 0) ∨
        (p.isleaf = false ∧ collapses c k p = true ∧ p.count = 1) then [p.idx] else []
  | _ => []

theorem underflows_page (p : BTPage α) (k : ℕ) : underflows c k (.page p)
    = (decide (p.count ≤ c.btMinkey) && (p.isleaf || collapses c k p)) := rfl

theorem freedBelow_page (p : BTPage α) (k : ℕ) : freedBelow c k (.page p)
    = if p.isleaf then [] else freedBelow c k (p.child (p.search k).1) ++
      if collapses c k p then [(p.child (max (p.search k).1 (p.sibling (p.search k).1))).idx]
      else [] := rfl

/-! ### Two neighbours in a page -/

/-- The objects of a page, those of two neighbouring children singled out. -/
theorem toList_two (p : BTPage α) {i : ℤ} (h₁ : 0 ≤ i) (h₂ : i < p.count) :
    (BTPtr.page p).toList = cat (fun i => (p.child i).toList) 0 i.toNat
      ++ ((p.child i).toList ++ (p.child (i + 1)).toList)
      ++ cat (fun i => (p.child i).toList) (i + 2) (p.count - (i + 1)).toNat := by
  have hcut := cat_split (fun i => (p.child i).toList) (show i + 1 ≤ i + 2 by omega)
    (show i + 2 ≤ p.count + 1 by omega)
  rw [show (i + 2 - (i + 1)).toNat = 1 by omega, cat_one,
    show p.count + 1 - (i + 1) = p.count - i by omega,
    show p.count + 1 - (i + 2) = p.count - (i + 1) by omega] at hcut
  rw [toList_focus p h₁ (by omega), hcut]
  simp only [List.append_assoc]

section TwoPages
variable {n : ℕ} {p l r l' r' : BTPage α} {i : ℤ}

/-- Two neighbours replaced by two others. -/
theorem toList_setChild_two (h₁ : 0 ≤ i) (h₂ : i < p.count) (hl : p.child i = .page l)
    (hr : p.child (i + 1) = .page r) (k : ℕ)
    (hlr : (BTPtr.page l').toList ++ (BTPtr.page r').toList
      = (BTPtr.page l).toList ++ (BTPtr.page r).toList) :
    (BTPtr.page (((p.setChild i (.page l')).setChild (i + 1) (.page r')).setKey i k)).toList
      = (BTPtr.page p).toList := by
  have hlo : cat (fun j => (((p.setChild i (.page l')).setChild (i + 1) (.page r')).child j).toList)
      0 i.toNat = cat (fun j => (p.child j).toList) 0 i.toNat :=
    cat_congr fun j hj₁ hj₂ => by
      rw [PageOf.setChild_child_ne _ (by omega), PageOf.setChild_child_ne _ (by omega)]
  have hhi : cat (fun j => (((p.setChild i (.page l')).setChild (i + 1) (.page r')).child j).toList)
      (i + 2) (p.count - (i + 1)).toNat
      = cat (fun j => (p.child j).toList) (i + 2) (p.count - (i + 1)).toNat :=
    cat_congr fun j hj₁ hj₂ => by
      rw [PageOf.setChild_child_ne _ (by omega), PageOf.setChild_child_ne _ (by omega)]
  rw [toList_setKey, toList_two _ h₁ (by simpa using h₂), toList_two p h₁ h₂,
    PageOf.setChild_child_self, PageOf.setChild_child_ne _ (by omega), PageOf.setChild_child_self,
    hl, hr, hlr]
  simp only [PageOf.setChild_count]
  rw [hlo, hhi]

theorem exact_setChild_two (h₁ : 0 ≤ i) (hl : p.child i = .page l) {k : ℕ}
    (hlr : (BTPtr.page l').toList ++ (BTPtr.page r').toList
      = (BTPtr.page l).toList ++ (BTPtr.page r).toList)
    (hne : (BTPtr.page l).toList ≠ []) (hne' : (BTPtr.page l').toList ≠ [])
    (hk : k = c.leastBase (BTPtr.page r').toList) (hp : Exact c (.page p))
    (hl' : Exact c (.page l')) (hr' : Exact c (.page r')) :
    Exact c (.page (((p.setChild i (.page l')).setChild (i + 1) (.page r')).setKey i k)) := by
  have hleast : c.leastBase (BTPtr.page l').toList = c.leastBase (BTPtr.page l).toList := by
    rw [← BTConf.leastBase_append hne' (BTPtr.page r').toList, hlr,
      BTConf.leastBase_append hne]
  rw [exact_page] at hp ⊢
  refine ⟨fun j hj₁ hj₂ => ?_, fun j hj₁ hj₂ => ?_⟩
  · change j < p.count at hj₂
    rw [PageOf.setKey_child]
    by_cases hji : j = i
    · subst hji
      rw [PageOf.setKey_key_self, PageOf.setChild_child_self, hk]
    · rw [PageOf.setKey_key_ne _ hji, PageOf.setChild_child_ne _ (by omega), PageOf.setChild_key,
        PageOf.setChild_key, hp.1 j hj₁ hj₂]
      by_cases hji' : j + 1 = i
      · rw [hji', PageOf.setChild_child_self, hl, hleast]
      · rw [PageOf.setChild_child_ne _ hji']
  · change j ≤ p.count at hj₂
    rw [PageOf.setKey_child]
    by_cases hji : j = i + 1
    · subst hji
      rwa [PageOf.setChild_child_self]
    · rw [PageOf.setChild_child_ne _ hji]
      by_cases hji' : j = i
      · subst hji'
        rwa [PageOf.setChild_child_self]
      · rw [PageOf.setChild_child_ne _ hji']
        exact hp.2 j hj₁ hj₂

end TwoPages

/-! ### The repairs -/

/-- Neighbours of one shape, glued together by `BTCollapse`. -/
theorem btCollapse_spec (hc : c.Odd) {n : ℕ} {l r : BTPage α} (hl : Shape c n l)
    (hr : Shape c n r) (hlc : 0 ≤ l.count) (hrc : 0 ≤ r.count) :
    Glued l r (btCollapse c l r) (getLeastKey c (.page r)) ∧ Shape c n (btCollapse c l r) ∧
      (BTPtr.page (btCollapse c l r)).toList = (BTPtr.page l).toList ++ (BTPtr.page r).toList ∧
      (Exact c (.page l) → Exact c (.page r) → Exact c (.page (btCollapse c l r))) := by
  have hmM := hc.bounds
  have hglued := btCollapse_glued (c := c) l r
    (by rw [(shape_iff.mp hl).1, (shape_iff.mp hr).1]) hrc
  refine ⟨hglued, hglued.shape hl hr, hglued.toList hlc hrc, fun hel her => hglued.exact hel her ?_⟩
  rw [getLeastKey_eq (by omega) hr hrc, hr.leastBase_page (by omega) hrc]

/-- Two pages that a page was cut into. -/
theorem CutAt.spec (hc : c.Odd) {n : ℕ} {v l r : BTPage α} {a : ℤ} {k : ℕ} (h : CutAt v a l r k)
    (hv : Shape c n v) (h₁ : 0 ≤ a) (h₂ : a < v.count) :
    Shape c n l ∧ Shape c n r ∧
      (BTPtr.page v).toList = (BTPtr.page l).toList ++ (BTPtr.page r).toList ∧
      (Exact c (.page v) → Exact c (.page l) ∧ Exact c (.page r) ∧
        k = c.leastBase (BTPtr.page r).toList) := by
  have hmM := hc.bounds
  have hr := h.right.shape (by omega) (by omega) hv
  refine ⟨h.left.shape le_rfl (by omega) hv, hr, h.left.toList_eq_append h.right h₁ h₂,
    fun he => ⟨h.left.exact le_rfl (by omega) he, h.right.exact (by omega) (by omega) he, ?_⟩⟩
  have hrc := h.right.count
  have hch := h.right.child 0 le_rfl (by omega)
  rw [Int.add_zero] at hch
  rw [h.key, (exact_page.mp he).1 a h₁ h₂, hr.leastBase_page (by omega) (by omega), hch]

section Repair
variable {n : ℕ} {p l r : BTPage α} {i : ℤ} (hc : c.Odd) (hleaf : p.isleaf = false) (h₁ : 0 ≤ i)
  (h₂ : i < p.count) (hl : p.child i = .page l) (hr : p.child (i + 1) = .page r)
  (hsl : Shape c n l) (hsr : Shape c n r) (hlc : 0 ≤ l.count) (hrc : 0 ≤ r.count)
  (hoth : ∀ j, 0 ≤ j → j ≤ p.count → j ≠ i → j ≠ i + 1 → ChildShape c (n + 1) (p.child j))
include hc hleaf h₁ h₂ hl hr hsl hsr hlc hrc hoth

/-- Two neighbours redistributed. -/
theorem redistribute_two (hne : (l.count + r.count) / 2 ≠ l.count)
    (hmin : c.btMinkey ≤ (l.count + r.count) / 2)
    (hmax : l.count + r.count - (l.count + r.count) / 2 ≤ c.btMaxkey) :
    let s := btRedistribute c l r
    let p' := ((p.setChild i (.page s.1)).setChild (i + 1) (.page s.2.1)).setKey i s.2.2
    Shape c (n + 1) p' ∧ (BTPtr.page p').toList = (BTPtr.page p).toList ∧
      (Exact c (.page p) → Exact c (.page p')) := by
  intro s p'
  have hmM := hc.bounds
  obtain ⟨hglued, hv, hvlist, hvexact⟩ := btCollapse_spec hc hsl hsr hlc hrc
  have hvc := hglued.count
  have hcut := btRedistribute_spec hglued hlc hrc hne
  obtain ⟨hs₁, hs₂, hslist, hsexact⟩ := hcut.spec hc hv (by omega) (by omega)
  have hc₁ : s.1.count = (l.count + r.count) / 2 := hcut.left.count
  have hc₂ : s.2.1.count = _ := hcut.right.count
  have hlist : (BTPtr.page s.1).toList ++ (BTPtr.page s.2.1).toList
      = (BTPtr.page l).toList ++ (BTPtr.page r).toList := by rw [← hslist, hvlist]
  refine ⟨⟨hleaf, fun j hj₁ hj₂ => ?_⟩, toList_setChild_two h₁ h₂ hl hr _ hlist, fun he => ?_⟩
  · change j ≤ p.count at hj₂
    show ChildShape c (n + 1) _
    rw [PageOf.setKey_child]
    by_cases hji : j = i + 1
    · rw [hji, PageOf.setChild_child_self]
      exact ⟨s.2.1, rfl, hs₂, by omega, by omega⟩
    · rw [PageOf.setChild_child_ne _ hji]
      by_cases hji' : j = i
      · rw [hji', PageOf.setChild_child_self]
        exact ⟨s.1, rfl, hs₁, by omega, by omega⟩
      · rw [PageOf.setChild_child_ne _ hji']
        exact hoth j hj₁ hj₂ hji' hji
  · have hel : Exact c (.page l) := hl ▸ (exact_page.mp he).2 i h₁ (by omega)
    have her : Exact c (.page r) := hr ▸ (exact_page.mp he).2 (i + 1) (by omega) (by omega)
    obtain ⟨he₁, he₂, hk⟩ := hsexact (hvexact hel her)
    exact exact_setChild_two h₁ hl hlist (hsl.toList_ne_nil (by omega) hlc)
      (hs₁.toList_ne_nil (by omega) (show 0 ≤ s.1.count by omega)) hk he he₁ he₂

/-- Two neighbours collapsed. -/
theorem collapse_two (hmin : c.btMinkey ≤ l.count + r.count + 1)
    (hmax : l.count + r.count + 1 ≤ c.btMaxkey) :
    let p' := (btDeletePage c (p.setChild i (.page (btCollapse c l r))) i).2
    Shape c (n + 1) p' ∧ (BTPtr.page p').toList = (BTPtr.page p).toList ∧
      (Exact c (.page p) → Exact c (.page p')) := by
  intro p'
  have hmM := hc.bounds
  obtain ⟨hglued, hv, hvlist, hvexact⟩ := btCollapse_spec hc hsl hsr hlc hrc
  have hvc := hglued.count
  refine ⟨?_, ?_, fun he => ?_⟩
  · rw [shape_iff]
    refine ⟨(btDeletePage_isleaf _).trans hleaf, fun j hj₁ hj₂ => ?_⟩
    rw [btDeletePage_count, PageOf.setChild_count] at hj₂
    rw [btDeletePage_child _ (by omega) hj₁ (by rw [PageOf.setChild_count]; omega)]
    rcases lt_trichotomy j i with hlt | heq | hgt
    · rw [if_pos (by omega), PageOf.setChild_child_ne _ (by omega)]
      exact hoth j hj₁ (by omega) (by omega) (by omega)
    · rw [if_pos (by omega), heq, PageOf.setChild_child_self]
      exact ⟨_, rfl, hv, by omega, by omega⟩
    · rw [if_neg (by omega), PageOf.setChild_child_ne _ (by omega)]
      exact hoth (j + 1) (by omega) (by omega) (by omega) (by omega)
  · have hlo : cat (fun j => ((p.setChild i (.page (btCollapse c l r))).child j).toList) 0
        (i + 1).toNat = cat (fun j => (p.child j).toList) 0 i.toNat
          ++ (BTPtr.page (btCollapse c l r)).toList := by
      rw [show (i + 1).toNat = i.toNat + 1 by omega, cat_succ, Int.toNat_of_nonneg h₁, Int.zero_add,
        PageOf.setChild_child_self]
      congr 1
      exact cat_congr fun j hj₁ hj₂ => by rw [PageOf.setChild_child_ne _ (by omega)]
    have hhi : cat (fun j => ((p.setChild i (.page (btCollapse c l r))).child j).toList) (i + 2)
        (p.count - (i + 1)).toNat
        = cat (fun j => (p.child j).toList) (i + 2) (p.count - (i + 1)).toNat :=
      cat_congr fun j hj₁ hj₂ => by rw [PageOf.setChild_child_ne _ (by omega)]
    rw [btDeletePage_toList _ (by omega) (by rw [PageOf.setChild_count]; exact h₂), hlo,
      PageOf.setChild_count, hhi, hvlist, toList_two p h₁ h₂, hl, hr]
  · have hel : Exact c (.page l) := hl ▸ (exact_page.mp he).2 i h₁ (by omega)
    have her : Exact c (.page r) := hr ▸ (exact_page.mp he).2 (i + 1) (by omega) (by omega)
    refine btDeletePage_exact _ (he.setChild (hvexact hel her) fun _ _ => ?_) (by omega)
    rw [hvlist, hl, BTConf.leastBase_append (hsl.toList_ne_nil (by omega) hlc)]

end Repair

theorem sibling_cases (p : BTPage α) {hi : ℤ} (h₁ : 0 ≤ hi) (h₂ : hi ≤ p.count)
    (h₃ : 1 ≤ p.count) :
    (p.sibling hi = hi + 1 ∧ hi < p.count) ∨ (p.sibling hi = hi - 1 ∧ 0 < hi) := by
  unfold PageOf.sibling
  split_ifs <;> omega

/-- An underflowing child and its sibling are neighbours, the child on either side. -/
theorem exists_neighbours {n : ℕ} {p q : BTPage α} {hi : ℤ} (h₁ : 0 ≤ hi) (h₂ : hi ≤ p.count)
    (h₃ : 1 ≤ p.count) (hq : p.child hi = .page q) (hsq : Shape c n q)
    (hqc : q.count = c.btMinkey - 1)
    (hoth : ∀ j, 0 ≤ j → j ≤ p.count → j ≠ hi → ChildShape c (n + 1) (p.child j)) :
    ∃ i l r, (hi + p.sibling hi) / 2 = i ∧ min hi (p.sibling hi) = i ∧
      max hi (p.sibling hi) = i + 1 ∧ 0 ≤ i ∧ i < p.count ∧ p.child i = .page l ∧
      p.child (i + 1) = .page r ∧ Shape c n l ∧ Shape c n r ∧
      ((p.sibling hi = hi + 1 ∧ l.count = c.btMinkey - 1 ∧
          r.count = (p.child (p.sibling hi)).count ∧ c.btMinkey ≤ r.count ∧
          r.count ≤ c.btMaxkey) ∨
        (p.sibling hi = hi - 1 ∧ r.count = c.btMinkey - 1 ∧
          l.count = (p.child (p.sibling hi)).count ∧ c.btMinkey ≤ l.count ∧
          l.count ≤ c.btMaxkey)) ∧
      (∀ j, 0 ≤ j → j ≤ p.count → j ≠ i → j ≠ i + 1 → ChildShape c (n + 1) (p.child j)) := by
  rcases sibling_cases p h₁ h₂ h₃ with ⟨hs, hlt⟩ | ⟨hs, hpos⟩
  · obtain ⟨x, hx, hsx, hxmin, hxmax⟩ := hoth (hi + 1) (by omega) (by omega) (by omega)
    rw [hs]
    refine ⟨hi, q, x, by omega, by omega, by omega, h₁, hlt, hq, hx, hsq, hsx,
      Or.inl ⟨rfl, hqc, by rw [hx]; rfl, hxmin, hxmax⟩,
      fun j hj₁ hj₂ hji _ => hoth j hj₁ hj₂ hji⟩
  · obtain ⟨x, hx, hsx, hxmin, hxmax⟩ := hoth (hi - 1) (by omega) (by omega) (by omega)
    rw [hs]
    refine ⟨hi - 1, x, q, by omega, by omega, by omega, by omega, by omega, hx,
      by rw [Int.sub_add_cancel]; exact hq, hsx, hsq,
      Or.inr ⟨rfl, hqc, by rw [hx]; rfl, hxmin, hxmax⟩,
      fun j hj₁ hj₂ _ hji => hoth j hj₁ hj₂ (by omega)⟩

/-- **An underflowing child is repaired**: from a sibling with a key to spare, or by
collapsing it with one that has none. -/
theorem btRepair_spec (hc : c.Odd) {n : ℕ} {p q : BTPage α} {hi : ℤ} (pool : PagePool)
    (hleaf : p.isleaf = false) (h₁ : 0 ≤ hi) (h₂ : hi ≤ p.count) (h₃ : 1 ≤ p.count)
    (hq : p.child hi = .page q) (hsq : Shape c n q) (hqc : q.count = c.btMinkey - 1)
    (hoth : ∀ j, 0 ≤ j → j ≤ p.count → j ≠ hi → ChildShape c (n + 1) (p.child j)) :
    ∃ p', Shape c (n + 1) p' ∧ (BTPtr.page p').toList = (BTPtr.page p).toList ∧
      (Exact c (.page p) → Exact c (.page p')) ∧ p'.idx = p.idx ∧
      ((c.btMinkey < (p.child (p.sibling hi)).count ∧ p'.count = p.count ∧
          btRepair c pool p hi = some (.ok, pool, p')) ∨
        ((p.child (p.sibling hi)).count ≤ c.btMinkey ∧ p'.count = p.count - 1 ∧
          btRepair c pool p hi = (freePage pool (p.child (max hi (p.sibling hi))).idx).map
            fun pool => (if p.count ≤ c.btMinkey then .lessThanMin else .ok, pool, p'))) := by
  have hmM := hc.bounds
  obtain ⟨i, l, r, hmed, hmin, hmax, hi₁, hi₂, hl, hr, hsl, hsr, hcount, hoth'⟩ :=
    exists_neighbours h₁ h₂ h₃ hq hsq hqc hoth
  unfold btRepair
  dsimp only
  rw [hmin, hmax, hmed, hl, hr]
  dsimp only
  by_cases hfat : (p.child (p.sibling hi)).count > c.btMinkey
  · rw [if_pos hfat]
    obtain ⟨hs, hlist, hexact⟩ := redistribute_two hc hleaf hi₁ hi₂ hl hr hsl hsr (by omega)
      (by omega) hoth' (by omega) (by omega) (by omega)
    exact ⟨_, hs, hlist, hexact, rfl, Or.inl ⟨hfat, rfl, rfl⟩⟩
  · rw [if_neg hfat]
    obtain ⟨hs, hlist, hexact⟩ := collapse_two hc hleaf hi₁ hi₂ hl hr hsl hsr (by omega)
      (by omega) hoth' (by omega) (by omega)
    refine ⟨_, hs, hlist, hexact, btDeletePage_idx _, Or.inr ⟨by omega, btDeletePage_count _, ?_⟩⟩
    rw [btDeletePage_ret, PageOf.setChild_count, BTPtr.idx_page]

/-! ### One call of `BTDelete` -/

/-- An object is below the child found for its base. -/
theorem mem_child_search (hc : c.Odd) {n : ℕ} {p : BTPage α} (hsh : Shape c n p)
    (h0 : 0 ≤ p.count) (he : Exact c (.page p)) (hs : (BTPtr.page p).toList.Pairwise c.Lt) {o : α}
    (ho : o ∈ (BTPtr.page p).toList) :
    o ∈ (p.child (p.search (c.btGetObjKey o)).1).toList := by
  have hmM := hc.bounds
  have hkeys := (exact_page.mp he).1
  obtain ⟨hb₁, hb₂⟩ := PageOf.search_bounds p (c.btGetObjKey o) h0
  obtain ⟨hlo, hup, -⟩ := PageOf.search_spec (fun i => hsh.child_ne_nil (by omega)) hkeys hs
    (c.btGetObjKey o) h0
  generalize (p.search (c.btGetObjKey o)).1 = hi at *
  obtain ⟨i, h₁, h₂, hoi⟩ := mem_toList_page.mp ho
  rcases lt_trichotomy i hi with hlt | heq | hgt
  · -- the first object of the child found would come after `o`
    have hle := hlo (by omega)
    rw [hkeys (hi - 1) (by omega) (by omega), Int.sub_add_cancel] at hle
    obtain ⟨x, hx, hbx⟩ := BTConf.exists_leastBase (c := c) (hsh.child_ne_nil (by omega) hb₁ hb₂)
    have hlt' : c.btGetObjKey o < c.btGetObjKey x := lt_of_mem_child hs h₁ hlt hb₂ hoi hx
    omega
  · exact heq ▸ hoi
  · have hlt := hup (by omega)
    rw [hkeys hi hb₁ (by omega)] at hlt
    obtain ⟨x, hx, hbx⟩ := BTConf.exists_leastBase (c := c)
      (hsh.child_ne_nil (by omega) (show 0 ≤ hi + 1 by omega) (by omega))
    rcases (show i = hi + 1 ∨ hi + 1 < i by omega) with hi' | hi'
    · have hle := BTConf.leastBase_le (pairwise_child hs (by omega) (by omega)) (hi' ▸ hoi)
      omega
    · have hlt' : c.btGetObjKey x < c.btGetObjKey o := lt_of_mem_child hs (by omega) hi' h₂ hx hoi
      omega

/-- Deleting key `k` leaves the page with one key less. -/
def shrinks (c : BTConf α) (k : ℕ) (p : BTPage α) : Bool := p.isleaf || collapses c k p

/-- **What `BTDelete` can do to a page** with `n` levels below it. -/
inductive DeleteOutcome (c : BTConf α) (n k : ℕ) (pool : PagePool) (p : BTPage α) :
    Option (BTDelRes α) → Prop
  /-- There is no object of that base, and nothing changes. -/
  | notFound (absent : Exact c (.page p) → (BTPtr.page p).toList.Pairwise c.Lt →
        ∀ o ∈ (BTPtr.page p).toList, c.btGetObjKey o ≠ k) :
      DeleteOutcome c n k pool p (some ⟨.notFound, pool, .page p, none⟩)
  /-- `free_page` panics. -/
  | panicked (o : α) (mem : o ∈ (BTPtr.page p).toList) (key : c.btGetObjKey o = k)
      (free : freePages pool (freedBelow c k (.page p)) = none) :
      DeleteOutcome c n k pool p none
  /-- The object is out. -/
  | deleted (q : BTPage α) (l₁ l₂ : List α) (o : α) (pool' : PagePool) (shape : Shape c n q)
      (idx : q.idx = p.idx) (count : q.count = if shrinks c k p then p.count - 1 else p.count)
      (key : c.btGetObjKey o = k) (old : (BTPtr.page p).toList = l₁ ++ o :: l₂)
      (new : (BTPtr.page q).toList = l₁ ++ l₂)
      (free : freePages pool (freedBelow c k (.page p)) = some pool')
      (exact : Exact c (.page p) → (BTPtr.page p).toList.Pairwise c.Lt → Exact c (.page q)) :
      DeleteOutcome c n k pool p
        (some ⟨if underflows c k (.page p) then .lessThanMin else .ok, pool', .page q, some o⟩)

/-- What `BTDelete` makes of an index page before any repair: the child replaced, and
the key in front of it looked up again if it was the one deleted. -/
def refresh (c : BTConf α) (k : ℕ) (p : BTPage α) (hi : ℤ) (q : BTPage α) : BTPage α :=
  if hi ≠ 0 ∧ p.key (hi - 1) = k then
    (p.setChild hi (.page q)).setKey (hi - 1) (getLeastKey c (.page q))
  else p.setChild hi (.page q)

theorem btDelete_page (k : ℕ) (pool : PagePool) (p : BTPage α) : btDelete c k pool (.page p) =
    if p.isleaf then
      match p.child (p.search k).1 with
      | .obj o =>
        if c.btGetObjKey o ≠ k then some ⟨.notFound, pool, .page p, none⟩
        else
          let s := btDeletePage c p ((p.search k).1 - 1)
          some ⟨s.1, pool, .page s.2, some o⟩
      | _ => some ⟨.notFound, pool, .page p, none⟩
    else (btDelete c k pool (p.child (p.search k).1)).bind (btDeleteReturn c k p (p.search k).1) :=
  rfl

/-- **`BTDelete` in a leaf.** -/
theorem btDelete_leaf (hc : c.Odd) {p : BTPage α} (k : ℕ) (pool : PagePool) (hsh : Shape c 0 p)
    (h0 : 0 ≤ p.count) : DeleteOutcome c 0 k pool p (btDelete c k pool (.page p)) := by
  obtain ⟨hb₁, hb₂⟩ := PageOf.search_bounds p k h0
  have hmem := fun he hs o ho => mem_child_search (c := c) hc (p := p) hsh h0 he hs (o := o) ho
  have hleaf := hsh.isleaf_zero
  have hund : underflows c k (.page p) = decide (p.count ≤ c.btMinkey) := by
    rw [underflows_page, hleaf, Bool.true_or, Bool.and_true]
  have hfree : freedBelow c k (.page p) = [] := by rw [freedBelow_page, if_pos hleaf]
  rw [btDelete_page, if_pos hleaf]
  obtain ⟨o, ho⟩ := hsh.2 _ hb₁ hb₂
  have hlist := toList_eq_lower_upper p hb₁ hb₂
  rw [ho] at hlist ⊢
  dsimp only
  by_cases hk : c.btGetObjKey o = k
  · rw [if_neg (not_not.mpr hk), btDeletePage_ret]
    have hret : (if p.count ≤ c.btMinkey then BTRet.lessThanMin else .ok)
        = if underflows c k (.page p) then .lessThanMin else .ok := by
      rw [hund]
      simp only [decide_eq_true_eq]
    rw [hret]
    refine .deleted _ (lower p (p.search k).1) (upper p (p.search k).1) o pool
      (btDeletePage_shape p hsh (by omega)) (btDeletePage_idx p) ?_ hk ?_ ?_ ?_
      fun he _ => btDeletePage_exact p he (by omega)
    · rw [btDeletePage_count, if_pos (by rw [shrinks, hleaf]; rfl)]
    · rw [hlist]
      simp
    · rw [btDeletePage_toList p (by omega) (by omega), Int.sub_add_cancel,
        show (p.search k).1 - 1 + 2 = (p.search k).1 + 1 by omega]
      rfl
    · rw [hfree]
      rfl
  · rw [if_pos hk]
    refine .notFound fun he hs x hx hkx => hk ?_
    subst hkx
    have hxc := hmem he hs x hx
    rw [ho, BTPtr.toList_obj, List.mem_singleton] at hxc
    rw [hxc]

section Refresh
variable {n k : ℕ} {p q : BTPage α} {hi : ℤ}

theorem refresh_count : (refresh c k p hi q).count = p.count := by
  unfold refresh
  split_ifs <;> rfl

theorem refresh_isleaf : (refresh c k p hi q).isleaf = p.isleaf := by
  unfold refresh
  split_ifs <;> rfl

theorem refresh_idx : (refresh c k p hi q).idx = p.idx := by
  unfold refresh
  split_ifs <;> rfl

theorem refresh_child : (refresh c k p hi q).child = (p.setChild hi (.page q)).child := by
  unfold refresh
  split_ifs <;> rfl

theorem refresh_child_self : (refresh c k p hi q).child hi = .page q := by
  rw [refresh_child, PageOf.setChild_child_self]

theorem refresh_child_ne {j : ℤ} (h : j ≠ hi) : (refresh c k p hi q).child j = p.child j := by
  rw [refresh_child, PageOf.setChild_child_ne _ h]

theorem refresh_sibling : (refresh c k p hi q).sibling hi = p.sibling hi := by
  unfold PageOf.sibling
  rw [refresh_count, refresh_child_ne (show hi - 1 ≠ hi by omega),
    refresh_child_ne (show hi + 1 ≠ hi by omega)]

theorem refresh_toList (h₁ : 0 ≤ hi) (h₂ : hi ≤ p.count) :
    (BTPtr.page (refresh c k p hi q)).toList
      = lower p hi ++ (BTPtr.page q).toList ++ upper p hi := by
  have h : (BTPtr.page (refresh c k p hi q)).toList
      = (BTPtr.page (p.setChild hi (.page q))).toList := by
    unfold refresh
    split_ifs
    · exact toList_setKey ..
    · rfl
  rw [h]
  exact toList_setChild p h₁ h₂ _

/-- The keys of the page are right again. -/
theorem refresh_exact (hc : c.Odd) (hp : Exact c (.page p)) (h₂ : hi ≤ p.count) {q₀ : BTPage α}
    (hq₀ : p.child hi = .page q₀) {l₁ l₂ : List α} {o : α}
    (hold : (BTPtr.page q₀).toList = l₁ ++ o :: l₂) (ho : c.btGetObjKey o = k)
    (hnew : (BTPtr.page q).toList = l₁ ++ l₂) (hsq : Shape c n q) (hqc : 0 ≤ q.count)
    (hq : Exact c (.page q)) : Exact c (.page (refresh c k p hi q)) := by
  have hmM := hc.bounds
  have hkeys := (exact_page.mp hp).1
  unfold refresh
  split_ifs with h
  · rw [exact_page] at hp ⊢
    refine ⟨fun j hj₁ hj₂ => ?_, fun j hj₁ hj₂ => ?_⟩
    · rw [PageOf.setKey_child]
      by_cases hj : j = hi - 1
      · subst hj
        rw [PageOf.setKey_key_self, Int.sub_add_cancel, PageOf.setChild_child_self,
          getLeastKey_eq (by omega) hsq hqc]
      · rw [PageOf.setKey_key_ne _ hj, PageOf.setChild_child_ne _ (by omega), PageOf.setChild_key]
        exact hp.1 j hj₁ hj₂
    · rw [PageOf.setKey_child]
      by_cases hj : j = hi
      · subst hj
        rwa [PageOf.setChild_child_self]
      · rw [PageOf.setChild_child_ne _ hj]
        exact hp.2 j hj₁ hj₂
  · refine hp.setChild hq fun hpos _ => ?_
    have hkey := hkeys (hi - 1) (by omega) (by omega)
    rw [Int.sub_add_cancel, hq₀, hold] at hkey
    rw [hnew, hq₀, hold]
    cases l₁ with
    | cons a l₁ => rfl
    | nil => exact absurd ⟨by omega, hkey.trans ho⟩ h

variable {pool : PagePool} {o : Option α}

theorem btDeleteReturn_ok : btDeleteReturn c k p hi ⟨.ok, pool, .page q, o⟩
    = some ⟨.ok, pool, .page (refresh c k p hi q), o⟩ := by
  simp [btDeleteReturn, refresh]

theorem btDeleteReturn_lessThanMin : btDeleteReturn c k p hi ⟨.lessThanMin, pool, .page q, o⟩
    = (btRepair c pool (refresh c k p hi q) hi).map fun s => ⟨s.1, s.2.1, .page s.2.2, o⟩ := by
  simp [btDeleteReturn, refresh]

theorem btDeleteReturn_notFound (hq : p.child hi = .page q) :
    btDeleteReturn c k p hi ⟨.notFound, pool, .page q, o⟩
      = some ⟨.notFound, pool, .page p, o⟩ := by
  have hsame : p.setChild hi (.page q) = p := by
    rw [← hq]
    unfold PageOf.setChild
    rw [Function.update_eq_self]
  simp [btDeleteReturn, hsame]

end Refresh

/-- **`BTDelete` in an index page.** -/
theorem btDelete_node (hc : c.Odd) {n : ℕ} {p : BTPage α} (k : ℕ) (pool : PagePool)
    (hsh : Shape c (n + 1) p) (h1 : 1 ≤ p.count)
    (ih : ∀ q : BTPage α, Shape c n q → c.btMinkey ≤ q.count →
      DeleteOutcome c n k pool q (btDelete c k pool (.page q))) :
    DeleteOutcome c (n + 1) k pool p (btDelete c k pool (.page p)) := by
  have hmM := hc.bounds
  have h0 : 0 ≤ p.count := by omega
  obtain ⟨hb₁, hb₂⟩ := PageOf.search_bounds p k h0
  have hmem := fun he hs o ho => mem_child_search (c := c) hc (p := p) hsh h0 he hs (o := o) ho
  have hleaf := hsh.isleaf_succ
  have hfree := freedBelow_page (c := c) p k
  have hund := underflows_page (c := c) p k
  have hshr : shrinks c k p = collapses c k p := by rw [shrinks, hleaf, Bool.false_or]
  rw [hleaf, Bool.false_or] at hund
  rw [hleaf, if_neg (by simp)] at hfree
  obtain ⟨q₀, hq₀, hsq₀, hqmin, hqmax⟩ := hsh.2 _ hb₁ hb₂
  have hlist := toList_eq_lower_upper p hb₁ hb₂
  have hcoll : collapses c k p = (underflows c k (p.child (p.search k).1) &&
    decide ((p.child (p.sibling (p.search k).1)).count ≤ c.btMinkey)) := rfl
  rw [btDelete_page, hleaf, if_neg (by simp)]
  rw [hq₀] at hlist hcoll hfree ⊢
  have hchild : Exact c (.page p) → (BTPtr.page p).toList.Pairwise c.Lt →
      Exact c (.page q₀) ∧ (BTPtr.page q₀).toList.Pairwise c.Lt := fun he hs =>
    ⟨hq₀ ▸ (exact_page.mp he).2 _ hb₁ hb₂, hq₀ ▸ pairwise_child hs hb₁ hb₂⟩
  have hout := ih q₀ hsq₀ hqmin
  generalize btDelete c k pool (.page q₀) = out at hout ⊢
  cases hout with
  | notFound absent =>
    rw [Option.bind_some, btDeleteReturn_notFound hq₀]
    refine .notFound fun he hs o ho hk => ?_
    subst hk
    exact absent (hchild he hs).1 (hchild he hs).2 o (hq₀ ▸ hmem he hs o ho) rfl
  | panicked o mem key free =>
    refine .panicked o ?_ key ?_
    · rw [hlist]
      simp [mem]
    · rw [hfree, freePages_append, free]
      rfl
  | deleted q l₁ l₂ o pool' shape idx count key old new free exact =>
    have hqc : 0 ≤ q.count := by
      rw [count]
      split_ifs <;> omega
    have hold' : (BTPtr.page p).toList
        = lower p (p.search k).1 ++ l₁ ++ o :: (l₂ ++ upper p (p.search k).1) := by
      rw [hlist, old]
      simp
    have hnew' : (BTPtr.page (refresh c k p (p.search k).1 q)).toList
        = lower p (p.search k).1 ++ l₁ ++ (l₂ ++ upper p (p.search k).1) := by
      rw [refresh_toList hb₁ hb₂, new]
      simp
    have hexact : Exact c (.page p) → (BTPtr.page p).toList.Pairwise c.Lt →
        Exact c (.page (refresh c k p (p.search k).1 q)) := fun he hs =>
      refresh_exact hc he hb₂ hq₀ old key new shape hqc
        (exact (hchild he hs).1 (hchild he hs).2)
    have hunder := underflows_page (c := c) q₀ k
    change _ = (decide (q₀.count ≤ c.btMinkey) && shrinks c k q₀) at hunder
    have hoth : ∀ j, 0 ≤ j → j ≤ p.count → j ≠ (p.search k).1 →
        ChildShape c (n + 1) ((refresh c k p (p.search k).1 q).child j) := fun j hj₁ hj₂ hj => by
      rw [refresh_child_ne hj]
      exact hsh.2 j hj₁ hj₂
    by_cases hu : underflows c k (.page q₀) = true
    · -- the child underflows
      rw [hu, Bool.true_and] at hcoll
      rw [hu, eq_comm, Bool.and_eq_true, decide_eq_true_eq] at hunder
      rw [hunder.2, if_pos rfl] at count
      obtain ⟨p', hsp', hlistp', hexactp', hidx, hcases⟩ := btRepair_spec hc
        (p := refresh c k p (p.search k).1 q) pool' (refresh_isleaf.trans hleaf) hb₁
        (by rwa [refresh_count]) (by rwa [refresh_count])
        refresh_child_self shape (by omega) (by rw [refresh_count]; exact hoth)
      rw [hu, if_pos rfl, Option.bind_some, btDeleteReturn_lessThanMin]
      rw [refresh_sibling] at hcases
      have hsib : (refresh c k p (p.search k).1 q).child (p.sibling (p.search k).1)
          = p.child (p.sibling (p.search k).1) :=
        refresh_child_ne (by rcases sibling_cases p hb₁ hb₂ h1 with h | h <;> omega)
      have hmaxidx : ((refresh c k p (p.search k).1 q).child
          (max (p.search k).1 (p.sibling (p.search k).1))).idx
            = (p.child (max (p.search k).1 (p.sibling (p.search k).1))).idx := by
        by_cases hm : max (p.search k).1 (p.sibling (p.search k).1) = (p.search k).1
        · rw [hm, refresh_child_self, hq₀]
          exact idx
        · rw [refresh_child_ne hm]
      rw [hsib, refresh_count, hmaxidx] at hcases
      rcases hcases with ⟨hfat, hpc, hr⟩ | ⟨hthin, hpc, hr⟩
      · have hc' : collapses c k p = false := by
          rw [hcoll, decide_eq_false_iff_not]
          omega
        rw [hr]
        simp only [Option.map_some]
        have hret : BTRet.ok = if underflows c k (.page p) then .lessThanMin else .ok := by
          rw [hund, hc', Bool.and_false]
          rfl
        rw [hret]
        refine .deleted p' _ _ o pool' hsp' (hidx.trans refresh_idx) ?_ key hold'
          (hlistp'.trans hnew') ?_ fun he hs => hexactp' (hexact he hs)
        · rw [hshr, hc', hpc]
          simp
        · rw [hfree, hc', freePages_append, free]
          rfl
      · have hc' : collapses c k p = true := by rw [hcoll, decide_eq_true hthin]
        have hfree' : freePages pool (freedBelow c k (.page p))
            = freePage pool' (p.child (max (p.search k).1 (p.sibling (p.search k).1))).idx := by
          rw [hfree, hc', freePages_append, free]
          simp [freePages]
        rw [hr]
        cases hf : freePage pool' (p.child (max (p.search k).1 (p.sibling (p.search k).1))).idx with
        | none => exact .panicked o (by rw [hold']; simp) key (hfree'.trans hf)
        | some pool'' =>
          simp only [Option.map_some]
          have hret : (if p.count ≤ c.btMinkey then BTRet.lessThanMin else .ok)
              = if underflows c k (.page p) then .lessThanMin else .ok := by
            rw [hund, hc', Bool.and_true]
            simp only [decide_eq_true_eq]
          rw [hret]
          refine .deleted p' _ _ o pool'' hsp' (hidx.trans refresh_idx) ?_ key hold'
            (hlistp'.trans hnew') (hfree'.trans hf) fun he hs => hexactp' (hexact he hs)
          rw [hshr, hc', hpc]
          simp
    · have hu' : underflows c k (.page q₀) = false := by rwa [Bool.not_eq_true] at hu
      rw [hu', Bool.false_and] at hcoll
      have hret : BTRet.ok = if underflows c k (.page p) then .lessThanMin else .ok := by
        rw [hund, hcoll, Bool.and_false]
        rfl
      have hqm : c.btMinkey ≤ q.count := by
        rw [hu', eq_comm, Bool.and_eq_false_iff, decide_eq_false_iff_not] at hunder
        rw [count]
        rcases hunder with h | h
        · split_ifs <;> omega
        · rw [h]
          simpa using hqmin
      have hqM : q.count ≤ c.btMaxkey := by
        rw [count]
        split_ifs <;> omega
      rw [hu', if_neg (by simp), Option.bind_some, btDeleteReturn_ok, hret]
      refine .deleted _ _ _ o pool' ⟨refresh_isleaf.trans hleaf, fun j hj₁ hj₂ => ?_⟩ refresh_idx ?_
        key hold' hnew' ?_ hexact
      · rw [refresh_count] at hj₂
        by_cases hj : j = (p.search k).1
        · rw [hj, refresh_child_self]
          exact ⟨q, rfl, shape, hqm, hqM⟩
        · exact hoth j hj₁ hj₂ hj
      · rw [hshr, hcoll, refresh_count]
        simp
      · rw [hfree, hcoll, freePages_append, free]
        rfl

/-- **One call of `BTDelete`**, on a page with any number of levels below it. -/
theorem btDelete_outcome (hc : c.Odd) (k : ℕ) (pool : PagePool) : ∀ {n : ℕ} (p : BTPage α),
    Shape c n p → 0 ≤ p.count → (0 < n → 1 ≤ p.count) →
      DeleteOutcome c n k pool p (btDelete c k pool (.page p)) := by
  have hmM := hc.bounds
  intro n
  induction n with
  | zero => exact fun p hsh h0 _ => btDelete_leaf hc k pool hsh h0
  | succ n ih =>
    exact fun p hsh _ h1 => btDelete_node hc k pool hsh (h1 (by omega))
      fun q hsq hq => ih q hsq (by omega) fun _ => by omega

/-! ### The whole tree -/

/-- **What `BTDel` can do to a tree.** -/
inductive DelOutcome (c : BTConf α) (k : ℕ) (t : BTree α) :
    Option (BTRet × BTree α × Option α) → Prop
  | notFound (absent : Exact c t.root → t.toList.Pairwise c.Lt →
        ∀ o ∈ t.toList, c.btGetObjKey o ≠ k) : DelOutcome c k t (some (.notFound, t, none))
  | panicked (o : α) (mem : o ∈ t.toList) (key : c.btGetObjKey o = k)
      (free : freePages t.pool (freed c k t.root) = none) : DelOutcome c k t none
  | deleted (t' : BTree α) (l₁ l₂ : List α) (o : α) (shaped : t'.Shaped c)
      (key : c.btGetObjKey o = k) (old : t.toList = l₁ ++ o :: l₂) (new : t'.toList = l₁ ++ l₂)
      (free : freePages t.pool (freed c k t.root) = some t'.pool)
      (exact : Exact c t.root → t.toList.Pairwise c.Lt → Exact c t'.root) :
      DelOutcome c k t (some (.ok, t', some o))

theorem btDel_page {t : BTree α} {p : BTPage α} (hroot : t.root = .page p) (k : ℕ) : btDel c t k =
    (btDelete c k t.pool (.page p)).bind fun r =>
      if r.ret = .lessThanMin then
        match r.current with
        | .page current => btDelReturn t.depth r.pool current r.obj
        | _ => some (.ok, { t with root := r.current, pool := r.pool }, r.obj)
      else some (r.ret, { t with root := r.current, pool := r.pool }, r.obj) := by
  obtain ⟨depth, root, pool⟩ := t
  dsimp only at hroot
  subst hroot
  rfl

theorem btDel_null {t : BTree α} (hroot : t.root = .null) (k : ℕ) :
    btDel c t k = some (.notFound, t, none) := by
  unfold btDel
  rw [hroot]

/-- **`BTDel` on a tree of any shape.** -/
theorem btDel_outcome (hc : c.Odd) {t : BTree α} (ht : t.Shaped c) (k : ℕ) :
    DelOutcome c k t (btDel c t k) := by
  have hmM := hc.bounds
  cases hroot : t.root with
  | obj o =>
    unfold BTree.Shaped at ht
    rw [hroot] at ht
    exact ht.elim
  | null =>
    rw [btDel_null hroot]
    refine .notFound fun _ _ o ho => ?_
    unfold BTree.toList at ho
    rw [hroot] at ho
    exact absurd ho (by simp)
  | page p =>
    have hlist : t.toList = (BTPtr.page p).toList := by
      unfold BTree.toList
      rw [hroot]
    unfold BTree.Shaped at ht
    rw [hroot] at ht
    obtain ⟨n, hdepth, hsh, h0, hmax, hpos⟩ := ht
    have hfreed : freed c k t.root = freedBelow c k (.page p) ++
        if (p.isleaf = true ∧ p.count = 0) ∨
          (p.isleaf = false ∧ collapses c k p = true ∧ p.count = 1) then [p.idx] else [] := by
      rw [hroot]
      rfl
    have hund : underflows c k (.page p) = (decide (p.count ≤ c.btMinkey) && shrinks c k p) := rfl
    rw [btDel_page hroot]
    have hout := btDelete_outcome hc k t.pool p hsh h0 hpos
    generalize btDelete c k t.pool (.page p) = out at hout ⊢
    cases hout with
    | notFound absent =>
      rw [Option.bind_some, if_neg (by simp)]
      have hsame : ({ t with root := .page p, pool := t.pool } : BTree α) = t := by rw [← hroot]
      dsimp only at hsame ⊢
      rw [hsame]
      exact .notFound fun he hs o ho => absent (hroot ▸ he) (hlist ▸ hs) o (hlist ▸ ho)
    | panicked o mem key free =>
      refine .panicked o (hlist ▸ mem) key ?_
      rw [hfreed, freePages_append, free]
      rfl
    | deleted q l₁ l₂ o pool' shape idx count key old new free exact =>
      have hshr : shrinks c k p = (p.isleaf || collapses c k p) := rfl
      -- unless a root is given up, the page stays the root
      have hkeep : 0 ≤ q.count → (0 < n → 1 ≤ q.count) →
          freed c k t.root = freedBelow c k (.page p) →
          DelOutcome c k t (some (.ok, ⟨t.depth, .page q, pool'⟩, some o)) := fun hq0 hq1 hf =>
        .deleted _ l₁ l₂ o ⟨n, hdepth, shape, hq0, by rw [count]; split_ifs <;> omega, hq1⟩ key
          (hlist.trans old) new (by rw [hf]; exact free)
          fun he hs => exact (hroot ▸ he) (hlist ▸ hs)
      by_cases hu : underflows c k (.page p) = true
      · rw [hu, if_pos rfl, Option.bind_some, if_pos rfl]
        dsimp only
        rw [hu, eq_comm, Bool.and_eq_true, decide_eq_true_eq] at hund
        rw [if_pos hund.2] at count
        unfold btDelReturn
        cases n with
        | zero =>
          have hleaf := hsh.isleaf_zero
          rw [if_pos shape.isleaf_zero]
          by_cases hneg : q.count < 0
          · -- the last object: the page is freed, and the tree empty
            have hf : freePages t.pool (freed c k t.root) = freePage pool' q.idx := by
              rw [hfreed, if_pos (Or.inl ⟨hleaf, by omega⟩), freePages_append, free, idx]
              simp [freePages]
            rw [if_pos hneg]
            cases hfp : freePage pool' q.idx with
            | none => exact .panicked o (by rw [hlist, old]; simp) key (hf.trans hfp)
            | some pool'' =>
              have hnil : l₁ ++ l₂ = [] := by
                rw [← new, toList_page, show (q.count + 1).toNat = 0 by omega]
                rfl
              exact .deleted _ l₁ l₂ o rfl key (hlist.trans old) hnil.symm (hf.trans hfp)
                fun _ _ => trivial
          · rw [if_neg hneg]
            refine hkeep (by omega) (by omega) ?_
            rw [hfreed, if_neg (by rw [hleaf]; rintro (h | h) <;> [omega; simp at h]),
              List.append_nil]
        | succ n =>
          have hleaf := hsh.isleaf_succ
          have hcoll : collapses c k p = true := by
            have := hund.2
            rwa [hshr, hleaf, Bool.false_or] at this
          have h1 := hpos (by omega)
          rw [shape.isleaf_succ, if_neg (by simp)]
          by_cases hz : q.count = 0
          · -- the root has one child left, which becomes the root
            have hf : freePages t.pool (freed c k t.root) = freePage pool' q.idx := by
              rw [hfreed, if_pos (Or.inr ⟨hleaf, hcoll, by omega⟩), freePages_append, free, idx]
              simp [freePages]
            rw [if_pos hz]
            cases hfp : freePage pool' q.idx with
            | none => exact .panicked o (by rw [hlist, old]; simp) key (hf.trans hfp)
            | some pool'' =>
              obtain ⟨x, hx, hsx, hxmin, hxmax⟩ := shape.2 0 le_rfl (by omega)
              have hxlist : (BTPtr.page q).toList = (BTPtr.page x).toList := by
                rw [toList_page, hz, ← hx]
                rfl
              simp only [Option.map_some, hx]
              refine .deleted _ l₁ l₂ o ⟨n, ?_, hsx, by omega, hxmax, fun _ => by omega⟩ key
                (hlist.trans old) (hxlist.symm.trans new) (hf.trans hfp) fun he hs => ?_
              · dsimp only
                omega
              · exact hx ▸ (exact_page.mp (exact (hroot ▸ he) (hlist ▸ hs))).2 0 le_rfl (by omega)
          · rw [if_neg hz]
            refine hkeep (by omega) (fun _ => by omega) ?_
            rw [hfreed, if_neg (by rw [hleaf]; rintro (h | h) <;> [simp at h; omega]),
              List.append_nil]
      · rw [if_neg hu, Option.bind_some, if_neg (by simp)]
        dsimp only
        rw [Bool.not_eq_true] at hu
        rw [hu, eq_comm, Bool.and_eq_false_iff, decide_eq_false_iff_not] at hund
        refine hkeep ?_ ?_ ?_
        · rw [count]
          rcases hund with h | h
          · split_ifs <;> omega
          · rw [h, if_neg (by simp)]
            exact h0
        · intro hn
          rw [count]
          rcases hund with h | h
          · split_ifs <;> omega
          · rw [h, if_neg (by simp)]
            exact hpos hn
        · rw [hfreed, if_neg, List.append_nil]
          rintro (⟨hl, h⟩ | ⟨hl, hcl, h⟩)
          · rcases hund with hm | hm
            · omega
            · rw [hshr, hl] at hm
              cases hm
          · rcases hund with hm | hm
            · omega
            · rw [hshr, hcl, Bool.or_true] at hm
              cases hm

/-- **What deleting a key from the table is to do.** -/
structure DelSpec (c : BTConf α) (t : BTree α) (k : ℕ)
    (res : Option (BTRet × BTree α × Option α)) : Prop where
  /-- It succeeds just when there is an object of that base. -/
  ok_iff : (∃ t' obj, res = some (.ok, t', obj)) ↔ ∃ o ∈ t.toList, c.btGetObjKey o = k
  /-- Then that object is taken out and handed back. -/
  deleted : ∀ t' obj, res = some (.ok, t', obj) → ∃ l₁ o l₂, obj = some o ∧ c.btGetObjKey o = k ∧
    t.toList = l₁ ++ o :: l₂ ∧ t'.toList = l₁ ++ l₂
  wf : ∀ t' obj, res = some (.ok, t', obj) → t'.WF c
  empty : ∀ t' obj, res = some (.ok, t', obj) → t'.toList = [] → t'.root = .null
  /-- Otherwise nothing changes. -/
  notFound : (∀ o ∈ t.toList, c.btGetObjKey o ≠ k) → res = some (.notFound, t, none)

/-- Only the empty tree holds no object. -/
theorem BTree.Shaped.root_null (hc : c.Odd) {t : BTree α} (ht : t.Shaped c)
    (hnil : t.toList = []) : t.root = .null := by
  have hmM := hc.bounds
  unfold BTree.Shaped at ht
  unfold BTree.toList at hnil
  cases hroot : t.root with
  | null => rfl
  | obj o => rw [hroot] at ht; exact ht.elim
  | page p =>
    rw [hroot] at ht hnil
    obtain ⟨n, -, hsh, h0, -⟩ := ht
    exact absurd hnil (hsh.toList_ne_nil (by omega) h0)

/-- **When deletion from the object table is right**: unless `free_page` finds the bit
it looks at clear for one of the pages that are freed. -/
theorem btDel_spec_iff (hc : c.Odd) {t : BTree α} (ht : t.WF c) (k : ℕ) :
    DelSpec c t k (btDel c t k) ↔
      ¬ ((∃ o ∈ t.toList, c.btGetObjKey o = k) ∧ freePages t.pool (freed c k t.root) = none) := by
  have hout := btDel_outcome hc ht.shaped k
  generalize btDel c t k = res at hout ⊢
  cases hout with
  | notFound absent =>
    have hno := absent ht.exact ht.sorted
    have hno' : ¬ ∃ o ∈ t.toList, c.btGetObjKey o = k := fun ⟨o, ho, hk⟩ => hno o ho hk
    exact iff_of_true ⟨iff_of_false (by simp) hno', by simp, by simp, by simp, fun _ => rfl⟩
      fun h => hno' h.1
  | panicked o mem key free =>
    refine iff_of_false (fun h => ?_) fun h => h ⟨⟨o, mem, key⟩, free⟩
    obtain ⟨t', obj, h'⟩ := h.ok_iff.mpr ⟨o, mem, key⟩
    cases h'
  | deleted t' l₁ l₂ o shaped key old new free exact =>
    have hmem : o ∈ t.toList := by
      rw [old]
      simp
    have hsorted : t'.toList.Pairwise c.Lt := by
      have hs := ht.sorted
      rw [old] at hs
      rw [new]
      exact hs.sublist (List.sublist_cons_self o l₂ |>.append_left l₁)
    refine iff_of_true ⟨iff_of_true ⟨t', some o, rfl⟩ ⟨o, hmem, key⟩, ?_, ?_, ?_,
      fun h => absurd key (h o hmem)⟩ fun h => by rw [free] at h; cases h.2
    · rintro t'' obj ⟨⟩
      exact ⟨l₁, o, l₂, rfl, key, old, new⟩
    · rintro t'' obj ⟨⟩
      exact ⟨shaped, exact ht.exact ht.sorted, hsorted⟩
    · rintro t'' obj ⟨⟩
      exact shaped.root_null hc

/-! ### The wrong bit -/

/-- Two leaves under a root, as many objects in them as there must be. -/
def twoLeaves : BTree (ℕ × ℕ) where
  depth := 2
  root := .page ⟨2, 1, false, fun i => 10 * (i + 1).toNat,
    fun i => .page (leafFrom i.toNat (10 * i.toNat) 2 2)⟩
  pool := ⟨64, 3, 0, fun i => if i = 0 then 7 else 0⟩

theorem twoLeaves_wf : twoLeaves.WF spans5 := by
  refine ⟨⟨1, rfl, ⟨rfl, fun i h₁ h₂ => ⟨_, rfl, leafFrom_shape ..,
    show (2 : ℤ) ≤ 2 from le_rfl, show (2 : ℤ) ≤ 4 by omega⟩⟩, by decide, by decide, by decide⟩,
    ⟨fun i h₁ h₂ => ?_, fun i h₁ h₂ => leafFrom_exact ..⟩, by decide⟩
  change i < 1 at h₂
  obtain rfl : i = 0 := by omega
  rfl

/-- A full leaf loses an object, and nothing is freed. -/
theorem btDel_spec_fullTree : DelSpec spans5 fullTree 22 (btDel spans5 fullTree 22) :=
  (btDel_spec_iff spans5_odd fullTree_wf 22).mpr (by decide)

/-- Deleting an object collapses the two leaves.  Page 1 is in use, but `free_page`
looks at bit 4 and panics. -/
theorem btDel_wrong_bit : twoLeaves.WF spans5 ∧ (2, 3) ∈ twoLeaves.toList ∧
    btDel spans5 twoLeaves 2 = none ∧ ¬ DelSpec spans5 twoLeaves 2 (btDel spans5 twoLeaves 2) := by
  have hnone : btDel spans5 twoLeaves 2 = none := by
    rw [← Option.isNone_iff_eq_none]
    decide
  refine ⟨twoLeaves_wf, by decide, hnone, fun h => ?_⟩
  obtain ⟨t', obj, h'⟩ := h.ok_iff.mpr ⟨(2, 3), by decide, rfl⟩
  rw [hnone] at h'
  cases h'

end Mungi
