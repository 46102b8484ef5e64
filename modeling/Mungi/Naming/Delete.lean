import Mungi.BTree.Del
import Mungi.Naming.Insert

/-!
# Deletion from a directory's tree

`BTDel` of the naming library is that of the object table, with pages that go back to the heap.  The
last loop of `BTRedistribute` runs once more than there are keys to move, too.  In a full right page
that turn takes the first child for a key, clears it, and clears the word behind the page; what is
left is no tree any more, and the model ends there.

`BTModify` finds an entry like `BTSearch` and hands out the address it is found at; what its callers
do next is to assign to it.

## Main definitions

* `nsBtDelete`, `nsBtDel`, `nsBtModify` — the functions of `btree.c`.
* `nsOverruns` — from the tree and the hash: a full right page is going to be left.
* `NsDeleteOutcome` — what `BTDelete` can do to a page.

## Main results

* `nsBtDelete_outcome`, `nsBtDel_outcome` — what the functions can do.
* `nsBtDel_spec_iff` — **when deletion is right.**
* `nsBtModify_spec` — an entry is replaced by one with the same hash.
-/

namespace Mungi.Naming

open Cat ForLoop

variable {α : Type}

/-! ### The code -/

/-- `BTRedistribute`; `none` when its last loop leaves the right page. -/
def nsBtRedistribute (c : BTConf α) (left right : BTPage α) :
    Option (BTPage α × BTPage α × ℕ) :=
  if left.count < (left.count + right.count) / 2 ∧ c.btMaxkey ≤ right.count then none
  else some (btRedistribute c left right)

/-- The repair of child `hi` in `BTDelete`. -/
def nsBtRepair (c : BTConf α) (current : BTPage α) (hi : ℤ) : Option (BTRet × BTPage α) :=
  let sibling := current.sibling hi
  let med := (hi + sibling) / 2
  match current.child (min hi sibling), current.child (max hi sibling) with
  | .page left, .page right =>
    if (current.child sibling).count > c.btMinkey then
      (nsBtRedistribute c left right).map fun s =>
        (.ok, ((current.setChild (min hi sibling) (.page s.1)).setChild (max hi sibling)
          (.page s.2.1)).setKey med s.2.2)
    else
      some (btDeletePage c
        (current.setChild (min hi sibling) (.page (btCollapse c left right))) med)
  | _, _ => none

/-- What `BTDelete` returns: its code, the page it was called on and `*obj`. -/
structure NsDelRes (α : Type) where
  ret : BTRet
  current : BTPtr α
  obj : Option α

/-- `BTDelete` in an index page, once the call on child `hi` is back. -/
def nsBtDeleteReturn (c : BTConf α) (k : ℕ) (current : BTPage α) (hi : ℤ) (r : NsDelRes α) :
    Option (NsDelRes α) :=
  let current := current.setChild hi r.current
  let current :=
    if hi ≠ 0 ∧ (r.ret = .ok ∨ r.ret = .lessThanMin) ∧ current.key (hi - 1) = k then
      current.setKey (hi - 1) (getLeastKey c r.current)
    else current
  if r.ret = .lessThanMin then
    (nsBtRepair c current hi).map fun s => { ret := s.1, current := .page s.2, obj := r.obj }
  else some { r with current := .page current }

/-- `BTDelete`.  An entry in the place of a page does not occur. -/
def nsBtDelete (c : BTConf α) (k : ℕ) : BTPtr α → Option (NsDelRes α)
  | .null => some { ret := .notFound, current := .null, obj := none }
  | .obj o => some { ret := .invalid, current := .obj o, obj := none }
  | .page ⟨idx, count, isleaf, key, child⟩ =>
      let current : BTPage α := ⟨idx, count, isleaf, key, child⟩
      let hi := (current.search k).1
      if isleaf then
        match child hi with
        | .obj o =>
          if c.btGetObjKey o ≠ k then
            some { ret := .notFound, current := .page current, obj := none }
          else
            let s := btDeletePage c current (hi - 1)
            some { ret := s.1, current := .page s.2, obj := some o }
        | _ => some { ret := .notFound, current := .page current, obj := none }
      else (nsBtDelete c k (child hi)).bind (nsBtDeleteReturn c k current hi)

/-- The end of `BTDel`, when the root page has less than `BT_MINKEY` keys left. -/
def nsBtDelReturn (depth : ℤ) (current : BTPage α) : NsTree α :=
  if current.isleaf then
    if current.count < 0 then { root := .null, depth := 0 }
    else { root := .page current, depth }
  else if current.count = 0 then { root := current.child 0, depth := depth - 1 }
  else { root := .page current, depth }

/-- `BTDel`: its code, the tree, and `*obj`; `none` when a page is left. -/
def nsBtDel (c : BTConf α) (t : NsTree α) (k : ℕ) : Option (BTRet × NsTree α × Option α) :=
  match t.root with
  | .null => some (.notFound, t, none)
  | root =>
    (nsBtDelete c k root).map fun r =>
      if r.ret = .lessThanMin then
        match r.current with
        | .page current => (.ok, nsBtDelReturn t.depth current, r.obj)
        | _ => (.ok, { t with root := r.current }, r.obj)
      else (r.ret, { t with root := r.current }, r.obj)

/-- The way down of `BTModify`, and the entry replaced. -/
def nsBtModifyPage (k : ℕ) (f : α → α) : BTPtr α → BTPtr α
  | .null => .null
  | .obj o => .obj o
  | .page ⟨idx, count, isleaf, key, child⟩ =>
      let current : BTPage α := ⟨idx, count, isleaf, key, child⟩
      let hi := (current.search k).1
      if isleaf then
        match child hi with
        | .obj o => .page (current.setChild hi (.obj (f o)))
        | _ => .page current
      else .page (current.setChild hi (nsBtModifyPage k f (child hi)))

/-- `BTModify`, and what `f` makes of the entry assigned through the address it hands out. -/
def nsBtModify (c : BTConf α) (t : NsTree α) (k : ℕ) (f : α → α) : BTRet × NsTree α :=
  match t.root with
  | .null => (.notFound, t)
  | root =>
    match btSearchPage c k root with
    | some o =>
      if c.btObjMatch o k then (.ok, { t with root := nsBtModifyPage k f root }) else (.notFound, t)
    | none => (.notFound, t)

/-! ### What can go wrong -/

/-- Deleting hash `k` gives an underflowing page keys from a full one to its right, on this page or
on a page below it. -/
def nsOverruns (c : BTConf α) (k : ℕ) : BTPtr α → Bool
  | .null => false
  | .obj _ => false
  | .page ⟨idx, count, isleaf, key, child⟩ =>
      let p : BTPage α := ⟨idx, count, isleaf, key, child⟩
      let hi := (p.search k).1
      !isleaf && (nsOverruns c k (child hi) ||
        (underflows c k (child hi) && decide (hi < p.sibling hi) &&
          decide ((child (p.sibling hi)).count = c.btMaxkey)))

variable {c : BTConf α}

theorem nsOverruns_page (p : BTPage α) (k : ℕ) :
    nsOverruns c k (.page p) = (!p.isleaf && (nsOverruns c k (p.child (p.search k).1) ||
      (underflows c k (p.child (p.search k).1) &&
        decide ((p.search k).1 < p.sibling (p.search k).1) &&
        decide ((p.child (p.sibling (p.search k).1)).count = c.btMaxkey)))) := rfl

/-! ### One call of `BTDelete` -/

/-- An underflowing child is repaired, unless its sibling is to the right and full. -/
theorem nsBtRepair_spec (hc : c.Odd) {n : ℕ} {p q : BTPage α} {hi : ℤ} (hleaf : p.isleaf = false)
    (h₁ : 0 ≤ hi) (h₂ : hi ≤ p.count) (h₃ : 1 ≤ p.count) (hq : p.child hi = .page q)
    (hsq : Shape c n q) (hqc : q.count = c.btMinkey - 1)
    (hoth : ∀ j, 0 ≤ j → j ≤ p.count → j ≠ hi → ChildShape c (n + 1) (p.child j)) :
    ∃ p', Shape c (n + 1) p' ∧ (BTPtr.page p').toList = (BTPtr.page p).toList ∧
      (Exact c (.page p) → Exact c (.page p')) ∧
      ((c.btMinkey < (p.child (p.sibling hi)).count ∧ p'.count = p.count ∧
          nsBtRepair c p hi =
            if hi < p.sibling hi ∧ (p.child (p.sibling hi)).count = c.btMaxkey then none
            else some (.ok, p')) ∨
        ((p.child (p.sibling hi)).count ≤ c.btMinkey ∧ p'.count = p.count - 1 ∧
          nsBtRepair c p hi = some (if p.count ≤ c.btMinkey then .lessThanMin else .ok, p'))) := by
  have hmM := hc.bounds
  obtain ⟨i, l, r, hmed, hmin, hmax, hi₁, hi₂, hl, hr, hsl, hsr, hcount, hoth'⟩ :=
    exists_neighbours h₁ h₂ h₃ hq hsq hqc hoth
  unfold nsBtRepair
  dsimp only
  rw [hmin, hmax, hmed, hl, hr]
  dsimp only
  by_cases hfat : (p.child (p.sibling hi)).count > c.btMinkey
  · rw [if_pos hfat]
    obtain ⟨hs, hlist, hexact⟩ := redistribute_two hc hleaf hi₁ hi₂ hl hr hsl hsr (by omega)
      (by omega) hoth' (by omega) (by omega) (by omega)
    refine ⟨_, hs, hlist, hexact, Or.inl ⟨hfat, rfl, ?_⟩⟩
    have hiff : (l.count < (l.count + r.count) / 2 ∧ c.btMaxkey ≤ r.count) ↔
        (hi < p.sibling hi ∧ (p.child (p.sibling hi)).count = c.btMaxkey) := by
      omega
    unfold nsBtRedistribute
    by_cases hout : hi < p.sibling hi ∧ (p.child (p.sibling hi)).count = c.btMaxkey
    · rw [if_pos (hiff.mpr hout), if_pos hout]
      rfl
    · rw [if_neg (mt hiff.mp hout), if_neg hout]
      rfl
  · rw [if_neg hfat]
    obtain ⟨hs, hlist, hexact⟩ := collapse_two hc hleaf hi₁ hi₂ hl hr hsl hsr (by omega)
      (by omega) hoth' (by omega) (by omega)
    refine ⟨_, hs, hlist, hexact, Or.inr ⟨by omega, btDeletePage_count _, ?_⟩⟩
    rw [← PageOf.setChild_count p i (.page (btCollapse c l r)), ← btDeletePage_ret]

/-- **What `BTDelete` can do to a page** with `n` levels below it. -/
inductive NsDeleteOutcome (c : BTConf α) (n k : ℕ) (p : BTPage α) : Option (NsDelRes α) → Prop
  /-- There is no entry with that hash, and nothing changes. -/
  | notFound (absent : Exact c (.page p) → (BTPtr.page p).toList.Pairwise c.Lt →
        ∀ o ∈ (BTPtr.page p).toList, c.btGetObjKey o ≠ k) :
      NsDeleteOutcome c n k p (some ⟨.notFound, .page p, none⟩)
  /-- A page is left. -/
  | outside (o : α) (mem : o ∈ (BTPtr.page p).toList) (key : c.btGetObjKey o = k)
      (overrun : nsOverruns c k (.page p) = true) : NsDeleteOutcome c n k p none
  /-- The entry is out. -/
  | deleted (q : BTPage α) (l₁ l₂ : List α) (o : α) (shape : Shape c n q)
      (count : q.count = if shrinks c k p then p.count - 1 else p.count)
      (key : c.btGetObjKey o = k) (old : (BTPtr.page p).toList = l₁ ++ o :: l₂)
      (new : (BTPtr.page q).toList = l₁ ++ l₂) (within : nsOverruns c k (.page p) = false)
      (exact : Exact c (.page p) → (BTPtr.page p).toList.Pairwise c.Lt → Exact c (.page q)) :
      NsDeleteOutcome c n k p
        (some ⟨if underflows c k (.page p) then .lessThanMin else .ok, .page q, some o⟩)

theorem nsBtDelete_page (k : ℕ) (p : BTPage α) : nsBtDelete c k (.page p) =
    if p.isleaf then
      match p.child (p.search k).1 with
      | .obj o =>
        if c.btGetObjKey o ≠ k then some ⟨.notFound, .page p, none⟩
        else
          let s := btDeletePage c p ((p.search k).1 - 1)
          some ⟨s.1, .page s.2, some o⟩
      | _ => some ⟨.notFound, .page p, none⟩
    else (nsBtDelete c k (p.child (p.search k).1)).bind (nsBtDeleteReturn c k p (p.search k).1) :=
  rfl

/-- **`BTDelete` in a leaf.** -/
theorem nsBtDelete_leaf (hc : c.Odd) {p : BTPage α} (k : ℕ) (hsh : Shape c 0 p)
    (h0 : 0 ≤ p.count) : NsDeleteOutcome c 0 k p (nsBtDelete c k (.page p)) := by
  obtain ⟨hb₁, hb₂⟩ := PageOf.search_bounds p k h0
  have hleaf := hsh.isleaf_zero
  have hund : underflows c k (.page p) = decide (p.count ≤ c.btMinkey) := by
    rw [underflows_page, hleaf, Bool.true_or, Bool.and_true]
  have hover : nsOverruns c k (.page p) = false := by
    rw [nsOverruns_page, hleaf]
    rfl
  rw [nsBtDelete_page, if_pos hleaf]
  obtain ⟨o, ho⟩ := hsh.2 _ hb₁ hb₂
  have hlist := toList_eq_lower_upper p hb₁ hb₂
  rw [ho] at hlist ⊢
  dsimp only
  by_cases hk : c.btGetObjKey o = k
  · rw [if_neg (not_not.mpr hk), btDeletePage_ret]
    have hret : (if p.count ≤ c.btMinkey then BTRet.lessThanMin else .ok)
        = if underflows c k (.page p) then .lessThanMin else .ok := by
      rw [hund]
      simp only [decide_eq_true_eq]
    rw [hret]
    refine .deleted _ (lower p (p.search k).1) (upper p (p.search k).1) o
      (btDeletePage_shape p hsh (by omega)) ?_ hk ?_ ?_ hover
      fun he _ => btDeletePage_exact p he (by omega)
    · rw [btDeletePage_count, if_pos (by rw [shrinks, hleaf]; rfl)]
    · rw [hlist]
      simp
    · rw [btDeletePage_toList p (by omega) (by omega), Int.sub_add_cancel,
        show (p.search k).1 - 1 + 2 = (p.search k).1 + 1 by omega]
      rfl
  · rw [if_pos hk]
    refine .notFound fun he hs x hx hkx => hk ?_
    subst hkx
    -- such an entry would be the one that was found
    have hxc := mem_child_search hc hsh h0 he hs hx
    rw [ho, BTPtr.toList_obj, List.mem_singleton] at hxc
    rw [hxc]

section Return
variable {k : ℕ} {p q : BTPage α} {hi : ℤ} {o : Option α}

theorem nsBtDeleteReturn_ok : nsBtDeleteReturn c k p hi ⟨.ok, .page q, o⟩
    = some ⟨.ok, .page (refresh c k p hi q), o⟩ := by
  simp [nsBtDeleteReturn, refresh]

theorem nsBtDeleteReturn_lessThanMin : nsBtDeleteReturn c k p hi ⟨.lessThanMin, .page q, o⟩
    = (nsBtRepair c (refresh c k p hi q) hi).map fun s => ⟨s.1, .page s.2, o⟩ := by
  simp [nsBtDeleteReturn, refresh]

theorem nsBtDeleteReturn_notFound (hq : p.child hi = .page q) :
    nsBtDeleteReturn c k p hi ⟨.notFound, .page q, o⟩ = some ⟨.notFound, .page p, o⟩ := by
  have hsame : p.setChild hi (.page q) = p := by
    rw [← hq]
    unfold PageOf.setChild
    rw [Function.update_eq_self]
  simp [nsBtDeleteReturn, hsame]

end Return

/-- **`BTDelete` in an index page.** -/
theorem nsBtDelete_node (hc : c.Odd) {n : ℕ} {p : BTPage α} (k : ℕ) (hsh : Shape c (n + 1) p)
    (h1 : 1 ≤ p.count)
    (ih : ∀ q : BTPage α, Shape c n q → c.btMinkey ≤ q.count →
      NsDeleteOutcome c n k q (nsBtDelete c k (.page q))) :
    NsDeleteOutcome c (n + 1) k p (nsBtDelete c k (.page p)) := by
  have hmM := hc.bounds
  have h0 : 0 ≤ p.count := by omega
  obtain ⟨hb₁, hb₂⟩ := PageOf.search_bounds p k h0
  have hleaf := hsh.isleaf_succ
  have hund := underflows_page (c := c) p k
  have hover := nsOverruns_page (c := c) p k
  have hshr : shrinks c k p = collapses c k p := by rw [shrinks, hleaf, Bool.false_or]
  rw [hleaf, Bool.false_or] at hund
  rw [hleaf, Bool.not_false, Bool.true_and] at hover
  obtain ⟨q₀, hq₀, hsq₀, hqmin, hqmax⟩ := hsh.2 _ hb₁ hb₂
  have hlist := toList_eq_lower_upper p hb₁ hb₂
  have hcoll : collapses c k p = (underflows c k (p.child (p.search k).1) &&
    decide ((p.child (p.sibling (p.search k).1)).count ≤ c.btMinkey)) := rfl
  rw [nsBtDelete_page, hleaf, if_neg (by simp)]
  rw [hq₀] at hlist hcoll hover ⊢
  have hchild : Exact c (.page p) → (BTPtr.page p).toList.Pairwise c.Lt →
      Exact c (.page q₀) ∧ (BTPtr.page q₀).toList.Pairwise c.Lt := fun he hs =>
    ⟨hq₀ ▸ (exact_page.mp he).2 _ hb₁ hb₂, hq₀ ▸ pairwise_child hs hb₁ hb₂⟩
  have hout := ih q₀ hsq₀ hqmin
  generalize nsBtDelete c k (.page q₀) = out at hout ⊢
  cases hout with
  | notFound absent =>
    rw [Option.bind_some, nsBtDeleteReturn_notFound hq₀]
    refine .notFound fun he hs o ho hk => ?_
    subst hk
    exact absent (hchild he hs).1 (hchild he hs).2 o (hq₀ ▸ mem_child_search hc hsh h0 he hs ho) rfl
  | outside o mem key overrun =>
    refine .outside o ?_ key ?_
    · rw [hlist]
      simp [mem]
    · rw [hover, overrun]
      rfl
  | deleted q l₁ l₂ o shape count key old new within exact =>
    have hqc : 0 ≤ q.count := by
      rw [count]
      split_ifs <;> omega
    have hold' : (BTPtr.page p).toList
        = lower p (p.search k).1 ++ l₁ ++ o :: (l₂ ++ upper p (p.search k).1) := by
      rw [hlist, old]
      simp
    have hnew' : (BTPtr.page (refresh c k p (p.search k).1 q)).toList
        = lower p (p.search k).1 ++ l₁ ++ (l₂ ++ upper p (p.search k).1) := by
      rw [refresh_toList hb₁ hb₂, new]
      simp
    have hexact : Exact c (.page p) → (BTPtr.page p).toList.Pairwise c.Lt →
        Exact c (.page (refresh c k p (p.search k).1 q)) := fun he hs =>
      refresh_exact hc he hb₂ hq₀ old key new shape hqc
        (exact (hchild he hs).1 (hchild he hs).2)
    have hunder := underflows_page (c := c) q₀ k
    change _ = (decide (q₀.count ≤ c.btMinkey) && shrinks c k q₀) at hunder
    rw [within, Bool.false_or] at hover
    have hoth : ∀ j, 0 ≤ j → j ≤ p.count → j ≠ (p.search k).1 →
        ChildShape c (n + 1) ((refresh c k p (p.search k).1 q).child j) := by
      intro j hj₁ hj₂ hj
      rw [refresh_child_ne hj]
      exact hsh.2 j hj₁ hj₂
    by_cases hu : underflows c k (.page q₀) = true
    · -- the child underflows
      rw [hu, Bool.true_and] at hcoll hover
      rw [hu, eq_comm, Bool.and_eq_true, decide_eq_true_eq] at hunder
      rw [hunder.2, if_pos rfl] at count
      obtain ⟨p', hsp', hlistp', hexactp', hcases⟩ := nsBtRepair_spec hc
        (p := refresh c k p (p.search k).1 q) (refresh_isleaf.trans hleaf) hb₁
        (by rwa [refresh_count]) (by rwa [refresh_count])
        refresh_child_self shape (by omega) (by rw [refresh_count]; exact hoth)
      rw [hu, if_pos rfl, Option.bind_some, nsBtDeleteReturn_lessThanMin]
      rw [refresh_sibling] at hcases
      have hsib : (refresh c k p (p.search k).1 q).child (p.sibling (p.search k).1)
          = p.child (p.sibling (p.search k).1) :=
        refresh_child_ne (by rcases sibling_cases p hb₁ hb₂ h1 with h | h <;> omega)
      rw [hsib, refresh_count] at hcases
      rcases hcases with ⟨hfat, hpc, hr⟩ | ⟨hthin, hpc, hr⟩
      · have hc' : collapses c k p = false := by
          rw [hcoll, decide_eq_false_iff_not]
          omega
        rw [hr]
        by_cases hfull : (p.search k).1 < p.sibling (p.search k).1 ∧
            (p.child (p.sibling (p.search k).1)).count = c.btMaxkey
        · rw [if_pos hfull]
          refine .outside o (by rw [hold']; simp) key ?_
          rw [hover, decide_eq_true hfull.1, decide_eq_true hfull.2]
          rfl
        · rw [if_neg hfull]
          simp only [Option.map_some]
          have hret : BTRet.ok = if underflows c k (.page p) then .lessThanMin else .ok := by
            rw [hund, hc', Bool.and_false]
            rfl
          rw [hret]
          refine .deleted p' _ _ o hsp' ?_ key hold' (hlistp'.trans hnew') ?_
            fun he hs => hexactp' (hexact he hs)
          · rw [hshr, hc', hpc]
            simp
          · rw [hover, ← Bool.decide_and, decide_eq_false hfull]
      · have hc' : collapses c k p = true := by rw [hcoll, decide_eq_true hthin]
        rw [hr]
        simp only [Option.map_some]
        have hret : (if p.count ≤ c.btMinkey then BTRet.lessThanMin else .ok)
            = if underflows c k (.page p) then .lessThanMin else .ok := by
          rw [hund, hc', Bool.and_true]
          simp only [decide_eq_true_eq]
        rw [hret]
        refine .deleted p' _ _ o hsp' ?_ key hold' (hlistp'.trans hnew') ?_
          fun he hs => hexactp' (hexact he hs)
        · rw [hshr, hc', hpc]
          simp
        · rw [hover, decide_eq_false (show ¬ (p.child (p.sibling (p.search k).1)).count =
            c.btMaxkey by omega), Bool.and_false]
    · have hu' : underflows c k (.page q₀) = false := by rwa [Bool.not_eq_true] at hu
      rw [hu', Bool.false_and] at hcoll
      have hret : BTRet.ok = if underflows c k (.page p) then .lessThanMin else .ok := by
        rw [hund, hcoll, Bool.and_false]
        rfl
      have hqm : c.btMinkey ≤ q.count := by
        rw [hu', eq_comm, Bool.and_eq_false_iff, decide_eq_false_iff_not] at hunder
        rw [count]
        rcases hunder with h | h
        · split_ifs <;> omega
        · rw [h]
          simpa using hqmin
      have hqM : q.count ≤ c.btMaxkey := by
        rw [count]
        split_ifs <;> omega
      rw [hu', if_neg (by simp), Option.bind_some, nsBtDeleteReturn_ok, hret]
      refine .deleted _ _ _ o ⟨refresh_isleaf.trans hleaf, fun j hj₁ hj₂ => ?_⟩ ?_ key hold' hnew'
        ?_ hexact
      · rw [refresh_count] at hj₂
        by_cases hj : j = (p.search k).1
        · rw [hj, refresh_child_self]
          exact ⟨q, rfl, shape, hqm, hqM⟩
        · exact hoth j hj₁ hj₂ hj
      · rw [hshr, hcoll, refresh_count]
        simp
      · rw [hover, hu', Bool.false_and, Bool.false_and]

/-- **One call of `BTDelete`**, on a page with any number of levels below it. -/
theorem nsBtDelete_outcome (hc : c.Odd) (k : ℕ) : ∀ {n : ℕ} (p : BTPage α), Shape c n p →
    0 ≤ p.count → (0 < n → 1 ≤ p.count) → NsDeleteOutcome c n k p (nsBtDelete c k (.page p)) := by
  have hmM := hc.bounds
  intro n
  induction n with
  | zero => exact fun p hsh h0 _ => nsBtDelete_leaf hc k hsh h0
  | succ n ih =>
    intro p hsh _ h1
    refine nsBtDelete_node hc k hsh (h1 (by omega)) fun q hsq hq => ?_
    exact ih q hsq (by omega) fun _ => by omega

/-! ### The whole tree -/

/-- **What `BTDel` can do to a tree.** -/
inductive NsDelOutcome (c : BTConf α) (k : ℕ) (t : NsTree α) :
    Option (BTRet × NsTree α × Option α) → Prop
  | notFound (absent : ∀ o ∈ t.toList, c.btGetObjKey o ≠ k) :
      NsDelOutcome c k t (some (.notFound, t, none))
  | outside (o : α) (mem : o ∈ t.toList) (key : c.btGetObjKey o = k)
      (overrun : nsOverruns c k t.root = true) : NsDelOutcome c k t none
  | deleted (t' : NsTree α) (l₁ l₂ : List α) (o : α) (wf : t'.WF c) (key : c.btGetObjKey o = k)
      (old : t.toList = l₁ ++ o :: l₂) (new : t'.toList = l₁ ++ l₂)
      (within : nsOverruns c k t.root = false) : NsDelOutcome c k t (some (.ok, t', some o))

theorem nsBtDel_page {t : NsTree α} {p : BTPage α} (hroot : t.root = .page p) (k : ℕ) :
    nsBtDel c t k = (nsBtDelete c k (.page p)).map fun r =>
      if r.ret = .lessThanMin then
        match r.current with
        | .page current => (.ok, nsBtDelReturn t.depth current, r.obj)
        | _ => (.ok, { t with root := r.current }, r.obj)
      else (r.ret, { t with root := r.current }, r.obj) := by
  obtain ⟨root, depth⟩ := t
  dsimp only at hroot
  subst hroot
  rfl

/-- What becomes of a root page that has less than `BT_MINKEY` keys left. -/
theorem nsBtDelReturn_spec (hc : c.Odd) {n : ℕ} {q : BTPage α} {depth : ℤ} (hdepth : depth = n + 1)
    (hsh : Shape c n q) (hlow : -1 ≤ q.count) (hnode : 0 < n → 0 ≤ q.count)
    (hmax : q.count ≤ c.btMaxkey) :
    (nsBtDelReturn depth q).Shaped c ∧ (nsBtDelReturn depth q).toList = (BTPtr.page q).toList ∧
      (Exact c (.page q) → Exact c (nsBtDelReturn depth q).root) := by
  have hmM := hc.bounds
  unfold nsBtDelReturn
  cases n with
  | zero =>
    rw [if_pos hsh.isleaf_zero]
    by_cases hneg : q.count < 0
    · -- the last entry is gone
      rw [if_pos hneg]
      refine ⟨rfl, ?_, fun _ => trivial⟩
      rw [toList_page, show (q.count + 1).toNat = 0 by omega]
      rfl
    · rw [if_neg hneg]
      exact ⟨⟨0, hdepth, hsh, by omega, hmax, by omega⟩, rfl, id⟩
  | succ n =>
    have h0 := hnode (by omega)
    rw [hsh.isleaf_succ, if_neg (by simp)]
    by_cases hz : q.count = 0
    · -- the root has one child left, which becomes the root
      rw [if_pos hz]
      obtain ⟨x, hx, hsx, hxmin, hxmax⟩ := hsh.2 0 le_rfl h0
      refine ⟨?_, ?_, fun he => (exact_page.mp he).2 0 le_rfl h0⟩
      · unfold NsTree.Shaped
        dsimp only
        rw [hx]
        exact ⟨n, by omega, hsx, by omega, hxmax, fun _ => by omega⟩
      · rw [toList_page, hz]
        rfl
    · rw [if_neg hz]
      exact ⟨⟨n + 1, hdepth, hsh, h0, hmax, fun _ => by omega⟩, rfl, id⟩

/-- **`BTDel` on a well-formed tree.** -/
theorem nsBtDel_outcome (hc : c.Odd) {t : NsTree α} (ht : t.WF c) (k : ℕ) :
    NsDelOutcome c k t (nsBtDel c t k) := by
  have hmM := hc.bounds
  obtain ⟨hshaped, hexact, hsorted⟩ := ht
  unfold NsTree.Shaped at hshaped
  cases hroot : t.root with
  | obj o =>
    rw [hroot] at hshaped
    exact hshaped.elim
  | null =>
    have hres : nsBtDel c t k = some (.notFound, t, none) := by
      unfold nsBtDel
      rw [hroot]
    have hnil : t.toList = [] := by
      unfold NsTree.toList
      rw [hroot]
      rfl
    rw [hres]
    refine .notFound fun o ho => ?_
    rw [hnil] at ho
    exact absurd ho List.not_mem_nil
  | page p =>
    have hlist : t.toList = (BTPtr.page p).toList := by
      unfold NsTree.toList
      rw [hroot]
    rw [hroot] at hshaped hexact
    rw [hlist] at hsorted
    obtain ⟨n, hdepth, hsh, h0, hmax, hpos⟩ := hshaped
    have hund : underflows c k (.page p) = (decide (p.count ≤ c.btMinkey) && shrinks c k p) := rfl
    rw [nsBtDel_page hroot]
    have hout := nsBtDelete_outcome hc k p hsh h0 hpos
    generalize nsBtDelete c k (.page p) = out at hout ⊢
    cases hout with
    | notFound absent =>
      rw [Option.map_some, if_neg (by simp)]
      have hsame : ({ t with root := .page p } : NsTree α) = t := by rw [← hroot]
      dsimp only
      rw [hsame]
      exact .notFound fun o ho => absent hexact hsorted o (hlist ▸ ho)
    | outside o mem key overrun => exact .outside o (hlist ▸ mem) key (hroot ▸ overrun)
    | deleted q l₁ l₂ o shape count key old new within exact =>
      have hsorted' : (l₁ ++ l₂).Pairwise c.Lt := by
        rw [old] at hsorted
        exact hsorted.sublist ((List.sublist_cons_self o l₂).append_left l₁)
      -- the tree that is left, whatever becomes of its root
      have hdeleted : ∀ t' : NsTree α, t'.Shaped c → t'.toList = (BTPtr.page q).toList →
          (Exact c (.page q) → Exact c t'.root) →
          NsDelOutcome c k t (some (.ok, t', some o)) := by
        intro t' hsh' hlist' hexact'
        refine .deleted t' l₁ l₂ o ⟨hsh', hexact' (exact hexact hsorted), ?_⟩ key
          (hlist.trans old) (hlist'.trans new) (hroot ▸ within)
        rw [hlist', new]
        exact hsorted'
      by_cases hu : underflows c k (.page p) = true
      · rw [hu, if_pos rfl, Option.map_some, if_pos rfl]
        dsimp only
        rw [hu, eq_comm, Bool.and_eq_true, decide_eq_true_eq] at hund
        rw [if_pos hund.2] at count
        obtain ⟨hsh', hlist', hexact'⟩ := nsBtDelReturn_spec hc hdepth shape (by omega)
          (fun hn => by have := hpos hn; omega) (by omega)
        exact hdeleted _ hsh' hlist' hexact'
      · rw [if_neg hu, Option.map_some, if_neg (by simp)]
        dsimp only
        rw [Bool.not_eq_true] at hu
        rw [hu, eq_comm, Bool.and_eq_false_iff, decide_eq_false_iff_not] at hund
        have hcount : q.count ≤ p.count ∧ (q.count = p.count ∨ c.btMinkey ≤ q.count) := by
          rw [count]
          rcases hund with h | h
          · split_ifs <;> omega
          · rw [h]
            simp
        refine hdeleted { t with root := .page q } ⟨n, hdepth, shape, by omega, by omega, ?_⟩ rfl id
        intro hn
        have h1 := hpos hn
        omega

/-- **What deleting a hash from a directory's tree is to do.** -/
structure NsDelSpec (c : BTConf α) (t : NsTree α) (k : ℕ)
    (res : Option (BTRet × NsTree α × Option α)) : Prop where
  /-- It succeeds just when there is an entry with that hash. -/
  ok_iff : (∃ t' obj, res = some (.ok, t', obj)) ↔ ∃ o ∈ t.toList, c.btGetObjKey o = k
  /-- Then that entry is taken out and handed back. -/
  deleted : ∀ t' obj, res = some (.ok, t', obj) → ∃ l₁ o l₂, obj = some o ∧ c.btGetObjKey o = k ∧
    t.toList = l₁ ++ o :: l₂ ∧ t'.toList = l₁ ++ l₂
  wf : ∀ t' obj, res = some (.ok, t', obj) → t'.WF c
  /-- Otherwise nothing changes. -/
  notFound : (∀ o ∈ t.toList, c.btGetObjKey o ≠ k) → res = some (.notFound, t, none)

/-- **When deletion from a directory's tree is right**: unless the hash is there and an underflowing
page on the way to it gets keys from a full one to its right. -/
theorem nsBtDel_spec_iff (hash : α → ℕ) {t : NsTree α} (ht : t.WF (nsConf hash)) (k : ℕ) :
    NsDelSpec (nsConf hash) t k (nsBtDel (nsConf hash) t k) ↔
      ¬ ((∃ o ∈ t.toList, hash o = k) ∧ nsOverruns (nsConf hash) k t.root = true) := by
  have hout := nsBtDel_outcome (nsConf_odd hash) ht k
  generalize nsBtDel (nsConf hash) t k = res at hout ⊢
  cases hout with
  | notFound absent =>
    have hno : ¬ ∃ o ∈ t.toList, hash o = k := fun ⟨o, ho, hk⟩ => absent o ho hk
    refine iff_of_true ⟨iff_of_false (by simp) hno, by simp, by simp, fun _ => rfl⟩ ?_
    exact fun h => hno h.1
  | outside o mem key overrun =>
    refine iff_of_false (fun h => ?_) fun h => h ⟨⟨o, mem, key⟩, overrun⟩
    obtain ⟨t', obj, h'⟩ := h.ok_iff.mpr ⟨o, mem, key⟩
    cases h'
  | deleted t' l₁ l₂ o wf key old new within =>
    have hmem : o ∈ t.toList := by
      rw [old]
      simp
    refine iff_of_true ⟨iff_of_true ⟨t', some o, rfl⟩ ⟨o, hmem, key⟩, ?_, ?_,
      fun h => absurd key (h o hmem)⟩ fun h => ?_
    · intro t'' obj h
      cases h
      exact ⟨l₁, o, l₂, rfl, key, old, new⟩
    · intro t'' obj h
      cases h
      exact wf
    · rw [within] at h
      cases h.2

/-- An entry of a full leaf is deleted. -/
theorem nsBtDel_spec_evenLeaf :
    NsDelSpec (nsConf id) evenLeaf 20 (nsBtDel (nsConf id) evenLeaf 20) :=
  (nsBtDel_spec_iff id evenLeaf_wf 20).mpr fun h => absurd h.2 (by decide +kernel)

/-! ### An entry replaced -/

theorem nsBtModifyPage_page (k : ℕ) (f : α → α) (p : BTPage α) : nsBtModifyPage k f (.page p) =
    if p.isleaf then
      match p.child (p.search k).1 with
      | .obj o => .page (p.setChild (p.search k).1 (.obj (f o)))
      | _ => .page p
    else .page (p.setChild (p.search k).1 (nsBtModifyPage k f (p.child (p.search k).1))) := rfl

/-- One step down: the child found, with an entry in it replaced by one with its hash. -/
theorem setChild_replaced {p : BTPage α} {x : BTPtr α} {k : ℕ} {l₁ l₂ : List α} {o o' : α}
    (h0 : 0 ≤ p.count) (hkey : c.btGetObjKey o' = c.btGetObjKey o) (hx : Exact c x)
    (old : (p.child (p.search k).1).toList = l₁ ++ o :: l₂) (new : x.toList = l₁ ++ o' :: l₂) :
    (BTPtr.page p).toList = (lower p (p.search k).1 ++ l₁) ++ o :: (l₂ ++ upper p (p.search k).1) ∧
      (BTPtr.page (p.setChild (p.search k).1 x)).toList =
        (lower p (p.search k).1 ++ l₁) ++ o' :: (l₂ ++ upper p (p.search k).1) ∧
      (Exact c (.page p) → Exact c (.page (p.setChild (p.search k).1 x))) := by
  obtain ⟨hb₁, hb₂⟩ := PageOf.search_bounds p k h0
  refine ⟨?_, ?_, fun he => he.setChild hx fun _ _ => ?_⟩
  · rw [toList_eq_lower_upper p hb₁ hb₂, old]
    simp
  · have hset : (BTPtr.page (p.setChild (p.search k).1 x)).toList =
        lower p (p.search k).1 ++ x.toList ++ upper p (p.search k).1 := toList_setChild p hb₁ hb₂ x
    rw [hset, new]
    simp
  · rw [new, old]
    cases l₁ with
    | nil => exact hkey
    | cons a l₁ => rfl

/-- What replacing the entry found below a page does. -/
theorem nsBtModifyPage_spec (hc : c.Odd) {f : α → α} {o : α}
    (hf : c.btGetObjKey (f o) = c.btGetObjKey o) (k : ℕ) : ∀ {n : ℕ} {p : BTPage α},
      Shape c n p → 0 ≤ p.count → Exact c (.page p) → btSearchPage c k (.page p) = some o →
      ∃ q l₁ l₂, nsBtModifyPage k f (.page p) = .page q ∧ Shape c n q ∧ q.count = p.count ∧
        Exact c (.page q) ∧ (BTPtr.page p).toList = l₁ ++ o :: l₂ ∧
        (BTPtr.page q).toList = l₁ ++ f o :: l₂ := by
  have hmM := hc.bounds
  intro n
  induction n with
  | zero =>
    intro p hsh h0 he hfind
    obtain ⟨hb₁, hb₂⟩ := PageOf.search_bounds p k h0
    obtain ⟨x, hx⟩ := hsh.2 _ hb₁ hb₂
    rw [btSearchPage_page, if_pos hsh.isleaf_zero, hx] at hfind
    obtain rfl : x = o := Option.some.inj hfind
    have hplace : (p.child (p.search k).1).toList = [] ++ x :: [] := by
      rw [hx]
      rfl
    obtain ⟨hold, hnew, hexact⟩ := setChild_replaced (c := c) h0 hf (x := .obj (f x)) trivial hplace
      (show (BTPtr.obj (f x)).toList = [] ++ f x :: [] from rfl)
    refine ⟨p.setChild (p.search k).1 (.obj (f x)), _, _, ?_, ?_, rfl, hexact he, hold, hnew⟩
    · rw [nsBtModifyPage_page, if_pos hsh.isleaf_zero, hx]
    · refine ⟨hsh.isleaf_zero, fun i h₁ h₂ => ?_⟩
      by_cases hi : i = (p.search k).1
      · exact ⟨f x, by rw [hi, PageOf.setChild_child_self]⟩
      · rw [PageOf.setChild_child_ne _ hi]
        exact hsh.2 i h₁ h₂
  | succ n ih =>
    intro p hsh h0 he hfind
    obtain ⟨hb₁, hb₂⟩ := PageOf.search_bounds p k h0
    obtain ⟨q₀, hq₀, hsq₀, hmin, hmax⟩ := hsh.2 _ hb₁ hb₂
    rw [btSearchPage_page, if_neg (by simp [hsh.isleaf_succ]), hq₀] at hfind
    obtain ⟨q, l₁, l₂, hmod, hsq, hcount, heq, hold₀, hnew₀⟩ := ih hsq₀ (by omega)
      (hq₀ ▸ (exact_page.mp he).2 _ hb₁ hb₂) hfind
    obtain ⟨hold, hnew, hexact⟩ := setChild_replaced (c := c) h0 hf heq
      (by rw [hq₀]; exact hold₀) hnew₀
    refine ⟨p.setChild (p.search k).1 (.page q), _, _, ?_, ⟨hsh.isleaf_succ, fun i h₁ h₂ => ?_⟩,
      rfl, hexact he, hold, hnew⟩
    · rw [nsBtModifyPage_page, if_neg (by simp [hsh.isleaf_succ]), hq₀, hmod]
    · by_cases hi : i = (p.search k).1
      · rw [hi, PageOf.setChild_child_self]
        exact ⟨q, rfl, hsq, by omega, by omega⟩
      · rw [PageOf.setChild_child_ne _ hi]
        exact hsh.2 i h₁ h₂

/-- Replacing keeps the order. -/
theorem pairwise_lt_replaced {l₁ l₂ : List α} {o o' : α} (hkey : c.btGetObjKey o' = c.btGetObjKey o)
    (h : (l₁ ++ o :: l₂).Pairwise c.Lt) : (l₁ ++ o' :: l₂).Pairwise c.Lt := by
  have hlt : ∀ a b, c.Lt a b ↔ c.btGetObjKey a < c.btGetObjKey b := fun _ _ => Iff.rfl
  simp only [List.pairwise_append, List.pairwise_cons, List.mem_cons, forall_eq_or_imp, hlt,
    hkey] at h ⊢
  exact h

/-- **An entry is replaced by one with the same hash**, by an assignment behind `BTModify`. -/
theorem nsBtModify_spec (hc : Hashed c) {t : NsTree α} (ht : t.WF c) {f : α → α} {o : α}
    (ho : o ∈ t.toList) (hf : c.btGetObjKey (f o) = c.btGetObjKey o) :
    ∃ t' l₁ l₂, nsBtModify c t (c.btGetObjKey o) f = (.ok, t') ∧ t'.WF c ∧
      t.toList = l₁ ++ o :: l₂ ∧ t'.toList = l₁ ++ f o :: l₂ := by
  have hsearch := nsBtSearch_found hc ht ho
  obtain ⟨hshaped, hexact, hsorted⟩ := ht
  unfold NsTree.Shaped at hshaped
  obtain ⟨root, depth⟩ := t
  cases root with
  | null => exact absurd ho List.not_mem_nil
  | obj x => exact hshaped.elim
  | page p =>
    obtain ⟨n, hdepth, hsh, h0, hmax, hpos⟩ := hshaped
    obtain ⟨x, -, hfind⟩ := btSearchPage_mem hc.odd (c.btGetObjKey o) hsh h0
    unfold nsBtSearch at hsearch
    dsimp only at hsearch
    rw [hfind] at hsearch
    dsimp only at hsearch
    by_cases hmatch : c.btObjMatch x (c.btGetObjKey o) = true
    · rw [if_pos hmatch] at hsearch
      obtain rfl : x = o := by simpa using hsearch
      obtain ⟨q, l₁, l₂, hmod, hsq, hcount, heq, hold, hnew⟩ :=
        nsBtModifyPage_spec hc.odd hf (c.btGetObjKey x) hsh h0 hexact hfind
      refine ⟨⟨.page q, depth⟩, l₁, l₂, ?_, ⟨?_, heq, ?_⟩, hold, hnew⟩
      · unfold nsBtModify
        dsimp only
        rw [hfind, hmod]
        dsimp only
        rw [if_pos hmatch]
      · exact ⟨n, hdepth, hsq, by omega, by omega, fun hn => by have := hpos hn; omega⟩
      · change (BTPtr.page p).toList.Pairwise c.Lt at hsorted
        change (BTPtr.page q).toList.Pairwise c.Lt
        rw [hold] at hsorted
        rw [hnew]
        exact pairwise_lt_replaced hf hsorted
    · rw [if_neg hmatch] at hsearch
      cases hsearch

end Mungi.Naming
