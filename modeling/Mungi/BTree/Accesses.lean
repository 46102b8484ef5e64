import Mungi.BTree.Del

/-!
# Deletion within the arrays of its pages

`struct sBTPage` declares `BT_ORDER - 1` keys and, right behind them, `BT_ORDER`
children.  The functions below list the places of these two arrays that deletion
looks at or changes, in the order of the code; they follow it line by line and leave
out everything else it does.  Up to the first place outside the arrays the lists are
what the code does, and whether there is one is known from the tree.

There is one place in the code that goes too far: when keys go from the right of two
neighbours to the left one, the loop that moves the rest of the right page down runs
once more than there are keys to move, so that a full right page is left at both ends.

## Main definitions

* `PageAccess`, `BTConf.Declares` — a place in an array of a page, and the declared ones.
* `btDeletePageAccesses`, `btCollapseAccesses`, `btRedistributeAccesses`,
  `btDeleteAccesses`, `btDelAccesses` — the places the functions of `btree.c` use.
* `overruns` — from the tree and the key: an underflowing page is going to get keys from
  a full one to its right.

## Main results

* `btRedistributeAccesses_inPage` — redistribution stays within two pages unless keys
  come from a full right one.
* `btDelAccesses_inPage_iff` — **when deletion stays within the arrays.**
* `btDelAccesses_full_right` — a tree on which it does not.
-/

namespace Mungi

open Cat ForLoop

variable {α : Type} {c : BTConf α}

/-! ### The places used -/

/-- A place in one of the two arrays of a page. -/
inductive PageAccess where
  | key (i : ℤ)
  | child (i : ℤ)
  deriving DecidableEq, Repr

/-- The places `struct sBTPage` declares. -/
def BTConf.Declares (c : BTConf α) : PageAccess → Prop
  | .key i => 0 ≤ i ∧ i ≤ c.btOrder - 2
  | .child i => 0 ≤ i ∧ i ≤ c.btOrder - 1

instance (c : BTConf α) : DecidablePred c.Declares
  | .key _ => inferInstanceAs (Decidable (_ ∧ _))
  | .child _ => inferInstanceAs (Decidable (_ ∧ _))

/-- The loop `while (lo < hi)` of the binary search. -/
def pageSearchAccesses (key : ℤ → ℕ) (k : ℕ) : ℕ → ℤ → ℤ → List PageAccess
  | 0, _, _ => []
  | fuel + 1, lo, hi =>
      if lo < hi then
        let mid := (lo + hi) / 2
        if key mid = k then [.key mid]
        else [.key mid, .key mid] ++
          if k < key mid then pageSearchAccesses key k fuel lo mid
          else pageSearchAccesses key k fuel (mid + 1) hi
      else []

/-- `BTDeletePage` from its loop on. -/
def removeAtAccesses (current : BTPage α) (idx : ℤ) : List PageAccess :=
  cat (fun i => [.key i, .key (i - 1), .child (i + 1), .child i]) (idx + 1)
      (current.count - (idx + 1)).toNat ++
    [.child current.count] ++
    if 0 ≤ current.count - 1 then [.key (current.count - 1)] else []

/-- `BTDeletePage` -/
def btDeletePageAccesses (current : BTPage α) (idx : ℤ) : List PageAccess :=
  if idx < 0 then [.child 1, .child 0] ++ removeAtAccesses current (idx + 1)
  else removeAtAccesses current idx

/-- `GetLeastKey` -/
def getLeastKeyAccesses : BTPtr α → List PageAccess
  | .null => []
  | .obj _ => []
  | .page ⟨_, _, isleaf, _, child⟩ =>
      if isleaf then [.child 0] else .child 0 :: getLeastKeyAccesses (child 0)

/-- `BTCollapse` -/
def btCollapseAccesses (left right : BTPage α) : List PageAccess :=
  getLeastKeyAccesses (.page right) ++
    [.key left.count, .child 0, .child (left.count + 1)] ++
    cat (fun i => [.key i, .key (i + (left.count + 1)), .child (i + 1),
      .child (i + (left.count + 1) + 1)]) 0 right.count.toNat

/-- `BTRedistribute`; the loops downwards are counted by the iterations behind them. -/
def btRedistributeAccesses (left right : BTPage α) : List PageAccess :=
  let half := (left.count + right.count) / 2
  getLeastKeyAccesses (.page right) ++
    if left.count < half then
      let delta := half - left.count
      let j := delta - 1
      [.key left.count] ++
        cat (fun j => [.key j, .key (j + (left.count + 1)), .child j,
          .child (j + (left.count + 1))]) 0 (half - (left.count + 1)).toNat ++
        [.child j, .child half, .key j, .child (j + 1), .child 0] ++
        -- `while (j++ < right->count)` runs once more than there are keys to move
        cat (fun i => [.key (i + delta), .key i, .child (i + delta + 1), .child (i + 1),
          .key (i + delta), .child (i + delta + 1)]) 0 (right.count - j).toNat
    else
      let delta := left.count - half
      [.child right.count, .child (right.count + delta)] ++
        cat (fun d => [.key (right.count - 1 - d), .key (right.count + delta - 1 - d),
          .child (right.count - 1 - d), .child (right.count + delta - 1 - d)]) 0
          right.count.toNat ++
        [.key (delta - 1), .child left.count, .child (delta - 1)] ++
        cat (fun d => [.key (left.count - 1 - d), .key (delta - 2 - d),
          .child (left.count - 1 - d), .child (delta - 2 - d), .key (left.count - 1 - d),
          .child (left.count - 1 - d)]) 0 (delta - 1).toNat ++
        [.key half, .key half]

/-- The choice of the sibling in `BTDelete`. -/
def siblingAccesses (current : BTPage α) (hi : ℤ) : List PageAccess :=
  if hi = 0 then [] else if hi = current.count then [] else [.child (hi - 1), .child (hi + 1)]

/-- The repair of child `hi` in `BTDelete`; nothing comes after a panic of `free_page`. -/
def btRepairAccesses (c : BTConf α) (pool : PagePool) (current : BTPage α) (hi : ℤ) :
    List PageAccess :=
  let sibling := current.sibling hi
  let med := (hi + sibling) / 2
  siblingAccesses current hi ++ [.child sibling] ++
    match current.child (min hi sibling), current.child (max hi sibling) with
    | .page left, .page right =>
      [.child (min hi sibling), .child (max hi sibling)] ++
        if (current.child sibling).count > c.btMinkey then
          btRedistributeAccesses left right ++ [.key med]
        else
          btCollapseAccesses left right ++
            match freePage pool right.idx with
            | none => []
            | some _ => btDeletePageAccesses
                (current.setChild (min hi sibling) (.page (btCollapse c left right))) med
    | _, _ => []

/-- `BTDelete` in an index page, once the call on child `hi` is back. -/
def btDeleteReturnAccesses (c : BTConf α) (k : ℕ) (current : BTPage α) (hi : ℤ)
    (r : BTDelRes α) : List PageAccess :=
  let current := current.setChild hi r.current
  let key := if hi ≠ 0 ∧ (r.ret = .ok ∨ r.ret = .lessThanMin) then
      [.key (hi - 1)] ++
        if current.key (hi - 1) = k then
          [.child hi] ++ getLeastKeyAccesses r.current ++ [.key (hi - 1)]
        else []
    else []
  let current :=
    if hi ≠ 0 ∧ (r.ret = .ok ∨ r.ret = .lessThanMin) ∧ current.key (hi - 1) = k then
      current.setKey (hi - 1) (getLeastKey c r.current)
    else current
  key ++ if r.ret = .lessThanMin then btRepairAccesses c r.pool current hi else []

/-- `BTDelete` -/
def btDeleteAccesses (c : BTConf α) (k : ℕ) (pool : PagePool) : BTPtr α → List PageAccess
  | .null => []
  | .obj _ => []
  | .page ⟨idx, count, isleaf, key, child⟩ =>
      let current : BTPage α := ⟨idx, count, isleaf, key, child⟩
      let hi := (current.search k).1
      pageSearchAccesses key k count.toNat 0 count ++ [.child hi] ++
        if isleaf then
          match child hi with
          | .obj o =>
            if c.btGetObjKey o ≠ k then []
            else .child hi :: btDeletePageAccesses current (hi - 1)
          | _ => []
        else
          btDeleteAccesses c k pool (child hi) ++
            match btDelete c k pool (child hi) with
            | none => []
            | some r => btDeleteReturnAccesses c k current hi r

/-- `BTDel`: what it does to the root page comes last. -/
def btDelAccesses (c : BTConf α) (t : BTree α) (k : ℕ) : List PageAccess :=
  match t.root with
  | .null => []
  | root =>
    btDeleteAccesses c k t.pool root ++
      match btDelete c k t.pool root with
      | some ⟨.lessThanMin, _, .page current, _⟩ =>
        if current.isleaf then [] else if current.count = 0 then [.child 0] else []
      | _ => []

/-! ### When they are declared -/

/-- All of the places are declared. -/
def BTConf.InPage (c : BTConf α) (l : List PageAccess) : Prop := ∀ a ∈ l, c.Declares a

instance (c : BTConf α) (l : List PageAccess) : Decidable (c.InPage l) :=
  inferInstanceAs (Decidable (∀ a ∈ l, c.Declares a))

@[simp] theorem inPage_nil : c.InPage [] := nofun

@[simp] theorem inPage_append {l l' : List PageAccess} :
    c.InPage (l ++ l') ↔ c.InPage l ∧ c.InPage l' := List.forall_mem_append

@[simp] theorem inPage_key {i : ℤ} {l : List PageAccess} :
    c.InPage (.key i :: l) ↔ (0 ≤ i ∧ i < c.btMaxkey) ∧ c.InPage l := by
  have hlim : c.Declares (.key i) ↔ 0 ≤ i ∧ i < c.btMaxkey := by
    unfold BTConf.Declares BTConf.btMaxkey
    omega
  rw [← hlim]
  exact List.forall_mem_cons

@[simp] theorem inPage_child {i : ℤ} {l : List PageAccess} :
    c.InPage (.child i :: l) ↔ (0 ≤ i ∧ i ≤ c.btMaxkey) ∧ c.InPage l := List.forall_mem_cons

/-- A loop stays within the page when each iteration does. -/
@[simp] theorem inPage_cat {f : ℤ → List PageAccess} {lo : ℤ} {n : ℕ} :
    c.InPage (cat f lo n) ↔ ∀ i, lo ≤ i → i < lo + n → c.InPage (f i) := by
  constructor
  · intro h i h₁ h₂ a ha
    exact h a (mem_cat_of_mem h₁ h₂ ha)
  · intro h a ha
    obtain ⟨i, h₁, h₂, ha⟩ := exists_of_mem_cat ha
    exact h i h₁ h₂ a ha

/-- The binary search looks at keys between its bounds. -/
theorem pageSearchAccesses_inPage (key : ℤ → ℕ) (k : ℕ) : ∀ (fuel : ℕ) (lo hi : ℤ), 0 ≤ lo →
    hi ≤ c.btMaxkey → c.InPage (pageSearchAccesses key k fuel lo hi) := by
  intro fuel
  induction fuel with
  | zero => intro lo hi _ _; exact inPage_nil
  | succ fuel ih =>
    intro lo hi hlo hhi
    rw [pageSearchAccesses]
    by_cases hlt : lo < hi
    · rw [if_pos hlt]
      have hmid : lo ≤ (lo + hi) / 2 ∧ (lo + hi) / 2 < hi := by omega
      dsimp only
      generalize (lo + hi) / 2 = mid at hmid
      have hkey : 0 ≤ mid ∧ mid < c.btMaxkey := ⟨by omega, by omega⟩
      by_cases heq : key mid = k
      · rw [if_pos heq]
        simpa using hkey
      · rw [if_neg heq]
        split
        · simpa [hkey] using ih lo mid hlo (by omega)
        · simpa [hkey] using ih (mid + 1) hi (by omega) hhi
    · rw [if_neg hlt]
      exact inPage_nil

/-- `GetLeastKey` looks at first children only. -/
theorem getLeastKeyAccesses_inPage (hc : 0 ≤ c.btMinkey) (hM : 0 ≤ c.btMaxkey) :
    ∀ {n : ℕ} {p : BTPage α}, Shape c n p → 0 ≤ p.count →
      c.InPage (getLeastKeyAccesses (.page p)) := by
  intro n
  induction n with
  | zero =>
    intro p hsh _
    have hstep : getLeastKeyAccesses (.page p)
        = if p.isleaf then [.child 0] else .child 0 :: getLeastKeyAccesses (p.child 0) := rfl
    rw [hstep, if_pos hsh.isleaf_zero]
    simpa using hM
  | succ n ih =>
    intro p hsh h0
    have hstep : getLeastKeyAccesses (.page p)
        = if p.isleaf then [.child 0] else .child 0 :: getLeastKeyAccesses (p.child 0) := rfl
    obtain ⟨q, hq, hsq, hmin, -⟩ := hsh.2 0 le_rfl h0
    rw [hstep, hsh.isleaf_succ, hq]
    simpa [hM] using ih hsq (by omega)

section Pages
variable (p l r : BTPage α) {idx : ℤ}

theorem removeAtAccesses_inPage (hM : p.count ≤ c.btMaxkey) (h0 : 0 ≤ p.count) (h : 0 ≤ idx) :
    c.InPage (removeAtAccesses p idx) := by
  unfold removeAtAccesses
  simp only [inPage_append, inPage_cat, inPage_key, inPage_child, inPage_nil, and_true]
  refine ⟨⟨fun i h₁ h₂ => by omega, h0, hM⟩, ?_⟩
  split_ifs
  · simp only [inPage_key, inPage_nil, and_true]
    omega
  · exact inPage_nil

theorem btDeletePageAccesses_inPage (hM : p.count ≤ c.btMaxkey) (h1 : 1 ≤ c.btMaxkey)
    (h0 : 0 ≤ p.count) (h : -1 ≤ idx) : c.InPage (btDeletePageAccesses p idx) := by
  unfold btDeletePageAccesses
  by_cases hneg : idx < 0
  · rw [if_pos hneg]
    simp only [inPage_append, inPage_child, inPage_nil, and_true]
    exact ⟨by omega, removeAtAccesses_inPage p hM h0 (by omega)⟩
  · rw [if_neg hneg]
    exact removeAtAccesses_inPage p hM h0 (by omega)

/-- Collapsing two pages stays within them when all keys and the median fit in one. -/
theorem btCollapseAccesses_inPage (hr : c.InPage (getLeastKeyAccesses (.page r)))
    (hl₀ : 0 ≤ l.count) (hr₀ : 0 ≤ r.count) (hsum : l.count + r.count + 1 ≤ c.btMaxkey) :
    c.InPage (btCollapseAccesses l r) := by
  unfold btCollapseAccesses
  simp only [inPage_append, inPage_cat, inPage_key, inPage_child, inPage_nil, and_true]
  exact ⟨⟨hr, by omega⟩, fun i h₁ h₂ => by omega⟩

/-- **Redistribution stays within two pages** unless keys come from a full right one. -/
theorem btRedistributeAccesses_inPage (hr : c.InPage (getLeastKeyAccesses (.page r)))
    (hl₀ : 0 ≤ l.count) (hl : l.count ≤ c.btMaxkey) (hr₀ : 0 ≤ r.count)
    (hrM : r.count ≤ c.btMaxkey) (hne : (l.count + r.count) / 2 ≠ l.count) :
    c.InPage (btRedistributeAccesses l r) ↔ ¬ (l.count < r.count ∧ r.count = c.btMaxkey) := by
  unfold btRedistributeAccesses
  dsimp only
  rw [inPage_append, and_iff_right hr]
  by_cases hlt : l.count < (l.count + r.count) / 2
  · rw [if_pos hlt]
    simp only [inPage_append, inPage_cat, inPage_key, inPage_child, inPage_nil, and_true]
    constructor
    · rintro ⟨-, hrest⟩ ⟨-, hfull⟩
      -- the last iteration, at the key behind the last one
      have hlast := hrest (r.count - ((l.count + r.count) / 2 - l.count)) (by omega) (by omega)
      omega
    · intro hfull
      exact ⟨⟨⟨by omega, fun i h₁ h₂ => by omega⟩, by omega⟩, fun i h₁ h₂ => by omega⟩
  · rw [if_neg hlt]
    simp only [inPage_append, inPage_cat, inPage_key, inPage_child, inPage_nil, and_true]
    refine iff_of_true ⟨⟨⟨⟨by omega, fun i h₁ h₂ => by omega⟩, by omega⟩, fun i h₁ h₂ => by omega⟩,
      by omega⟩ ?_
    omega

end Pages

/-- **The repair of an underflowing child** stays within the pages unless its sibling is
to the right and full. -/
theorem btRepairAccesses_inPage (hc : c.Odd) {n : ℕ} {p q : BTPage α} {hi : ℤ} (pool : PagePool)
    (h₁ : 0 ≤ hi) (h₂ : hi ≤ p.count) (h₃ : 1 ≤ p.count) (hM : p.count ≤ c.btMaxkey)
    (hq : p.child hi = .page q) (hsq : Shape c n q) (hqc : q.count = c.btMinkey - 1)
    (hoth : ∀ j, 0 ≤ j → j ≤ p.count → j ≠ hi → ChildShape c (n + 1) (p.child j)) :
    c.InPage (btRepairAccesses c pool p hi) ↔
      ¬ (hi < p.sibling hi ∧ (p.child (p.sibling hi)).count = c.btMaxkey) := by
  have hmM := hc.bounds
  obtain ⟨i, l, r, hmed, hmin, hmax, hi₁, hi₂, hl, hr, hsl, hsr, hcount, -⟩ :=
    exists_neighbours h₁ h₂ h₃ hq hsq hqc hoth
  have hsib : c.InPage (siblingAccesses p hi ++ [.child (p.sibling hi)]) := by
    unfold siblingAccesses
    split_ifs <;>
      simp only [inPage_append, inPage_child, inPage_nil, and_true, true_and] <;> omega
  have hleast : c.InPage (getLeastKeyAccesses (.page r)) :=
    getLeastKeyAccesses_inPage (by omega) (by omega) hsr (by omega)
  unfold btRepairAccesses
  dsimp only
  rw [hmin, hmax, hmed, hl, hr, inPage_append, and_iff_right hsib]
  dsimp only
  simp only [inPage_append, inPage_child, inPage_nil, and_true]
  rw [and_iff_right (show (0 ≤ i ∧ i ≤ c.btMaxkey) ∧ 0 ≤ i + 1 ∧ i + 1 ≤ c.btMaxkey by omega)]
  by_cases hfat : (p.child (p.sibling hi)).count > c.btMinkey
  · rw [if_pos hfat, inPage_append, btRedistributeAccesses_inPage l r hleast (by omega) (by omega)
      (by omega) (by omega) (by omega)]
    simp only [inPage_key, inPage_nil, and_true]
    omega
  · rw [if_neg hfat, inPage_append]
    refine iff_of_true ⟨btCollapseAccesses_inPage l r hleast (by omega) (by omega) (by omega), ?_⟩
      (by omega)
    cases freePage pool r.idx with
    | none => exact inPage_nil
    | some pool' => exact btDeletePageAccesses_inPage _ hM (by omega) (by
        rw [PageOf.setChild_count]; omega) (by omega)

/-! ### One call of `BTDelete` -/

section Return
variable {n k : ℕ} {p q : BTPage α} {hi : ℤ} {pool : PagePool} {o : Option α}

theorem btDeleteReturnAccesses_notFound {r : BTPtr α} :
    btDeleteReturnAccesses c k p hi ⟨.notFound, pool, r, o⟩ = [] := by
  simp [btDeleteReturnAccesses]

/-- After a deletion in the child all that counts is the repair. -/
theorem btDeleteReturnAccesses_inPage (hc : c.Odd) {ret : BTRet}
    (hret : ret = .ok ∨ ret = .lessThanMin) (h₁ : 0 ≤ hi) (h₂ : hi ≤ p.count)
    (hM : p.count ≤ c.btMaxkey) (hsq : Shape c n q) (h0 : 0 ≤ q.count) :
    c.InPage (btDeleteReturnAccesses c k p hi ⟨ret, pool, .page q, o⟩) ↔
      (ret = .lessThanMin → c.InPage (btRepairAccesses c pool (refresh c k p hi q) hi)) := by
  have hmM := hc.bounds
  have hleast : c.InPage (getLeastKeyAccesses (.page q)) :=
    getLeastKeyAccesses_inPage (by omega) (by omega) hsq h0
  have hrefresh : (if hi ≠ 0 ∧ (ret = .ok ∨ ret = .lessThanMin) ∧
      (p.setChild hi (.page q)).key (hi - 1) = k
      then (p.setChild hi (.page q)).setKey (hi - 1) (getLeastKey c (.page q))
      else p.setChild hi (.page q)) = refresh c k p hi q := by
    simp [refresh, hret]
  unfold btDeleteReturnAccesses
  dsimp only
  rw [hrefresh, inPage_append, and_iff_right]
  · by_cases hless : ret = .lessThanMin <;> simp [hless]
  · split_ifs with hpos hkey
    · simp only [inPage_append, inPage_key, inPage_child, inPage_nil, and_true]
      exact ⟨by omega, ⟨by omega, hleast⟩, by omega⟩
    · simp only [inPage_append, inPage_key, inPage_nil, and_true]
      omega
    · exact inPage_nil

end Return

/-- Deleting key `k` gives an underflowing page keys from a full one to its right, on this
page or on a page below it; `free_page` has not panicked before. -/
def overruns (c : BTConf α) (k : ℕ) (pool : PagePool) : BTPtr α → Bool
  | .null => false
  | .obj _ => false
  | .page ⟨idx, count, isleaf, key, child⟩ =>
      let p : BTPage α := ⟨idx, count, isleaf, key, child⟩
      let hi := (p.search k).1
      !isleaf && (overruns c k pool (child hi) ||
        (underflows c k (child hi) && decide (hi < p.sibling hi) &&
          decide ((child (p.sibling hi)).count = c.btMaxkey) &&
          (freePages pool (freedBelow c k (child hi))).isSome))

theorem overruns_page (pool : PagePool) (p : BTPage α) (k : ℕ) :
    overruns c k pool (.page p) = (!p.isleaf && (overruns c k pool (p.child (p.search k).1) ||
      (underflows c k (p.child (p.search k).1) &&
        decide ((p.search k).1 < p.sibling (p.search k).1) &&
        decide ((p.child (p.sibling (p.search k).1)).count = c.btMaxkey) &&
        (freePages pool (freedBelow c k (p.child (p.search k).1))).isSome))) := rfl

theorem btDeleteAccesses_page (k : ℕ) (pool : PagePool) (p : BTPage α) :
    btDeleteAccesses c k pool (.page p) =
      pageSearchAccesses p.key k p.count.toNat 0 p.count ++ [.child (p.search k).1] ++
        if p.isleaf then
          match p.child (p.search k).1 with
          | .obj o =>
            if c.btGetObjKey o ≠ k then []
            else .child (p.search k).1 :: btDeletePageAccesses p ((p.search k).1 - 1)
          | _ => []
        else
          btDeleteAccesses c k pool (p.child (p.search k).1) ++
            match btDelete c k pool (p.child (p.search k).1) with
            | none => []
            | some r => btDeleteReturnAccesses c k p (p.search k).1 r := rfl

/-- The way down stays within the page. -/
theorem descentAccesses_inPage {p : BTPage α} (k : ℕ) (h0 : 0 ≤ p.count)
    (hM : p.count ≤ c.btMaxkey) :
    c.InPage (pageSearchAccesses p.key k p.count.toNat 0 p.count ++ [.child (p.search k).1]) := by
  obtain ⟨hb₁, hb₂⟩ := PageOf.search_bounds p k h0
  simp only [inPage_append, inPage_child, inPage_nil, and_true]
  exact ⟨pageSearchAccesses_inPage p.key k _ 0 p.count le_rfl hM, by omega⟩

/-- **One call of `BTDelete`** stays within the pages unless the key is stored below and a
page is given keys from a full one to its right. -/
theorem btDeleteAccesses_inPage_iff (hc : c.Odd) (k : ℕ) (pool : PagePool) :
    ∀ {n : ℕ} (p : BTPage α), Shape c n p → 0 ≤ p.count → p.count ≤ c.btMaxkey →
      (0 < n → 1 ≤ p.count) → Exact c (.page p) → (BTPtr.page p).toList.Pairwise c.Lt →
      (c.InPage (btDeleteAccesses c k pool (.page p)) ↔
        ¬ ((∃ o ∈ (BTPtr.page p).toList, c.btGetObjKey o = k) ∧
          overruns c k pool (.page p) = true)) := by
  have hmM := hc.bounds
  intro n
  induction n with
  | zero =>
    intro p hsh h0 hM _ _ _
    have hover : overruns c k pool (.page p) = false := by
      rw [overruns_page, hsh.isleaf_zero]
      rfl
    obtain ⟨hb₁, hb₂⟩ := PageOf.search_bounds p k h0
    obtain ⟨o, ho⟩ := hsh.2 _ hb₁ hb₂
    refine iff_of_true ?_ (by rw [hover]; rintro ⟨-, h⟩; cases h)
    rw [btDeleteAccesses_page, inPage_append, if_pos hsh.isleaf_zero, ho]
    refine ⟨descentAccesses_inPage k h0 hM, ?_⟩
    dsimp only
    split_ifs
    · exact inPage_nil
    · rw [inPage_child]
      exact ⟨by omega, btDeletePageAccesses_inPage p hM (by omega) h0 (by omega)⟩
  | succ n ih =>
    intro p hsh h0 hM hpos he hs
    have h1 := hpos (by omega)
    obtain ⟨hb₁, hb₂⟩ := PageOf.search_bounds p k h0
    obtain ⟨q₀, hq₀, hsq₀, hqmin, hqmax⟩ := hsh.2 _ hb₁ hb₂
    have heq : Exact c (.page q₀) := hq₀ ▸ (exact_page.mp he).2 _ hb₁ hb₂
    have hsq : (BTPtr.page q₀).toList.Pairwise c.Lt := hq₀ ▸ pairwise_child hs hb₁ hb₂
    -- the key is stored below the page just when it is stored below the child found
    have hstored : (∃ o ∈ (BTPtr.page p).toList, c.btGetObjKey o = k) ↔
        ∃ o ∈ (BTPtr.page q₀).toList, c.btGetObjKey o = k := by
      constructor
      · rintro ⟨o, ho, rfl⟩
        exact ⟨o, hq₀ ▸ mem_child_search hc hsh h0 he hs ho, rfl⟩
      · rintro ⟨o, ho, hk⟩
        exact ⟨o, mem_toList_page.mpr ⟨_, hb₁, hb₂, hq₀ ▸ ho⟩, hk⟩
    have hover := overruns_page (c := c) pool p k
    rw [hsh.isleaf_succ, Bool.not_false, Bool.true_and, hq₀] at hover
    rw [btDeleteAccesses_page, inPage_append, and_iff_right (descentAccesses_inPage k h0 hM),
      hsh.isleaf_succ, if_neg (by simp), inPage_append, hq₀,
      ih q₀ hsq₀ (by omega) hqmax (fun _ => by omega) heq hsq, hstored, hover]
    have hout := btDelete_outcome hc k pool q₀ hsq₀ (by omega) fun _ => by omega
    generalize btDelete c k pool (.page q₀) = out at hout ⊢
    cases hout with
    | notFound absent =>
      have hno : ¬ ∃ o ∈ (BTPtr.page q₀).toList, c.btGetObjKey o = k :=
        fun ⟨o, ho, hk⟩ => absent heq hsq o ho hk
      refine iff_of_true ⟨fun h => hno h.1, ?_⟩ fun h => hno h.1
      dsimp only
      rw [btDeleteReturnAccesses_notFound]
      exact inPage_nil
    | panicked o mem key free =>
      rw [free]
      simp
    | deleted q l₁ l₂ o pool' shape idx count key old new free exact =>
      have hmem : ∃ o ∈ (BTPtr.page q₀).toList, c.btGetObjKey o = k :=
        ⟨o, by rw [old]; simp, key⟩
      have hqc : 0 ≤ q.count := by
        rw [count]
        split_ifs <;> omega
      rw [free]
      simp only [hmem, true_and, Option.isSome_some, Bool.and_true, Bool.or_eq_true, not_or]
      refine and_congr_right fun _ => ?_
      rw [btDeleteReturnAccesses_inPage hc (by split_ifs <;> simp) hb₁ hb₂ hM shape hqc]
      by_cases hu : underflows c k (.page q₀) = true
      · have hunder := underflows_page (c := c) q₀ k
        change _ = (decide (q₀.count ≤ c.btMinkey) && shrinks c k q₀) at hunder
        rw [hu, eq_comm, Bool.and_eq_true, decide_eq_true_eq] at hunder
        rw [hunder.2, if_pos rfl] at count
        have hsib : (refresh c k p (p.search k).1 q).child (p.sibling (p.search k).1)
            = p.child (p.sibling (p.search k).1) :=
          refresh_child_ne (by rcases sibling_cases p hb₁ hb₂ h1 with h | h <;> omega)
        have hrepair := btRepairAccesses_inPage hc (p := refresh c k p (p.search k).1 q) pool' hb₁
          (by rwa [refresh_count]) (by rwa [refresh_count]) (by rwa [refresh_count])
          refresh_child_self shape (by omega) fun j hj₁ hj₂ hj => by
            rw [refresh_count] at hj₂
            rw [refresh_child_ne hj]
            exact hsh.2 j hj₁ hj₂
        rw [refresh_sibling, hsib] at hrepair
        simp [hu, hrepair]
      · rw [Bool.not_eq_true] at hu
        simp [hu]

/-! ### The whole tree -/

/-- **When deletion stays within the arrays of its pages**: unless an object of that base is
stored and an underflowing page on the way to it is given keys from a full one to its
right. -/
theorem btDelAccesses_inPage_iff (hc : c.Odd) {t : BTree α} (ht : t.WF c) (k : ℕ) :
    c.InPage (btDelAccesses c t k) ↔
      ¬ ((∃ o ∈ t.toList, c.btGetObjKey o = k) ∧ overruns c k t.pool t.root = true) := by
  have hmM := hc.bounds
  have hsh := ht.shaped
  have he := ht.exact
  have hs := ht.sorted
  unfold btDelAccesses
  unfold BTree.Shaped at hsh
  unfold BTree.toList at hs ⊢
  cases hroot : t.root with
  | obj o =>
    rw [hroot] at hsh
    exact hsh.elim
  | null =>
    refine iff_of_true inPage_nil ?_
    rintro ⟨-, h⟩
    cases h
  | page p =>
    rw [hroot] at hsh he hs
    obtain ⟨n, -, hshape, h0, hM, hpos⟩ := hsh
    dsimp only
    rw [inPage_append, btDeleteAccesses_inPage_iff hc k t.pool p hshape h0 hM hpos he hs]
    refine and_iff_left ?_
    split
    · split_ifs <;> simp
      omega
    · exact inPage_nil

/-- A full leaf loses an object, and no page is repaired. -/
theorem btDelAccesses_inPage_fullTree : spans5.InPage (btDelAccesses spans5 fullTree 22) :=
  (btDelAccesses_inPage_iff spans5_odd fullTree_wf 22).mpr (by decide)

/-- The leaf left of a full one underflows: the loop that moves the keys of the full leaf
down looks at `key[BT_ORDER - 1]` and `child[BT_ORDER]` and clears both. -/
theorem btDelAccesses_full_right : fullTree.WF spans5 ∧ (12, 13) ∈ fullTree.toList ∧
    PageAccess.key 4 ∈ btDelAccesses spans5 fullTree 12 ∧
    PageAccess.child 5 ∈ btDelAccesses spans5 fullTree 12 ∧
    ¬ spans5.InPage (btDelAccesses spans5 fullTree 12) :=
  ⟨fullTree_wf, by decide, by decide, by decide, by decide⟩

end Mungi
