import Mungi.BTree.Insert
import Mathlib.Tactic.IntervalCases

/-!
# Insertion is set insertion with overlap rejection

What one call of `BTInsert` can do to a page is said once, by `InsertOutcome`,
and proved by induction on the height of the page; `BTIns` follows.  The shape of
the tree, its objects and the neighbour come out right whatever the keys are.
The keys come out right unless an index page is split with the promoted child as
the first one of the new page: `BTInsertPage` then takes the page after it for an
object, and its first word for a base.

## Main definitions

* `splits`, `medianSplit` — from the tree and the key alone: the page is going to
  be split, and an index page below is going to be split that way.
* `Ready` — a subtree in order, and an object to insert.
* `InsertOutcome` — what `BTInsert` can do.

## Main results

* `btInsert_outcome`, `btIns_outcome` — what the functions can do to a tree of the
  right shape.
* `btIns_spec_iff` — **when insertion is right.**
* `btIns_median_split` — a tree on which it is not.
-/

namespace Mungi

open Cat ForLoop

variable {α : Type} {c : BTConf α}

/-! ### What the split does to the keys -/

/-- Inserting an object at base `k` splits the page: the pages down to the leaf
are full. -/
def splits (c : BTConf α) (k : ℕ) : BTPtr α → Bool
  | .null => false
  | .obj _ => false
  | .page ⟨idx, count, isleaf, key, child⟩ =>
      decide (count = c.btMaxkey) &&
        (isleaf || splits c k (child (PageOf.search ⟨idx, count, isleaf, key, child⟩ k).1))

/-- Inserting an object at base `k` splits an index page with the promoted child
between its halves, and the first word of the page after it is not the key that
should have been there. -/
def medianSplit (c : BTConf α) (k : ℕ) : BTPtr α → Bool
  | .null => false
  | .obj _ => false
  | .page ⟨idx, count, isleaf, key, child⟩ =>
      let hi := (PageOf.search ⟨idx, count, isleaf, key, child⟩ k).1
      !isleaf && (medianSplit c k (child hi) ||
        (decide (count = c.btMaxkey) && splits c k (child hi) && decide (hi = c.btMinkey) &&
          decide (c.ptrKey (child (c.btMinkey + 1)) ≠ key c.btMinkey)))

theorem splits_page (p : BTPage α) (k : ℕ) : splits c k (.page p) = true ↔
    p.count = c.btMaxkey ∧ (p.isleaf = true ∨ splits c k (p.child (p.search k).1) = true) := by
  show (decide (p.count = c.btMaxkey) && (p.isleaf || splits c k (p.child (p.search k).1))) = true
    ↔ _
  rw [Bool.and_eq_true, Bool.or_eq_true, decide_eq_true_eq]

theorem medianSplit_leaf {p : BTPage α} (h : p.isleaf = true) (k : ℕ) :
    medianSplit c k (.page p) = false := by
  show (!p.isleaf && _) = false
  rw [h]
  rfl

theorem medianSplit_page {p : BTPage α} (h : p.isleaf = false) (k : ℕ) :
    medianSplit c k (.page p) = true ↔ medianSplit c k (p.child (p.search k).1) = true ∨
      (p.count = c.btMaxkey ∧ splits c k (p.child (p.search k).1) = true ∧
        (p.search k).1 = c.btMinkey ∧ c.ptrKey (p.child (c.btMinkey + 1)) ≠ p.key c.btMinkey) := by
  show (!p.isleaf && (medianSplit c k (p.child (p.search k).1) ||
    (decide (p.count = c.btMaxkey) && splits c k (p.child (p.search k).1) &&
      decide ((p.search k).1 = c.btMinkey) &&
      decide (c.ptrKey (p.child (c.btMinkey + 1)) ≠ p.key c.btMinkey)))) = true ↔ _
  simp only [h, Bool.not_false, Bool.true_and, Bool.or_eq_true, Bool.and_eq_true,
    decide_eq_true_eq, and_assoc]

/-! ### The halves of a page -/

/-- Pages `l` and `r` are the halves of page `v`, which has one child too many. -/
structure Halves (c : BTConf α) (n : ℕ) (v l : BTPage α) (kmed : ℕ) (r : BTPage α) : Prop where
  shape_left : Shape c n l
  shape_right : Shape c n r
  count_left : l.count = c.btMinkey
  count_right : r.count = c.btMinkey
  toList : (BTPtr.page v).toList = (BTPtr.page l).toList ++ (BTPtr.page r).toList
  /-- Nothing but the keys of the halves themselves can be wrong. -/
  exact_child : Exact c (.page l) → Exact c (.page r) →
    ∀ i, 0 ≤ i → i ≤ v.count → Exact c (v.child i)
  exact_left : Exact c (.page v) → Exact c (.page l)
  exact_right : Exact c (.page v) → (Exact c (.page r) ↔ r.key 0 = v.key (c.btMinkey + 1))
  kmed_eq : Exact c (.page v) → kmed = c.leastBase (BTPtr.page r).toList

theorem SplitOf.halves (hc : c.Odd) {n : ℕ} {v : BTPage α} {key0 : ℕ}
    {s : BTPage α × ℕ × BTPage α} (h : SplitOf c v key0 s) (hv : Shape c n v)
    (hcount : v.count = c.btMaxkey + 1) : Halves c n v s.1 s.2.1 s.2.2 := by
  obtain ⟨hm, hM⟩ := hc.bounds
  obtain ⟨l, kmed, r⟩ := s
  obtain ⟨hl, hk, hr, -⟩ := h
  dsimp only at hl hk hr ⊢
  have hshape : Shape c n r := by
    have hs := hr.shape (by omega) (by omega) hv
    rw [shape_iff] at hs ⊢
    exact hs
  have happend := hl.toList_eq_append (r := r.setKey 0 (v.key (c.btMinkey + 1)))
    (by rwa [show v.count - (c.btMinkey + 1) = c.btMinkey by omega]) (by omega) (by omega)
  rw [toList_setKey] at happend
  have hrc : r.count = c.btMinkey := hr.count
  refine ⟨hl.shape le_rfl (by omega) hv, hshape, hl.count, hrc, happend, fun hel her i h₁ h₂ => ?_,
    fun hev => hl.exact le_rfl (by omega) hev, fun hev => ?_, fun hev => ?_⟩
  · rw [exact_page, hl.count] at hel
    rw [exact_page, hrc] at her
    by_cases hi : i ≤ c.btMinkey
    · have hx := hel.2 i h₁ hi
      rwa [hl.child i h₁ hi, Int.zero_add] at hx
    · have hx := her.2 (i - (c.btMinkey + 1)) (by omega) (by omega)
      have hch := hr.child (i - (c.btMinkey + 1)) (by omega) (by omega)
      rw [show c.btMinkey + 1 + (i - (c.btMinkey + 1)) = i by omega] at hch
      rw [← hch]
      exact hx
  · have hexact := hr.exact (by omega) (by omega) hev
    rw [exact_page] at hexact ⊢
    obtain ⟨hkeys, hch⟩ := hexact
    have hkey0 := hkeys 0 le_rfl (by rw [hr.count]; omega)
    rw [PageOf.setKey_key_self] at hkey0
    constructor
    · rintro ⟨hkr, -⟩
      rw [hkr 0 le_rfl (by omega), hkey0]
      rfl
    · intro h0
      refine ⟨fun i h₁ h₂ => ?_, hch⟩
      by_cases hi : i = 0
      · subst hi
        rw [h0, hkey0]
        rfl
      · have hx := hkeys i h₁ h₂
        rwa [PageOf.setKey_key_ne _ hi] at hx
  · rw [hk, (exact_page.mp hev).1 c.btMinkey (by omega) (by omega),
      hshape.leastBase_page (by omega) (by omega)]
    have hch := hr.child 0 le_rfl (by omega)
    rw [Int.add_zero] at hch
    rw [← hch]
    rfl

/-! ### Placing the promoted key -/

/-- The end of `BTInsert`: there is room, the pool has run out, or the page is
split. -/
theorem btPlace_cases (hc : c.Odd) {n : ℕ} (pool : PagePool) {p : BTPage α} {hi : ℤ} {k : ℕ}
    {q : BTPtr α} (ngb : Option α) (h₁ : -1 ≤ hi) (h₂ : hi ≤ p.count) (hmax : p.count ≤ c.btMaxkey)
    (hv : Shape c n (btInsertPage c p hi k q)) :
    (p.count < c.btMaxkey ∧ btPlace c pool p hi k q ngb
        = ⟨.ok, pool, .page (btInsertPage c p hi k q), k, q, ngb⟩) ∨
      (p.count = c.btMaxkey ∧ (btPlace c pool p hi k q ngb).ret = .allocFail ∧
        (btPlace c pool p hi k q ngb).current = .page p) ∨
      (p.count = c.btMaxkey ∧ (btPlace c pool p hi k q ngb).ret = .promotion ∧
        (btPlace c pool p hi k q ngb).ngb = ngb ∧ ∃ l r,
          (btPlace c pool p hi k q ngb).current = .page l ∧
          (btPlace c pool p hi k q ngb).ppromoted = .page r ∧
          Halves c n (btInsertPage c p hi k q) l (btPlace c pool p hi k q ngb).kpromoted r ∧
          r.key 0 = if hi = c.btMinkey then c.ptrKey (p.child (c.btMinkey + 1))
            else (btInsertPage c p hi k q).key (c.btMinkey + 1)) := by
  unfold btPlace
  by_cases hlt : p.count < c.btMaxkey
  · rw [if_pos hlt]
    exact Or.inl ⟨hlt, rfl⟩
  · have hfull : p.count = c.btMaxkey := by omega
    rw [if_neg hlt]
    cases hal : allocPage pool with
    | none => exact Or.inr (Or.inl ⟨hfull, rfl, rfl⟩)
    | some ip =>
      obtain ⟨idx, pool'⟩ := ip
      have hs := btSplit_spec (c := c) idx k q hc hfull h₁ h₂
      exact Or.inr (Or.inr ⟨hfull, rfl, rfl, _, _, rfl, rfl,
        hs.halves hc hv (by rw [btInsertPage_count, hfull]), hs.key_zero⟩)

/-! ### Where the object belongs -/

/-- A subtree in order, holding proper objects only, and a proper object to insert. -/
structure Ready (c : BTConf α) (obj : α) (q : BTPtr α) : Prop where
  exact : Exact c q
  sorted : q.toList.Pairwise c.Before
  proper : ∀ o ∈ q.toList, c.Proper o
  obj_proper : c.Proper obj

/-- The object lies between two runs of objects. -/
structure Between (c : BTConf α) (l₁ : List α) (obj : α) (l₂ : List α) : Prop where
  before : ∀ a ∈ l₁, c.Before a obj
  after : ∀ b ∈ l₂, c.Before obj b

/-- `*ngb` is the object before or after the place between two runs. -/
def Neighbour (ngb : Option α) (l₁ l₂ : List α) : Prop :=
  ∃ o, ngb = some o ∧ (l₁.getLast? = some o ∨ l₂.head? = some o)

theorem Neighbour.append {ngb : Option α} {l₁ l₂ : List α} (h : Neighbour ngb l₁ l₂)
    (a b : List α) : Neighbour ngb (a ++ l₁) (l₂ ++ b) := by
  obtain ⟨o, ho, h⟩ := h
  refine ⟨o, ho, ?_⟩
  rcases h with h | h
  · exact Or.inl (by rw [List.getLast?_append, h]; rfl)
  · exact Or.inr (by rw [List.head?_append, h]; rfl)

theorem Between.append {l₁ l₂ a b : List α} {obj : α} (h : Between c l₁ obj l₂)
    (ha : ∀ x ∈ a, c.Before x obj) (hb : ∀ x ∈ b, c.Before obj x) :
    Between c (a ++ l₁) obj (l₂ ++ b) := by
  refine ⟨fun x hx => ?_, fun x hx => ?_⟩
  · rcases List.mem_append.mp hx with hx | hx
    · exact ha x hx
    · exact h.before x hx
  · rcases List.mem_append.mp hx with hx | hx
    · exact h.after x hx
    · exact hb x hx

section Search
variable {n : ℕ} {p : BTPage α} {obj : α}

theorem Ready.child (h : Ready c obj (.page p)) {i : ℤ} (h₁ : 0 ≤ i) (h₂ : i ≤ p.count) :
    Ready c obj (p.child i) :=
  ⟨(exact_page.mp h.exact).2 i h₁ h₂, pairwise_child h.sorted h₁ h₂,
    fun o ho => h.proper o (mem_toList_page.mpr ⟨i, h₁, h₂, ho⟩), h.obj_proper⟩

/-- The facts about the search that insertion uses: an equal key, and the keys
next to the child found. -/
theorem Ready.search (hc : c.Odd) (hsh : Shape c n p) (h0 : 0 ≤ p.count)
    (h : Ready c obj (.page p)) :
    (0 < (p.search (c.btGetObjKey obj)).1 →
        p.key ((p.search (c.btGetObjKey obj)).1 - 1) ≤ c.btGetObjKey obj) ∧
      ((p.search (c.btGetObjKey obj)).1 < p.count →
        c.btGetObjKey obj < p.key (p.search (c.btGetObjKey obj)).1) ∧
      ((p.search (c.btGetObjKey obj)).2 = true ↔ 0 < (p.search (c.btGetObjKey obj)).1 ∧
        p.key ((p.search (c.btGetObjKey obj)).1 - 1) = c.btGetObjKey obj) :=
  PageOf.search_spec (fun i => hsh.child_ne_nil (by have := hc.bounds; omega))
    (exact_page.mp h.exact).1
    (h.sorted.imp fun hab => hab.lt) _ h0

/-- A key of a page is the base of an object right of it. -/
theorem Ready.exists_key (hc : c.Odd) (hsh : Shape c n p) (h : Ready c obj (.page p)) {i : ℤ}
    (h₁ : 0 ≤ i) (h₂ : i < p.count) :
    ∃ o ∈ (p.child (i + 1)).toList, p.key i = c.btGetObjKey o := by
  rw [(exact_page.mp h.exact).1 i h₁ h₂]
  exact BTConf.exists_leastBase
    (hsh.child_ne_nil (by have := hc.bounds; omega) (by omega) (by omega))

/-- `BT_DUPLICATE`: the object meets the one with the same base. -/
theorem Ready.meet_of_duplicate (hc : c.Odd) (hsh : Shape c n p) (h0 : 0 ≤ p.count)
    (h : Ready c obj (.page p)) (hfound : (p.search (c.btGetObjKey obj)).2 = true) :
    ∃ o ∈ (BTPtr.page p).toList, c.Meet obj o := by
  obtain ⟨hpos, hkey⟩ := (h.search hc hsh h0).2.2.mp hfound
  obtain ⟨-, hb⟩ := PageOf.search_bounds p (c.btGetObjKey obj) h0
  obtain ⟨o, ho, hko⟩ := h.exists_key hc hsh
    (show 0 ≤ (p.search (c.btGetObjKey obj)).1 - 1 by omega) (by omega)
  have hmem : o ∈ (BTPtr.page p).toList := mem_toList_page.mpr ⟨_, by omega, by omega, ho⟩
  have hp := h.proper o hmem
  have hobj := h.obj_proper
  unfold BTConf.Proper at hp hobj
  exact ⟨o, hmem, by omega, by omega⟩

/-- The first test for `BT_OVERLAP`. -/
theorem Ready.meet_of_match (hc : c.Odd) (hsh : Shape c n p) (h0 : 0 ≤ p.count)
    (h : Ready c obj (.page p)) (hlt : (p.search (c.btGetObjKey obj)).1 < p.count)
    (hmatch : c.btObjMatch obj (p.key (p.search (c.btGetObjKey obj)).1) = true) :
    ∃ o ∈ (BTPtr.page p).toList, c.Meet obj o := by
  obtain ⟨hb, -⟩ := PageOf.search_bounds p (c.btGetObjKey obj) h0
  obtain ⟨o, ho, hko⟩ := h.exists_key hc hsh hb hlt
  have hmem : o ∈ (BTPtr.page p).toList := mem_toList_page.mpr ⟨_, by omega, by omega, ho⟩
  have hp := h.proper o hmem
  unfold BTConf.Proper at hp
  simp only [BTConf.btObjMatch, Bool.and_eq_true, decide_eq_true_eq] at hmatch
  exact ⟨o, hmem, by omega, by omega⟩

/-- The objects left of the child found end before the new one starts. -/
theorem Ready.before_lower (hc : c.Odd) (hsh : Shape c n p) (h0 : 0 ≤ p.count)
    (h : Ready c obj (.page p)) :
    ∀ a ∈ lower p (p.search (c.btGetObjKey obj)).1, c.Before a obj := by
  intro a ha
  obtain ⟨hb₁, hb₂⟩ := PageOf.search_bounds p (c.btGetObjKey obj) h0
  obtain ⟨i, h₁, h₂, hai⟩ := exists_of_mem_cat ha
  have hpos : 0 < (p.search (c.btGetObjKey obj)).1 := by omega
  have hle := (h.search hc hsh h0).1 hpos
  obtain ⟨o, ho, hko⟩ := h.exists_key hc hsh
    (show 0 ≤ (p.search (c.btGetObjKey obj)).1 - 1 by omega) (by omega)
  rw [Int.sub_add_cancel] at ho
  exact (lt_of_mem_child h.sorted h₁ (by omega) hb₂ hai ho).trans_lt (by omega)

/-- The objects right of the child found start after the new one ends, unless the
first of them starts within it. -/
theorem Ready.before_upper (hc : c.Odd) (hsh : Shape c n p) (h0 : 0 ≤ p.count)
    (h : Ready c obj (.page p))
    (hno : ¬ ((p.search (c.btGetObjKey obj)).1 < p.count ∧
      c.btObjMatch obj (p.key (p.search (c.btGetObjKey obj)).1) = true)) :
    ∀ b ∈ upper p (p.search (c.btGetObjKey obj)).1, c.Before obj b := by
  intro b hb
  obtain ⟨hb₁, hb₂⟩ := PageOf.search_bounds p (c.btGetObjKey obj) h0
  obtain ⟨i, h₁, h₂, hbi⟩ := exists_of_mem_cat hb
  have hlt : (p.search (c.btGetObjKey obj)).1 < p.count := by omega
  have hkey := (h.search hc hsh h0).2.1 hlt
  have hlim : c.btGetObjLim obj ≤ p.key (p.search (c.btGetObjKey obj)).1 := by
    by_contra hcon
    refine hno ⟨hlt, ?_⟩
    simp only [BTConf.btObjMatch, Bool.and_eq_true, decide_eq_true_eq]
    omega
  have hle : p.key (p.search (c.btGetObjKey obj)).1 ≤ c.btGetObjKey b := by
    rcases (show i = (p.search (c.btGetObjKey obj)).1 + 1 ∨
      (p.search (c.btGetObjKey obj)).1 + 1 < i by omega) with hi | hi
    · rw [(exact_page.mp h.exact).1 _ hb₁ hlt, ← hi]
      exact BTConf.leastBase_le ((h.child (by omega) (by omega)).sorted.imp fun hab => hab.lt) hbi
    · obtain ⟨o, ho, hko⟩ := h.exists_key hc hsh hb₁ hlt
      rw [hko]
      exact Nat.le_of_lt (lt_of_mem_child h.sorted (by omega) hi (by omega) ho hbi).lt
  exact ⟨by omega, by omega⟩

end Search

/-! ### One call of `BTInsert` -/

/-- **What `BTInsert` can do to a page** with `n` levels below it. -/
inductive InsertOutcome (c : BTConf α) (n : ℕ) (obj : α) (pool : PagePool) (p : BTPage α)
    (r : BTInsRes α) : Prop
  /-- The object overlaps a stored one, and nothing changes. -/
  | refused (ret : r.ret = .duplicate ∨ r.ret = .overlap) (pool_eq : r.pool = pool)
      (current : r.current = .page p)
      (meet : Ready c obj (.page p) → ∃ o ∈ (BTPtr.page p).toList, c.Meet obj o)
  /-- The pool has run out, possibly after pages further down were split. -/
  | failed (q : BTPage α) (ret : r.ret = .allocFail) (current : r.current = .page q)
      (shape : Shape c n q) (count : q.count = p.count)
      (mem : ∀ o ∈ (BTPtr.page q).toList, o = obj ∨ o ∈ (BTPtr.page p).toList)
  /-- The object is in. -/
  | placed (q : BTPage α) (l₁ l₂ : List α) (ret : r.ret = .ok) (current : r.current = .page q)
      (shape : Shape c n q) (count_le : p.count ≤ q.count) (count_max : q.count ≤ c.btMaxkey)
      (old : (BTPtr.page p).toList = l₁ ++ l₂) (new : (BTPtr.page q).toList = l₁ ++ obj :: l₂)
      (ngb : Neighbour r.ngb l₁ l₂) (full : splits c (c.btGetObjKey obj) (.page p) = false)
      (between : Ready c obj (.page p) → Between c l₁ obj l₂)
      (exact_iff : Ready c obj (.page p) →
        (Exact c (.page q) ↔ medianSplit c (c.btGetObjKey obj) (.page p) = false))
  /-- The object is in, and the page was split. -/
  | promoted (q q' : BTPage α) (l₁ l₂ : List α) (ret : r.ret = .promotion)
      (current : r.current = .page q) (ppromoted : r.ppromoted = .page q')
      (shape : Shape c n q) (shape' : Shape c n q') (count : q.count = c.btMinkey)
      (count' : q'.count = c.btMinkey) (old : (BTPtr.page p).toList = l₁ ++ l₂)
      (new : (BTPtr.page q).toList ++ (BTPtr.page q').toList = l₁ ++ obj :: l₂)
      (ngb : Neighbour r.ngb l₁ l₂) (full : splits c (c.btGetObjKey obj) (.page p) = true)
      (between : Ready c obj (.page p) → Between c l₁ obj l₂)
      (exact_iff : Ready c obj (.page p) → (Exact c (.page q) ∧ Exact c (.page q') ↔
        medianSplit c (c.btGetObjKey obj) (.page p) = false))
      (kpromoted : Ready c obj (.page p) → Exact c (.page q) → Exact c (.page q') →
        r.kpromoted = c.leastBase (BTPtr.page q').toList)

theorem btInsert_page (obj : α) (pool : PagePool) (p : BTPage α) :
    btInsert c obj pool (.page p) =
      (let fail (ret : BTRet) : BTInsRes α := ⟨ret, pool, .page p, 0, .null, none⟩
      let hi := (p.search (c.btGetObjKey obj)).1
      if (p.search (c.btGetObjKey obj)).2 then fail .duplicate
      else if hi < p.count ∧ c.btObjMatch obj (p.key hi) then fail .overlap
      else if p.isleaf then
        match btInsertLeaf c obj hi (p.child hi) with
        | none => fail .overlap
        | some (hi', o) => btPlace c pool p hi' (c.btGetObjKey obj) (.obj obj) (some o)
      else
        let r := btInsert c obj pool (p.child hi)
        if r.ret = .promotion then
          btPlace c r.pool (p.setChild hi r.current) hi r.kpromoted r.ppromoted r.ngb
        else { r with current := .page (p.setChild hi r.current) }) := rfl

/-- The end of `BTInsert`, on the page `p₁` that the call below left in place of
`p`.  With `v` the page that results where there is room: its keys are right unless
something below went wrong, and then those of its halves are, unless the one key
that is read off a child is not what it should be. -/
theorem btPlace_outcome (hc : c.Odd) {n : ℕ} {obj : α} {pool pool' : PagePool} {p p₁ : BTPage α}
    {hi : ℤ} {k : ℕ} {q : BTPtr α} {ngb : Option α} (l₁ l₂ : List α) (h₁ : -1 ≤ hi)
    (h₂ : hi ≤ p₁.count) (hcount : p₁.count = p.count) (hmax : p.count ≤ c.btMaxkey)
    (hp₁ : Shape c n p₁) (hmem : ∀ o ∈ (BTPtr.page p₁).toList, o = obj ∨ o ∈ (BTPtr.page p).toList)
    (hv : Shape c n (btInsertPage c p₁ hi k q)) (old : (BTPtr.page p).toList = l₁ ++ l₂)
    (new : (BTPtr.page (btInsertPage c p₁ hi k q)).toList = l₁ ++ obj :: l₂)
    (hngb : Neighbour ngb l₁ l₂)
    (hsplits : splits c (c.btGetObjKey obj) (.page p) = true ↔ p.count = c.btMaxkey)
    (hbetween : Ready c obj (.page p) → Between c l₁ obj l₂)
    (hexact : Ready c obj (.page p) → (∀ i, 0 ≤ i → i ≤ p.count + 1 →
      Exact c ((btInsertPage c p₁ hi k q).child i)) → Exact c (.page (btInsertPage c p₁ hi k q)))
    (hmedian : Ready c obj (.page p) → (medianSplit c (c.btGetObjKey obj) (.page p) = false ↔
      Exact c (.page (btInsertPage c p₁ hi k q)) ∧ (p.count = c.btMaxkey → hi = c.btMinkey →
        c.ptrKey (p₁.child (c.btMinkey + 1))
          = (btInsertPage c p₁ hi k q).key (c.btMinkey + 1)))) :
    InsertOutcome c n obj pool p (btPlace c pool' p₁ hi k q ngb) := by
  rcases btPlace_cases hc pool' ngb h₁ h₂ (by omega) hv with ⟨hlt, hr⟩ |
    ⟨hfull, hret, hcur⟩ | ⟨hfull, hret, hn, l, r, hcur, hprom, hhalves, hkey0⟩
  · rw [hr]
    refine .placed _ l₁ l₂ rfl rfl hv (by rw [btInsertPage_count]; omega)
      (by rw [btInsertPage_count]; omega) old new hngb ?_ hbetween fun h => ?_
    · rw [← Bool.not_eq_true, hsplits]
      omega
    · rw [hmedian h]
      exact ⟨fun he => ⟨he, fun hf => by omega⟩, fun he => he.1⟩
  · exact .failed p₁ hret hcur hp₁ hcount hmem
  · have hvc : (btInsertPage c p₁ hi k q).count = p.count + 1 := by
      rw [btInsertPage_count, hcount]
    -- the halves are right exactly when the whole is and the key read off a child is
    have hkey0' : r.key 0 = (btInsertPage c p₁ hi k q).key (c.btMinkey + 1) ↔
        (hi = c.btMinkey → c.ptrKey (p₁.child (c.btMinkey + 1))
          = (btInsertPage c p₁ hi k q).key (c.btMinkey + 1)) := by
      rw [hkey0]
      split_ifs with hm
      · exact ⟨fun h _ => h, fun h => h hm⟩
      · exact ⟨fun _ h => absurd h hm, fun _ => rfl⟩
    have hwhole : Ready c obj (.page p) → Exact c (.page l) → Exact c (.page r) →
        Exact c (.page (btInsertPage c p₁ hi k q)) := fun h hel her =>
      hexact h fun i hi₁ hi₂ => hhalves.exact_child hel her i hi₁ (by omega)
    refine .promoted l r l₁ l₂ hret hcur hprom hhalves.shape_left hhalves.shape_right
      hhalves.count_left hhalves.count_right old (by rw [← hhalves.toList, new])
      (by rw [hn]; exact hngb) (hsplits.mpr (by omega)) hbetween (fun h => ?_)
      (fun h hel her => hhalves.kmed_eq (hwhole h hel her))
    rw [hmedian h]
    constructor
    · rintro ⟨hel, her⟩
      have hev := hwhole h hel her
      exact ⟨hev, fun _ => hkey0'.mp ((hhalves.exact_right hev).mp her)⟩
    · rintro ⟨hev, hk⟩
      exact ⟨hhalves.exact_left hev,
        (hhalves.exact_right hev).mpr (hkey0'.mpr (hk (by omega)))⟩

section Leaf
variable {p : BTPage α} {obj o : α} {hi : ℤ}

/-- A leaf refuses an object only when it meets the one found. -/
theorem meet_of_btInsertLeaf (hobj : c.Proper obj) (ho : c.Proper o)
    (h : btInsertLeaf c obj hi (.obj o) = none) : c.Meet obj o := by
  unfold BTConf.Proper at hobj ho
  unfold btInsertLeaf at h
  dsimp only at h
  split_ifs at h with hmeet
  simp only [BTConf.btObjMatch, BTConf.btOverlaps, Bool.or_eq_true, Bool.and_eq_true,
    decide_eq_true_eq] at hmeet
  unfold BTConf.Meet
  omega

/-- The place in a leaf: in front of the first object, or behind the one found. -/
theorem btInsertLeaf_some (hhi : 0 ≤ hi) {hi' : ℤ} {o' : α}
    (h : btInsertLeaf c obj hi (.obj o) = some (hi', o')) :
    o' = o ∧ ((hi' = -1 ∧ hi = 0 ∧ (c.Proper obj → c.Proper o → c.Before obj o)) ∨
      (hi' = hi ∧ (c.Proper o → (0 < hi → c.btGetObjKey o ≤ c.btGetObjKey obj) →
        c.Before o obj))) := by
  unfold btInsertLeaf at h
  dsimp only at h
  split_ifs at h with hmeet hfirst
  · simp only [BTConf.btObjMatch, BTConf.btOverlaps, Bool.or_eq_true, Bool.and_eq_true,
      decide_eq_true_eq] at hmeet
    obtain ⟨rfl, rfl⟩ := Prod.mk.inj (Option.some.inj h)
    refine ⟨rfl, Or.inl ⟨rfl, hfirst.1, fun hobj ho => ?_⟩⟩
    unfold BTConf.Proper at hobj ho
    exact ⟨hfirst.2, by omega⟩
  · simp only [BTConf.btObjMatch, BTConf.btOverlaps, Bool.or_eq_true, Bool.and_eq_true,
      decide_eq_true_eq] at hmeet
    obtain ⟨rfl, rfl⟩ := Prod.mk.inj (Option.some.inj h)
    refine ⟨rfl, Or.inr ⟨rfl, fun ho hle => ?_⟩⟩
    unfold BTConf.Proper at ho
    exact ⟨by omega, by omega⟩

/-- **`BTInsert` in a leaf.** -/
theorem btInsert_leaf (hc : c.Odd) (pool : PagePool) (hsh : Shape c 0 p) (h0 : 0 ≤ p.count)
    (hmax : p.count ≤ c.btMaxkey) :
    InsertOutcome c 0 obj pool p (btInsert c obj pool (.page p)) := by
  obtain ⟨hb₁, hb₂⟩ := PageOf.search_bounds p (c.btGetObjKey obj) h0
  have hbefore := fun h : Ready c obj (.page p) => h.before_lower hc hsh h0
  have hafter := fun (h : Ready c obj (.page p)) hno => h.before_upper hc hsh h0 hno
  have hsearch := fun h : Ready c obj (.page p) => h.search hc hsh h0
  have hdup := fun (h : Ready c obj (.page p)) hf => h.meet_of_duplicate hc hsh h0 hf
  have hmat := fun (h : Ready c obj (.page p)) h₁ h₂ => h.meet_of_match hc hsh h0 h₁ h₂
  have hfullp := splits_page (c := c) p (c.btGetObjKey obj)
  rw [btInsert_page]
  dsimp only
  generalize hs : p.search (c.btGetObjKey obj) = s at *
  obtain ⟨hi, found⟩ := s
  dsimp only at *
  by_cases hfound : found = true
  · rw [if_pos hfound]
    exact .refused (Or.inl rfl) rfl rfl fun h => hdup h hfound
  rw [if_neg hfound]
  by_cases hov : hi < p.count ∧ c.btObjMatch obj (p.key hi) = true
  · rw [if_pos hov]
    exact .refused (Or.inr rfl) rfl rfl fun h => hmat h hov.1 hov.2
  rw [if_neg hov, if_pos hsh.isleaf_zero]
  obtain ⟨o, ho⟩ := hsh.2 hi hb₁ hb₂
  have hmem : o ∈ (BTPtr.page p).toList :=
    mem_toList_page.mpr ⟨hi, hb₁, hb₂, by rw [ho]; exact List.mem_singleton_self o⟩
  rw [ho]
  cases hl : btInsertLeaf c obj hi (.obj o) with
  | none =>
    exact .refused (Or.inr rfl) rfl rfl fun h =>
      ⟨o, hmem, meet_of_btInsertLeaf h.obj_proper (h.proper o hmem) hl⟩
  | some r =>
    obtain ⟨hi', o'⟩ := r
    obtain ⟨rfl, hplace⟩ := btInsertLeaf_some hb₁ hl
    dsimp only
    have h₁ : -1 ≤ hi' := by omega
    have h₂ : hi' ≤ p.count := by omega
    have hobj : ∀ i, 0 ≤ i → i ≤ p.count →
        c.ptrKey (p.child i) = c.leastBase (p.child i).toList := by
      intro i hi₁ hi₂
      obtain ⟨x, hx⟩ := hsh.2 i hi₁ hi₂
      rw [hx]
      rfl
    have hexact : Ready c obj (.page p) →
        Exact c (.page (btInsertPage c p hi' (c.btGetObjKey obj) (.obj obj))) := fun h =>
      btInsertPage_exact p _ _ h.exact trivial h₁ h₂ (fun _ => rfl) fun _ => hobj 0 le_rfl h0
    have hcut : (hi' = -1 ∧ cat (fun i => (p.child i).toList) 0 (hi' + 1).toNat = [] ∧
          cat (fun i => (p.child i).toList) (hi' + 1) (p.count - hi').toNat = o' :: upper p hi) ∨
        (hi' = hi ∧ cat (fun i => (p.child i).toList) 0 (hi' + 1).toNat = lower p hi ++ [o'] ∧
          cat (fun i => (p.child i).toList) (hi' + 1) (p.count - hi').toNat = upper p hi) := by
      rcases hplace with ⟨rfl, rfl, -⟩ | ⟨rfl, -⟩
      · refine Or.inl ⟨rfl, rfl, ?_⟩
        have h := toList_eq_lower_upper p le_rfl h0
        rw [ho, toList_page] at h
        rw [show p.count - -1 = p.count + 1 by omega]
        exact h
      · refine Or.inr ⟨rfl, ?_, rfl⟩
        rw [show (hi' + 1).toNat = hi'.toNat + 1 by omega, cat_succ, Int.toNat_of_nonneg hb₁,
          Int.zero_add, ho]
        rfl
    refine btPlace_outcome hc (cat (fun i => (p.child i).toList) 0 (hi' + 1).toNat)
      (cat (fun i => (p.child i).toList) (hi' + 1) (p.count - hi').toNat) h₁ h₂ rfl hmax hsh
      (fun x hx => Or.inr hx) (btInsertPage_shape p _ _ hsh ⟨obj, rfl⟩ h₁ h₂) ?_ ?_ ?_ ?_ ?_
      (fun h _ => hexact h) ?_
    · have hcut := cat_split (fun i => (p.child i).toList) (show (0 : ℤ) ≤ hi' + 1 by omega)
        (show hi' + 1 ≤ p.count + 1 by omega)
      rw [toList_page]
      simpa only [Int.sub_zero, show p.count + 1 - (hi' + 1) = p.count - hi' by omega] using hcut
    · rw [btInsertPage_toList p _ _ h₁ h₂]
      simp
    · refine ⟨o', rfl, ?_⟩
      rcases hcut with ⟨-, -, h⟩ | ⟨-, h, -⟩
      · exact Or.inr (by rw [h]; rfl)
      · exact Or.inl (by rw [h, List.getLast?_append]; rfl)
    · rw [hfullp, hsh.isleaf_zero]
      simp
    · intro h
      have hbef := hbefore h
      have haft := hafter h hov
      have hpo := h.proper o' hmem
      rcases hcut with ⟨hi1, hl₁, hl₂⟩ | ⟨hi1, hl₁, hl₂⟩
      · rw [hl₁, hl₂]
        have hfirst : c.Before obj o' := by
          rcases hplace with ⟨-, -, hb⟩ | ⟨heq, -⟩
          · exact hb h.obj_proper hpo
          · omega
        refine ⟨by simp, fun b hb => ?_⟩
        rcases List.mem_cons.mp hb with rfl | hb
        · exact hfirst
        · exact haft b hb
      · rw [hl₁, hl₂]
        have hlast : c.Before o' obj := by
          rcases hplace with ⟨hneg, -, -⟩ | ⟨-, hb⟩
          · omega
          · refine hb hpo fun hpos => ?_
            have hle := (hsearch h).1 hpos
            rwa [(exact_page.mp h.exact).1 (hi - 1) (by omega) (by omega), Int.sub_add_cancel,
              ho] at hle
        refine ⟨fun a ha => ?_, haft⟩
        rcases List.mem_append.mp ha with ha | ha
        · exact hbef a ha
        · rw [List.mem_singleton.mp ha]
          exact hlast
    · intro h
      simp only [medianSplit_leaf hsh.isleaf_zero, hexact h, true_and, true_iff]
      intro hf hm
      have hMm := hc.bounds
      rw [btInsertPage_key p _ _ h₁ (by omega) (by omega), if_neg (by omega), if_neg (by omega),
        if_neg (by omega), Int.add_sub_cancel, (exact_page.mp h.exact).1 _ (by omega) (by omega),
        hobj _ (by omega) (by omega)]

end Leaf

theorem Between.leastBase_eq {l₁ l₂ : List α} {obj : α} (h : Between c l₁ obj l₂)
    (hne : l₁ ++ l₂ ≠ []) (hle : c.leastBase (l₁ ++ l₂) ≤ c.btGetObjKey obj) :
    c.leastBase (l₁ ++ obj :: l₂) = c.leastBase (l₁ ++ l₂) := by
  cases l₁ with
  | cons a l₁ => rfl
  | nil =>
    cases l₂ with
    | nil => exact absurd rfl hne
    | cons b l₂ =>
      have hb := (h.after b List.mem_cons_self).1
      rw [List.nil_append, BTConf.leastBase_cons] at hle
      omega

section Node
variable {n : ℕ} {p q : BTPage α} {obj : α} {hi : ℤ}

/-- Where a child starts does not change with one more object in it. -/
theorem Ready.leastBase_child (hc : c.Odd) (hsh : Shape c n p) (h : Ready c obj (.page p))
    (h₁ : 0 ≤ hi) (h₂ : hi ≤ p.count) (hq : p.child hi = .page q)
    (hle : 0 < hi → p.key (hi - 1) ≤ c.btGetObjKey obj) {q' : BTPage α} {l₁ l₂ l₃ : List α}
    (hold : (BTPtr.page q).toList = l₁ ++ l₂) (hbetween : Between c l₁ obj l₂)
    (hnew : (BTPtr.page q').toList ++ l₃ = l₁ ++ obj :: l₂) (hne : (BTPtr.page q').toList ≠ [])
    (hpos : 0 < hi) : c.leastBase (BTPtr.page q').toList = c.leastBase (p.child hi).toList := by
  have hmin := hc.bounds
  have hkey := hle hpos
  rw [(exact_page.mp h.exact).1 (hi - 1) (by omega) (by omega), Int.sub_add_cancel, hq,
    hold] at hkey
  have hchild := hsh.child_ne_nil (by omega) h₁ h₂
  rw [hq, hold] at hchild
  rw [hq, hold, ← hbetween.leastBase_eq hchild hkey, ← hnew, BTConf.leastBase_append hne]

/-- A child replaced by a page that holds one more object: the keys stay right. -/
theorem Ready.exact_setChild (hc : c.Odd) (hsh : Shape c (n + 1) p) (h : Ready c obj (.page p))
    (h₁ : 0 ≤ hi) (h₂ : hi ≤ p.count) (hq : p.child hi = .page q)
    (hle : 0 < hi → p.key (hi - 1) ≤ c.btGetObjKey obj) {q' : BTPage α} {l₁ l₂ l₃ : List α}
    (hold : (BTPtr.page q).toList = l₁ ++ l₂) (hbetween : Between c l₁ obj l₂)
    (hnew : (BTPtr.page q').toList ++ l₃ = l₁ ++ obj :: l₂) (hne : (BTPtr.page q').toList ≠ [])
    (hexact : Exact c (.page q')) : Exact c (.page (p.setChild hi (.page q'))) :=
  h.exact.setChild hexact fun hpos _ =>
    h.leastBase_child hc hsh h₁ h₂ hq hle hold hbetween hnew hne hpos

/-- A child split in two: the keys are right if those of its halves are. -/
theorem Ready.exact_promoted_iff (hc : c.Odd) (hsh : Shape c (n + 1) p)
    (h : Ready c obj (.page p)) (h₁ : 0 ≤ hi) (h₂ : hi ≤ p.count) (hq : p.child hi = .page q)
    (hle : 0 < hi → p.key (hi - 1) ≤ c.btGetObjKey obj) {q₁ q₂ : BTPage α} {l₁ l₂ : List α} {k : ℕ}
    (hold : (BTPtr.page q).toList = l₁ ++ l₂) (hbetween : Between c l₁ obj l₂)
    (hnew : (BTPtr.page q₁).toList ++ (BTPtr.page q₂).toList = l₁ ++ obj :: l₂)
    (hne : (BTPtr.page q₁).toList ≠ [])
    (hk : Exact c (.page q₁) → Exact c (.page q₂) → k = c.leastBase (BTPtr.page q₂).toList) :
    Exact c (.page (btInsertPage c (p.setChild hi (.page q₁)) hi k (.page q₂))) ↔
      Exact c (.page q₁) ∧ Exact c (.page q₂) := by
  constructor
  · intro hev
    have hch := (exact_page.mp hev).2
    rw [btInsertPage_count, PageOf.setChild_count] at hch
    constructor
    · have := hch hi h₁ (by omega)
      rwa [btInsertPage_child _ _ _ (by omega) h₁ (by rw [PageOf.setChild_count]; omega),
        if_pos le_rfl, PageOf.setChild_child_self] at this
    · have := hch (hi + 1) (by omega) (by omega)
      rwa [btInsertPage_child _ _ _ (by omega) (by omega) (by rw [PageOf.setChild_count]; omega),
        if_neg (by omega), if_pos rfl] at this
  · rintro ⟨he₁, he₂⟩
    exact btInsertPage_exact _ _ _
      (h.exact_setChild hc hsh h₁ h₂ hq hle hold hbetween hnew hne he₁) he₂ (by omega) h₂
      (fun _ => hk he₁ he₂) (by omega)

/-- The objects of a page with a child split in two. -/
theorem promoted_toList (h₁ : 0 ≤ hi) (h₂ : hi ≤ p.count) (k : ℕ) {q₁ q₂ : BTPage α}
    {l₁ l₂ : List α}
    (hnew : (BTPtr.page q₁).toList ++ (BTPtr.page q₂).toList = l₁ ++ obj :: l₂) :
    (BTPtr.page (btInsertPage c (p.setChild hi (.page q₁)) hi k (.page q₂))).toList =
      lower p hi ++ l₁ ++ obj :: (l₂ ++ upper p hi) := by
  have hcut : cat (fun i => ((p.setChild hi (.page q₁)).child i).toList) 0 (hi + 1).toNat
      = lower p hi ++ (BTPtr.page q₁).toList := by
    rw [show (hi + 1).toNat = hi.toNat + 1 by omega, cat_succ, Int.toNat_of_nonneg h₁,
      Int.zero_add, PageOf.setChild_child_self]
    congr 1
    exact cat_congr fun i hi₁ hi₂ => by rw [PageOf.setChild_child_ne _ (by omega)]
  have habove : cat (fun i => ((p.setChild hi (.page q₁)).child i).toList) (hi + 1)
      (p.count - hi).toNat = upper p hi :=
    cat_congr fun i hi₁ hi₂ => by rw [PageOf.setChild_child_ne _ (by omega)]
  rw [btInsertPage_toList (p.setChild hi (.page q₁)) _ _ (by omega) h₂, hcut,
    PageOf.setChild_count, habove, List.append_assoc (lower p hi), hnew]
  simp

/-- The call below has split its page. -/
theorem promoted_outcome (hc : c.Odd) {pool pool' : PagePool} (hsh : Shape c (n + 1) p)
    (h₁ : 0 ≤ hi) (h₂ : hi ≤ p.count) (hmax : p.count ≤ c.btMaxkey) (hq : p.child hi = .page q)
    {q₁ q₂ : BTPage α} {k : ℕ} {ngb : Option α} {l₁ l₂ : List α} (hs₁ : Shape c n q₁)
    (hs₂ : Shape c n q₂) (hc₁ : q₁.count = c.btMinkey) (hc₂ : q₂.count = c.btMinkey)
    (hold : (BTPtr.page q).toList = l₁ ++ l₂)
    (hnew : (BTPtr.page q₁).toList ++ (BTPtr.page q₂).toList = l₁ ++ obj :: l₂)
    (hngb : Neighbour ngb l₁ l₂)
    (hsplits : splits c (c.btGetObjKey obj) (.page p) = true ↔ p.count = c.btMaxkey)
    (hbetween : Ready c obj (.page p) →
      Between c (lower p hi ++ l₁) obj (l₂ ++ upper p hi))
    (hexact : Ready c obj (.page p) →
      (Exact c (.page (btInsertPage c (p.setChild hi (.page q₁)) hi k (.page q₂))) ↔
        Exact c (.page q₁) ∧ Exact c (.page q₂)))
    (hmedian : Ready c obj (.page p) → (medianSplit c (c.btGetObjKey obj) (.page p) = false ↔
      (Exact c (.page q₁) ∧ Exact c (.page q₂)) ∧ (p.count = c.btMaxkey → hi = c.btMinkey →
        c.ptrKey (p.child (c.btMinkey + 1)) = p.key c.btMinkey))) :
    InsertOutcome c (n + 1) obj pool p
      (btPlace c pool' (p.setChild hi (.page q₁)) hi k (.page q₂) ngb) := by
  have hmM := hc.bounds
  have hp₁ : Shape c (n + 1) (p.setChild hi (.page q₁)) :=
    hsh.setChild hi ⟨q₁, rfl, hs₁, by omega, by omega⟩
  have hlist : (BTPtr.page p).toList = lower p hi ++ (l₁ ++ l₂) ++ upper p hi := by
    rw [toList_eq_lower_upper p h₁ h₂, hq, hold]
  refine btPlace_outcome hc (lower p hi ++ l₁) (l₂ ++ upper p hi) (by omega) h₂ rfl
    hmax hp₁ ?_ (btInsertPage_shape _ _ _ hp₁ ⟨q₂, rfl, hs₂, by omega, by omega⟩ (by omega) h₂)
    (by rw [hlist]; simp) ?_ (hngb.append _ _) hsplits hbetween ?_ ?_
  · intro o ho
    have hset : (BTPtr.page (p.setChild hi (.page q₁))).toList
        = lower p hi ++ (BTPtr.page q₁).toList ++ upper p hi := toList_setChild p h₁ h₂ _
    have hmem : o ∈ (BTPtr.page q₁).toList → o ∈ l₁ ++ obj :: l₂ := fun ho => by
      rw [← hnew]
      exact List.mem_append_left _ ho
    rw [hset] at ho
    rw [hlist]
    simp only [List.mem_append, List.mem_cons] at ho hmem ⊢
    rcases ho with (ho | ho) | ho
    · exact Or.inr (Or.inl (Or.inl ho))
    · rcases hmem ho with h | h | h
      · exact Or.inr (Or.inl (Or.inr (Or.inl h)))
      · exact Or.inl h
      · exact Or.inr (Or.inl (Or.inr (Or.inr h)))
    · exact Or.inr (Or.inr ho)
  · exact promoted_toList h₁ h₂ k hnew
  · intro h hch
    rw [hexact h]
    constructor
    · have := hch hi h₁ (by omega)
      rwa [btInsertPage_child _ _ _ (by omega) h₁ (by rw [PageOf.setChild_count]; omega),
        if_pos le_rfl, PageOf.setChild_child_self] at this
    · have := hch (hi + 1) (by omega) (by omega)
      rwa [btInsertPage_child _ _ _ (by omega) (by omega) (by rw [PageOf.setChild_count]; omega),
        if_neg (by omega), if_pos rfl] at this
  · intro h
    rw [hmedian h, hexact h]
    refine and_congr_right fun _ => forall_congr' fun hf => forall_congr' fun hm => ?_
    rw [btInsertPage_key _ _ _ (by omega) (by omega) (by rw [PageOf.setChild_count]; omega),
      if_neg (by omega), if_neg (by omega), if_neg (by omega), Int.add_sub_cancel,
      PageOf.setChild_child_ne _ (by omega), PageOf.setChild_key]

/-- **`BTInsert` in an index page.** -/
theorem btInsert_node (hc : c.Odd) (pool : PagePool) (hsh : Shape c (n + 1) p) (h0 : 0 ≤ p.count)
    (hmax : p.count ≤ c.btMaxkey) (ih : ∀ q : BTPage α, Shape c n q → 0 ≤ q.count →
      q.count ≤ c.btMaxkey → InsertOutcome c n obj pool q (btInsert c obj pool (.page q))) :
    InsertOutcome c (n + 1) obj pool p (btInsert c obj pool (.page p)) := by
  obtain ⟨hb₁, hb₂⟩ := PageOf.search_bounds p (c.btGetObjKey obj) h0
  have hmM := hc.bounds
  have hbefore := fun h : Ready c obj (.page p) => h.before_lower hc hsh h0
  have hafter := fun (h : Ready c obj (.page p)) hno => h.before_upper hc hsh h0 hno
  have hsearch := fun h : Ready c obj (.page p) => h.search hc hsh h0
  have hdup := fun (h : Ready c obj (.page p)) hf => h.meet_of_duplicate hc hsh h0 hf
  have hmat := fun (h : Ready c obj (.page p)) h₁ h₂ => h.meet_of_match hc hsh h0 h₁ h₂
  have hfullp := splits_page (c := c) p (c.btGetObjKey obj)
  have hmedp := medianSplit_page (c := c) hsh.isleaf_succ (c.btGetObjKey obj)
  rw [btInsert_page]
  dsimp only
  generalize hs : p.search (c.btGetObjKey obj) = s at *
  obtain ⟨hi, found⟩ := s
  dsimp only at *
  by_cases hfound : found = true
  · rw [if_pos hfound]
    exact .refused (Or.inl rfl) rfl rfl fun h => hdup h hfound
  rw [if_neg hfound]
  by_cases hov : hi < p.count ∧ c.btObjMatch obj (p.key hi) = true
  · rw [if_pos hov]
    exact .refused (Or.inr rfl) rfl rfl fun h => hmat h hov.1 hov.2
  rw [if_neg hov, if_neg (by rw [hsh.isleaf_succ]; simp)]
  obtain ⟨q, hq, hqsh, hqmin, hqmax⟩ := hsh.2 hi hb₁ hb₂
  have hlist : (BTPtr.page p).toList = lower p hi ++ (BTPtr.page q).toList ++ upper p hi := by
    rw [← hq]
    exact toList_eq_lower_upper p hb₁ hb₂
  have hchild : Ready c obj (.page p) → Ready c obj (.page q) := fun h => by
    have := h.child hb₁ hb₂
    rwa [hq] at this
  have hset : ∀ q' : BTPtr α, (BTPtr.page (p.setChild hi q')).toList
      = lower p hi ++ q'.toList ++ upper p hi := toList_setChild p hb₁ hb₂
  rw [hq] at hfullp hmedp ⊢
  rw [hsh.isleaf_succ] at hfullp
  cases ih q hqsh (by omega) hqmax with
  | refused ret pool_eq current meet =>
    rw [if_neg (by rcases ret with h | h <;> rw [h] <;> decide)]
    refine .refused ret pool_eq ?_ fun h => ?_
    · dsimp only
      rw [current, ← hq]
      exact congrArg BTPtr.page (by unfold PageOf.setChild; rw [Function.update_eq_self])
    · obtain ⟨o, ho, hmo⟩ := meet (hchild h)
      exact ⟨o, by rw [hlist]; simp [ho], hmo⟩
  | failed q' ret current shape count mem =>
    rw [if_neg (by rw [ret]; decide)]
    refine .failed (p.setChild hi (.page q')) ret (by rw [current])
      (hsh.setChild hi ⟨q', rfl, shape, by omega, by omega⟩) rfl fun o ho => ?_
    rw [hset] at ho
    rw [hlist]
    simp only [List.mem_append] at ho ⊢
    rcases ho with (ho | ho) | ho
    · exact Or.inr (Or.inl (Or.inl ho))
    · rcases mem o ho with h | h
      · exact Or.inl h
      · exact Or.inr (Or.inl (Or.inr h))
    · exact Or.inr (Or.inr ho)
  | placed q' l₁ l₂ ret current shape count_le count_max old new ngb full between exact_iff =>
    rw [if_neg (by rw [ret]; decide)]
    refine .placed (p.setChild hi (.page q')) (lower p hi ++ l₁) (l₂ ++ upper p hi) ret
      (by rw [current]) (hsh.setChild hi ⟨q', rfl, shape, by omega, count_max⟩) le_rfl hmax
      (by rw [hlist, old]; simp) (by rw [hset, new]; simp) (ngb.append _ _) ?_
      (fun h => (between (hchild h)).append (hbefore h) (hafter h hov)) fun h => ?_
    · rw [← Bool.not_eq_true, hfullp, full]
      simp
    · have hmed : medianSplit c (c.btGetObjKey obj) (.page p) = false ↔
          medianSplit c (c.btGetObjKey obj) (.page q) = false := by
        rw [← Bool.not_eq_true, ← Bool.not_eq_true, hmedp, full]
        simp
      rw [hmed, ← exact_iff (hchild h)]
      constructor
      · intro hex
        have := (exact_page.mp hex).2 hi hb₁ hb₂
        rwa [PageOf.setChild_child_self] at this
      · intro hex
        exact h.exact_setChild hc hsh hb₁ hb₂ hq (hsearch h).1 old (between (hchild h))
          ((List.append_nil _).trans new) (by rw [new]; simp) hex
  | promoted q₁ q₂ l₁ l₂ ret current ppromoted shape shape' count count' old new ngb full between
      exact_iff kpromoted =>
    rw [if_pos ret, current, ppromoted]
    have hexact := fun h => Ready.exact_promoted_iff hc hsh h hb₁ hb₂ hq (hsearch h).1 old
      (between (hchild h)) new (shape.toList_ne_nil (by omega) (by omega)) (kpromoted (hchild h))
    refine promoted_outcome hc hsh hb₁ hb₂ hmax hq shape shape' count count' old new ngb ?_
      (fun h => (between (hchild h)).append (hbefore h) (hafter h hov)) hexact fun h => ?_
    · rw [hfullp, full]
      simp
    · rw [exact_iff (hchild h), ← Bool.not_eq_true, hmedp, full, ← Bool.not_eq_true]
      constructor
      · intro hno
        refine ⟨fun hmed => hno (Or.inl hmed), fun hf hm => ?_⟩
        by_contra hne
        exact hno (Or.inr ⟨hf, rfl, hm, hne⟩)
      · rintro ⟨hno, hk⟩ (hmed | ⟨hf, -, hm, hne⟩)
        · exact hno hmed
        · exact hne (hk hf hm)

end Node

/-- **One call of `BTInsert`**, on a page with any number of levels below it. -/
theorem btInsert_outcome (hc : c.Odd) (obj : α) (pool : PagePool) : ∀ {n : ℕ} (p : BTPage α),
    Shape c n p → 0 ≤ p.count → p.count ≤ c.btMaxkey →
      InsertOutcome c n obj pool p (btInsert c obj pool (.page p)) := by
  intro n
  induction n with
  | zero => exact fun p hsh h0 hmax => btInsert_leaf hc pool hsh h0 hmax
  | succ n ih => exact fun p hsh h0 hmax => btInsert_node hc pool hsh h0 hmax ih

/-! ### The whole tree -/

/-- The root `BTIns` makes over the halves of the old one. -/
def rootOver (idx : ℕ) (l r : BTPtr α) (k : ℕ) : BTPage α :=
  (((newRoot idx 1 false).setChild 0 l).setChild 1 r).setKey 0 k

section RootOver
variable (idx : ℕ) {l r : BTPage α} (k : ℕ)

theorem rootOver_shape {n : ℕ} (hc : c.Odd) (hl : Shape c n l) (hr : Shape c n r)
    (hlc : l.count = c.btMinkey) (hrc : r.count = c.btMinkey) :
    Shape c (n + 1) (rootOver idx (.page l) (.page r) k) := by
  have hmM := hc.bounds
  refine ⟨rfl, fun i h₁ h₂ => ?_⟩
  change i ≤ 1 at h₂
  rcases (show i = 0 ∨ i = 1 by omega) with rfl | rfl
  · exact ⟨l, rfl, hl, by omega, by omega⟩
  · exact ⟨r, rfl, hr, by omega, by omega⟩

theorem rootOver_toList (l r : BTPtr α) :
    (BTPtr.page (rootOver idx l r k)).toList = l.toList ++ r.toList := by
  show [] ++ l.toList ++ r.toList = _
  rw [List.nil_append]

theorem rootOver_exact_iff
    (hk : Exact c (.page l) → Exact c (.page r) → k = c.leastBase (BTPtr.page r).toList) :
    Exact c (.page (rootOver idx (.page l) (.page r) k)) ↔
      Exact c (.page l) ∧ Exact c (.page r) := by
  rw [exact_page]
  constructor
  · rintro ⟨-, h⟩
    exact ⟨h 0 le_rfl (show (0 : ℤ) ≤ 1 by omega), h 1 (by omega) (show (1 : ℤ) ≤ 1 by omega)⟩
  · rintro ⟨hl, hr⟩
    refine ⟨fun i h₁ h₂ => ?_, fun i h₁ h₂ => ?_⟩
    · change i < 1 at h₂
      obtain rfl : i = 0 := by omega
      exact hk hl hr
    · change i ≤ 1 at h₂
      rcases (show i = 0 ∨ i = 1 by omega) with rfl | rfl
      · exact hl
      · exact hr

end RootOver

/-- **What `BTIns` can do to a tree.** -/
inductive InsOutcome (c : BTConf α) (obj : α) (t : BTree α) (r : BTRet × BTree α × Option α) : Prop
  | refused (ret : r.1 = .duplicate ∨ r.1 = .overlap) (tree : r.2.1 = t)
      (meet : Ready c obj t.root → ∃ o ∈ t.toList, c.Meet obj o)
  | failed (ret : r.1 = .allocFail) (shaped : r.2.1.Shaped c)
      (mem : ∀ o ∈ r.2.1.toList, o = obj ∨ o ∈ t.toList)
  | inserted (l₁ l₂ : List α) (ret : r.1 = .ok) (shaped : r.2.1.Shaped c)
      (old : t.toList = l₁ ++ l₂) (new : r.2.1.toList = l₁ ++ obj :: l₂)
      (ngb : ∀ o, r.2.2 = some o → l₁.getLast? = some o ∨ l₂.head? = some o)
      (ngb_none : r.2.2 = none ↔ t.root = .null)
      (between : Ready c obj t.root → Between c l₁ obj l₂)
      (exact_iff : Ready c obj t.root →
        (Exact c r.2.1.root ↔ medianSplit c (c.btGetObjKey obj) t.root = false))

theorem btIns_page (t : BTree α) (obj : α) {p : BTPage α} (hroot : t.root = .page p) :
    btIns c t obj =
      (let r := btInsert c obj t.pool (.page p)
      let t := { t with root := r.current, pool := r.pool }
      if r.ret = .promotion then
        match allocPage r.pool with
        | none => (.allocFail, t, r.ngb)
        | some (idx, pool) =>
          (.ok, { depth := t.depth + 1, pool,
                  root := .page (rootOver idx r.current r.ppromoted r.kpromoted) }, r.ngb)
      else (r.ret, t, r.ngb)) := by
  obtain ⟨depth, root, pool⟩ := t
  dsimp only at hroot
  subst hroot
  rfl

/-- **`BTIns` on a tree of any shape.** -/
theorem btIns_outcome (hc : c.Odd) {t : BTree α} (ht : t.Shaped c) (obj : α) :
    InsOutcome c obj t (btIns c t obj) := by
  have hmM := hc.bounds
  cases hroot : t.root with
  | obj o =>
    unfold BTree.Shaped at ht
    rw [hroot] at ht
    exact ht.elim
  | null =>
    have hnil : t.toList = [] := by
      unfold BTree.toList
      rw [hroot]
      rfl
    unfold btIns
    rw [hroot]
    dsimp only
    cases hal : allocPage t.pool with
    | none => exact .failed rfl ht fun o ho => Or.inr ho
    | some ip =>
      refine .inserted [] [] rfl ⟨0, rfl, ⟨rfl, fun i h₁ h₂ => ?_⟩, le_rfl, ?_, by omega⟩
        (by rw [hnil]; rfl) rfl (fun o ho => by cases ho) (by rw [hroot]; simp)
        (fun _ => ⟨by simp, by simp⟩) fun _ => ?_
      · change i ≤ 0 at h₂
        obtain rfl : i = 0 := by omega
        exact ⟨obj, rfl⟩
      · change 0 ≤ c.btMaxkey
        omega
      · rw [hroot]
        refine ⟨fun _ => rfl, fun _ => ⟨fun i h₁ h₂ => ?_, fun i h₁ h₂ => ?_⟩⟩
        · change i < 0 at h₂
          omega
        · change i ≤ 0 at h₂
          obtain rfl : i = 0 := by omega
          trivial
  | page p =>
    have hlist : t.toList = (BTPtr.page p).toList := by
      unfold BTree.toList
      rw [hroot]
    have ht' := ht
    unfold BTree.Shaped at ht'
    rw [hroot] at ht'
    obtain ⟨n, hdepth, hsh, h0, hmax, hpos⟩ := ht'
    rw [btIns_page t obj hroot]
    dsimp only
    cases btInsert_outcome hc obj t.pool p hsh h0 hmax with
    | refused ret pool_eq current meet =>
      rw [if_neg (by rcases ret with h | h <;> rw [h] <;> decide), pool_eq, current]
      refine .refused ret (by rw [← hroot]) fun h => ?_
      rw [hlist]
      exact meet (hroot ▸ h)
    | failed q ret current shape count mem =>
      rw [if_neg (by rw [ret]; decide), current]
      exact .failed ret ⟨n, hdepth, shape, by omega, by omega, by omega⟩
        fun o ho => by rw [hlist]; exact mem o ho
    | placed q l₁ l₂ ret current shape count_le count_max old new ngb full between exact_iff =>
      rw [if_neg (by rw [ret]; decide), current]
      obtain ⟨o, ho, hngb⟩ := ngb
      refine .inserted l₁ l₂ ret ⟨n, hdepth, shape, by omega, count_max, by omega⟩
        (hlist.trans old) new (fun o' ho' => ?_) (by rw [ho, hroot]; simp)
        (fun h => between (hroot ▸ h)) fun h => ?_
      · rw [← Option.some.inj (ho.symm.trans ho')]
        exact hngb
      · rw [hroot]
        exact exact_iff (hroot ▸ h)
    | promoted q q' l₁ l₂ ret current ppromoted shape shape' count count' old new ngb full between
        exact_iff kpromoted =>
      rw [if_pos ret, current, ppromoted]
      cases hal : allocPage (btInsert c obj t.pool (.page p)).pool with
      | none =>
        refine .failed rfl ⟨n, hdepth, shape, by omega, by omega, by omega⟩ fun o ho => ?_
        have hmem : o ∈ l₁ ++ obj :: l₂ := by
          rw [← new]
          exact List.mem_append_left _ ho
        rw [hlist, old]
        simp only [List.mem_append, List.mem_cons] at hmem ⊢
        rcases hmem with h | h | h
        · exact Or.inr (Or.inl h)
        · exact Or.inl h
        · exact Or.inr (Or.inr h)
      | some ip =>
        obtain ⟨o, ho, hngb⟩ := ngb
        refine .inserted l₁ l₂ rfl ⟨n + 1, ?_, rootOver_shape _ _ hc shape shape' count count',
          Int.one_nonneg, ?_, fun _ => le_rfl⟩ (hlist.trans old)
          ((rootOver_toList _ _ _ _).trans new) (fun o' ho' => ?_) (by rw [hroot, ho]; simp)
          (fun h => between (hroot ▸ h)) fun h => ?_
        · dsimp only
          rw [hdepth]
          push_cast
          rfl
        · change 1 ≤ c.btMaxkey
          omega
        · rw [← Option.some.inj (ho.symm.trans ho')]
          exact hngb
        · rw [hroot, ← exact_iff (hroot ▸ h)]
          exact rootOver_exact_iff _ _ (kpromoted (hroot ▸ h))

/-- **What inserting an object into the table is to do.** -/
structure InsSpec (c : BTConf α) (t : BTree α) (obj : α) (res : BTRet × BTree α × Option α) :
    Prop where
  /-- It succeeds just when the object meets no stored one. -/
  ok_iff : res.1 = .ok ↔ ∀ o ∈ t.toList, ¬ c.Meet obj o
  /-- Then the object is put in its place, and the neighbour is one. -/
  inserted : res.1 = .ok → ∃ l₁ l₂, t.toList = l₁ ++ l₂ ∧ res.2.1.toList = l₁ ++ obj :: l₂ ∧
    (∀ o, res.2.2 = some o → l₁.getLast? = some o ∨ l₂.head? = some o)
  sorted : res.1 = .ok → res.2.1.toList.Pairwise c.Before
  wf : res.1 = .ok → res.2.1.WF c
  ngb_none : res.1 = .ok → (res.2.2 = none ↔ t.root = .null)
  /-- Otherwise nothing changes. -/
  unchanged : res.1 ≠ .ok → res.2.1 = t

theorem Between.pairwise {l₁ l₂ : List α} {obj : α} (h : Between c l₁ obj l₂)
    (hs : (l₁ ++ l₂).Pairwise c.Before) : (l₁ ++ obj :: l₂).Pairwise c.Before := by
  rw [List.pairwise_append] at hs ⊢
  refine ⟨hs.1, List.pairwise_cons.mpr ⟨h.after, hs.2.1⟩, fun a ha b hb => ?_⟩
  rcases List.mem_cons.mp hb with rfl | hb
  · exact h.before a ha
  · exact hs.2.2 a ha b hb

theorem Between.not_meet {l₁ l₂ : List α} {obj : α} (h : Between c l₁ obj l₂) :
    ∀ o ∈ l₁ ++ l₂, ¬ c.Meet obj o := by
  intro o ho
  rcases List.mem_append.mp ho with ho | ho
  · exact (h.before o ho).not_meet'
  · exact (h.after o ho).not_meet

theorem ready_root {t : BTree α} {obj : α} (ht : t.WF c)
    (hdis : t.toList.Pairwise fun a b => ¬ c.Meet a b) (hp : ∀ o ∈ t.toList, c.Proper o)
    (hobj : c.Proper obj) : Ready c obj t.root :=
  ⟨ht.exact, pairwise_before ht.sorted hdis hp, hp, hobj⟩

/-- **When insertion into the object table is right**: always, unless it splits an
index page with the promoted child between its halves. -/
theorem btIns_spec_iff (hc : c.Odd) {t : BTree α} {obj : α} (ht : t.WF c)
    (hp : ∀ o ∈ t.toList, c.Proper o) (hdis : t.toList.Pairwise fun a b => ¬ c.Meet a b)
    (hobj : c.Proper obj) (hpool : (btIns c t obj).1 ≠ .allocFail) :
    InsSpec c t obj (btIns c t obj) ↔
      ¬ (medianSplit c (c.btGetObjKey obj) t.root = true ∧ ∀ o ∈ t.toList, ¬ c.Meet obj o) := by
  have hready := ready_root ht hdis hp hobj
  cases btIns_outcome hc ht.shaped obj with
  | refused ret tree meet =>
    obtain ⟨o, ho, hmeet⟩ := meet hready
    have hne : (btIns c t obj).1 ≠ .ok := by rcases ret with h | h <;> rw [h] <;> decide
    have hno : ¬ ∀ o ∈ t.toList, ¬ c.Meet obj o := fun h => h o ho hmeet
    refine iff_of_true ⟨iff_of_false hne hno, fun h => absurd h hne, fun h => absurd h hne,
      fun h => absurd h hne, fun h => absurd h hne, fun _ => tree⟩ fun h => hno h.2
  | failed ret => exact absurd ret hpool
  | inserted l₁ l₂ ret shaped old new ngb ngb_none between exact_iff =>
    have hbtw := between hready
    have hno : ∀ o ∈ t.toList, ¬ c.Meet obj o := by
      rw [old]
      exact hbtw.not_meet
    have hsorted : (btIns c t obj).2.1.toList.Pairwise c.Before := by
      rw [new]
      exact hbtw.pairwise (by rw [← old]; exact hready.sorted)
    have hiff : Exact c (btIns c t obj).2.1.root ↔
        ¬ (medianSplit c (c.btGetObjKey obj) t.root = true ∧ ∀ o ∈ t.toList, ¬ c.Meet obj o) := by
      rw [exact_iff hready, and_iff_left hno, Bool.not_eq_true]
    rw [← hiff]
    constructor
    · exact fun h => (h.wf ret).exact
    · intro hex
      exact ⟨iff_of_true ret hno, fun _ => ⟨l₁, l₂, old, new, ngb⟩, fun _ => hsorted,
        fun _ => ⟨shaped, hex, hsorted.imp fun h => h.lt⟩, fun _ => ngb_none,
        fun h => absurd ret h⟩

/-! ### An index page split at its median -/

/-- Intervals in a tree of order five, on a 64-bit machine of low byte order. -/
def spans5 : BTConf (ℕ × ℕ) where
  btOrder := 5
  btGetObjKey := Prod.fst
  btGetObjLim := Prod.snd
  pageWord := fun count isleaf => count.toNat + if isleaf then 2 ^ 32 else 0

/-- A leaf with `n + 1` intervals of length one, `d` apart from `base` on. -/
def leafFrom (idx base d : ℕ) (n : ℤ) : BTPage (ℕ × ℕ) :=
  ⟨idx, n, true, fun i => base + d * (i + 1).toNat,
    fun i => .obj (base + d * i.toNat, base + d * i.toNat + 1)⟩

/-- Five leaves under a full root, the middle one full as well. -/
def fullTree : BTree (ℕ × ℕ) where
  depth := 2
  root := .page ⟨5, 4, false, fun i => 10 * (i + 1).toNat,
    fun i => .page (leafFrom i.toNat (10 * i.toNat) 2 (if i = 2 then 4 else 2))⟩
  pool := ⟨64, 6, 0, fun i => if i = 0 then 63 else 0⟩

theorem spans5_odd : spans5.Odd := ⟨2, le_rfl, rfl⟩

theorem leafFrom_shape (idx base d : ℕ) (n : ℤ) : Shape spans5 0 (leafFrom idx base d n) :=
  ⟨rfl, fun _ _ _ => ⟨_, rfl⟩⟩

theorem leafFrom_exact (idx base d : ℕ) (n : ℤ) : Exact spans5 (.page (leafFrom idx base d n)) :=
  ⟨fun _ _ _ => rfl, fun _ _ _ => trivial⟩

theorem fullTree_wf : fullTree.WF spans5 := by
  refine ⟨⟨1, rfl, ⟨rfl, fun i h₁ h₂ => ⟨_, rfl, leafFrom_shape .., ?_, ?_⟩⟩, by decide, by decide,
    by decide⟩, ⟨fun i h₁ h₂ => ?_, fun i h₁ h₂ => leafFrom_exact ..⟩, by decide⟩
  · change (2 : ℤ) ≤ if i = 2 then 4 else 2
    split_ifs <;> omega
  · change (if i = 2 then 4 else 2) ≤ (4 : ℤ)
    split_ifs <;> omega
  · change i < 4 at h₂
    interval_cases i <;> rfl

/-- An interval that goes in without a split. -/
theorem btIns_spec_fullTree : InsSpec spans5 fullTree (3, 4) (btIns spans5 fullTree (3, 4)) :=
  (btIns_spec_iff spans5_odd fullTree_wf (by decide) (by decide) (by decide) (by decide)).mpr
    (by decide)

/-- Splitting the middle leaf splits the root at its median, and the first key of
the new index page comes out as the first word of a leaf. -/
theorem btIns_median_split : fullTree.WF spans5 ∧ (∀ o ∈ fullTree.toList, spans5.Proper o) ∧
    (fullTree.toList.Pairwise fun a b => ¬ spans5.Meet a b) ∧ spans5.Proper (25, 26) ∧
    (btIns spans5 fullTree (25, 26)).1 ≠ .allocFail ∧
    ¬ InsSpec spans5 fullTree (25, 26) (btIns spans5 fullTree (25, 26)) := by
  refine ⟨fullTree_wf, by decide, by decide, by decide, by decide, fun h => ?_⟩
  have hroot := (h.wf (by decide)).exact
  have hright := (exact_page.mp hroot).2 1 (by decide) (by decide)
  have hkey := (exact_page.mp hright).1 0 (by decide) (by decide)
  revert hkey
  decide

end Mungi
