import Mungi.BTree.Page

/-!
# Well-formed trees

What the operations on the object table rely on and restore.  The shape of a
tree (uniform depth, occupied pages) is kept apart from its keys (each one the
least base of the subtree to its right): insertion and deletion keep the shape
whatever the keys are, and move no object they should not, while search needs
both.

Splitting, collapsing and redistributing all cut a run of keys and children into
pages, or glue pages into such a run, so they are described by one relation,
`IsSlice`.

## Main definitions

* `BTConf.Lt`, `BTConf.Before` — objects in order of their bases, and without
  overlap.
* `Shape`, `Exact` — the shape of the pages, and their keys.
* `BTree.Shaped`, `BTree.WF` — the shape of a tree, and a well-formed tree.
* `IsSlice` — a page that is a run of another one.

## Main results

* `getLeastKey_eq` — `GetLeastKey` finds the least base.
* `Exact.key_lt_key` — the keys of a page increase.
* `IsSlice.toList_eq_append` — a page cut in two at a key.
-/

namespace Mungi

open Cat ForLoop

variable {α : Type} {c : BTConf α}

/-! ### Order of objects -/

/-- Objects in order of their bases. -/
def BTConf.Lt (c : BTConf α) (a b : α) : Prop := c.btGetObjKey a < c.btGetObjKey b

/-- Object `a` lies below object `b` and ends before it starts. -/
def BTConf.Before (c : BTConf α) (a b : α) : Prop :=
  c.btGetObjKey a < c.btGetObjKey b ∧ c.btGetObjLim a ≤ c.btGetObjKey b

/-- The interval of an object is not empty. -/
def BTConf.Proper (c : BTConf α) (a : α) : Prop := c.btGetObjKey a < c.btGetObjLim a

/-- The intervals of two objects meet. -/
def BTConf.Meet (c : BTConf α) (a b : α) : Prop :=
  c.btGetObjKey a < c.btGetObjLim b ∧ c.btGetObjKey b < c.btGetObjLim a

instance (c : BTConf α) (a b : α) : Decidable (c.Lt a b) := inferInstanceAs (Decidable (_ < _))

instance (c : BTConf α) (a : α) : Decidable (c.Proper a) := inferInstanceAs (Decidable (_ < _))

instance (c : BTConf α) (a b : α) : Decidable (c.Meet a b) := inferInstanceAs (Decidable (_ ∧ _))

theorem BTConf.Before.lt {a b : α} (h : c.Before a b) : c.Lt a b := h.1

theorem BTConf.Before.not_meet {a b : α} (h : c.Before a b) : ¬ c.Meet a b := by
  rintro ⟨-, h'⟩
  have := h.2
  omega

theorem BTConf.Before.not_meet' {a b : α} (h : c.Before a b) : ¬ c.Meet b a := by
  rintro ⟨h', -⟩
  have := h.2
  omega

theorem BTConf.Before.trans_lt {a b d : α} (h : c.Before a b)
    (h' : c.btGetObjKey b ≤ c.btGetObjKey d) : c.Before a d := by
  have h₁ := h.1
  have h₂ := h.2
  exact ⟨by omega, by omega⟩

/-- Disjoint intervals in order of their bases lie one before the other. -/
theorem pairwise_before {l : List α} (hlt : l.Pairwise c.Lt)
    (hdis : l.Pairwise fun a b => ¬ c.Meet a b) (hp : ∀ o ∈ l, c.Proper o) :
    l.Pairwise c.Before := by
  have h := hlt.and hdis
  refine h.imp_of_mem fun {a b} ha hb hab => ?_
  obtain ⟨hlt, hno⟩ := hab
  have hpb := hp b hb
  unfold BTConf.Lt at hlt
  unfold BTConf.Meet at hno
  unfold BTConf.Proper at hpb
  exact ⟨hlt, by omega⟩

/-- The least base of a sequence of objects, its first one's. -/
def BTConf.leastBase (c : BTConf α) : List α → ℕ
  | [] => 0
  | o :: _ => c.btGetObjKey o

@[simp] theorem BTConf.leastBase_cons (o : α) (l : List α) :
    c.leastBase (o :: l) = c.btGetObjKey o := rfl

theorem BTConf.leastBase_append {l : List α} (h : l ≠ []) (l' : List α) :
    c.leastBase (l ++ l') = c.leastBase l := by
  cases l with
  | nil => exact absurd rfl h
  | cons o l => rfl

/-- The least base is a lower bound in a sequence in order. -/
theorem BTConf.leastBase_le {l : List α} (h : l.Pairwise c.Lt) {a : α} (ha : a ∈ l) :
    c.leastBase l ≤ c.btGetObjKey a := by
  cases l with
  | nil => simp at ha
  | cons o l =>
    rw [List.pairwise_cons] at h
    rcases List.mem_cons.mp ha with rfl | ha
    · exact Nat.le_refl _
    · exact Nat.le_of_lt (h.1 a ha)

theorem BTConf.exists_leastBase {l : List α} (h : l ≠ []) :
    ∃ o ∈ l, c.leastBase l = c.btGetObjKey o := by
  cases l with
  | nil => exact absurd rfl h
  | cons o l => exact ⟨o, List.mem_cons_self, rfl⟩

/-! ### The objects of a page -/

theorem toList_page (p : BTPage α) :
    (BTPtr.page p).toList = cat (fun i => (p.child i).toList) 0 (p.count + 1).toNat := rfl

/-- The objects of a page, those of child `i` singled out. -/
theorem toList_focus (p : BTPage α) {i : ℤ} (h₁ : 0 ≤ i) (h₂ : i ≤ p.count) :
    (BTPtr.page p).toList = cat (fun i => (p.child i).toList) 0 i.toNat ++ (p.child i).toList
      ++ cat (fun i => (p.child i).toList) (i + 1) (p.count - i).toNat := by
  rw [toList_page]
  have h := cat_focus (fun i => (p.child i).toList) h₁ (show i < p.count + 1 by omega)
  rw [show (p.count + 1 - 0 : ℤ) = p.count + 1 by omega, show (i - 0 : ℤ) = i by omega,
    show p.count + 1 - (i + 1) = p.count - i by omega] at h
  exact h

/-- The objects below the children left of child `i`. -/
def lower (p : BTPage α) (i : ℤ) : List α := cat (fun i => (p.child i).toList) 0 i.toNat

/-- The objects below the children right of child `i`. -/
def upper (p : BTPage α) (i : ℤ) : List α :=
  cat (fun i => (p.child i).toList) (i + 1) (p.count - i).toNat

theorem toList_eq_lower_upper (p : BTPage α) {i : ℤ} (h₁ : 0 ≤ i) (h₂ : i ≤ p.count) :
    (BTPtr.page p).toList = lower p i ++ (p.child i).toList ++ upper p i :=
  toList_focus p h₁ h₂

theorem mem_toList_page {p : BTPage α} {o : α} :
    o ∈ (BTPtr.page p).toList ↔ ∃ i, 0 ≤ i ∧ i ≤ p.count ∧ o ∈ (p.child i).toList := by
  rw [toList_page]
  constructor
  · intro h
    obtain ⟨i, h₁, h₂, h₃⟩ := exists_of_mem_cat h
    exact ⟨i, h₁, by omega, h₃⟩
  · rintro ⟨i, h₁, h₂, h₃⟩
    exact mem_cat_of_mem h₁ (by omega) h₃

/-! ### Shape and keys -/

/-- A page with `n` levels of pages below it, all of them occupied as the code
keeps them.  Its own occupancy is left open. -/
def Shape (c : BTConf α) : ℕ → BTPage α → Prop
  | 0, p => p.isleaf = true ∧ ∀ i, 0 ≤ i → i ≤ p.count → ∃ o, p.child i = .obj o
  | n + 1, p => p.isleaf = false ∧ ∀ i, 0 ≤ i → i ≤ p.count →
      ∃ q, p.child i = .page q ∧ Shape c n q ∧ c.btMinkey ≤ q.count ∧ q.count ≤ c.btMaxkey

/-- Every key of a page is the least base below the child to its right. -/
def Keys (c : BTConf α) (p : BTPage α) : Prop :=
  ∀ i, 0 ≤ i → i < p.count → p.key i = c.leastBase (p.child (i + 1)).toList

/-- All keys of a subtree are the least bases to their right. -/
def Exact (c : BTConf α) : BTPtr α → Prop
  | .null => True
  | .obj _ => True
  | .page ⟨idx, count, isleaf, key, child⟩ =>
      Keys c ⟨idx, count, isleaf, key, child⟩ ∧ ∀ i, 0 ≤ i → i ≤ count → Exact c (child i)

theorem exact_page {p : BTPage α} :
    Exact c (.page p) ↔ Keys c p ∧ ∀ i, 0 ≤ i → i ≤ p.count → Exact c (p.child i) := Iff.rfl

theorem BTConf.leastBase_congr {c' : BTConf α} {l : List α}
    (h : ∀ o ∈ l, c'.btGetObjKey o = c.btGetObjKey o) : c'.leastBase l = c.leastBase l := by
  cases l with
  | nil => rfl
  | cons o l => exact h o List.mem_cons_self

/-- The keys stay right while the objects keep their bases. -/
theorem Exact.congr {c' : BTConf α} : ∀ {q : BTPtr α},
    (∀ o ∈ q.toList, c'.btGetObjKey o = c.btGetObjKey o) → Exact c q → Exact c' q
  | .null, _, _ => trivial
  | .obj _, _, _ => trivial
  | .page ⟨idx, count, isleaf, key, child⟩, h, he => by
    have hchild : ∀ i, 0 ≤ i → i ≤ count → ∀ o ∈ (child i).toList,
        c'.btGetObjKey o = c.btGetObjKey o :=
      fun i h₁ h₂ o ho => h o (mem_toList_page.mpr ⟨i, h₁, h₂, ho⟩)
    refine ⟨fun i h₁ h₂ => ?_, fun i h₁ h₂ => Exact.congr (hchild i h₁ h₂) (he.2 i h₁ h₂)⟩
    rw [BTConf.leastBase_congr (hchild (i + 1) (by omega) (by dsimp only at h₂; omega))]
    exact he.1 i h₁ h₂

/-- The shape of a whole tree; the root may hold fewer keys than other pages. -/
def BTree.Shaped (c : BTConf α) (t : BTree α) : Prop :=
  match t.root with
  | .null => t.depth = 0
  | .obj _ => False
  | .page p => ∃ n : ℕ, t.depth = n + 1 ∧ Shape c n p ∧
      0 ≤ p.count ∧ p.count ≤ c.btMaxkey ∧ (0 < n → 1 ≤ p.count)

/-- **A well-formed tree**: its pages have the right shape, every key is the
least base to its right, and the objects are in order. -/
structure BTree.WF (c : BTConf α) (t : BTree α) : Prop where
  shaped : t.Shaped c
  exact : Exact c t.root
  sorted : t.toList.Pairwise c.Lt

/-- The orders the tree is meant for: odd, and at least five. -/
def BTConf.Odd (c : BTConf α) : Prop := ∃ m : ℕ, 2 ≤ m ∧ c.btOrder = 2 * m + 1

theorem BTConf.Odd.bounds (h : c.Odd) : 2 ≤ c.btMinkey ∧ c.btMaxkey = 2 * c.btMinkey := by
  obtain ⟨m, hm, ho⟩ := h
  unfold BTConf.btMinkey BTConf.btMaxkey
  omega

/-- What a page with `n` levels of pages below it may have for a child. -/
def ChildShape (c : BTConf α) : ℕ → BTPtr α → Prop
  | 0, q => ∃ o, q = .obj o
  | n + 1, q => ∃ r, q = .page r ∧ Shape c n r ∧ c.btMinkey ≤ r.count ∧ r.count ≤ c.btMaxkey

theorem shape_iff {n : ℕ} {p : BTPage α} : Shape c n p ↔
    p.isleaf = decide (n = 0) ∧ ∀ i, 0 ≤ i → i ≤ p.count → ChildShape c n (p.child i) := by
  cases n with
  | zero => simp [Shape, ChildShape]
  | succ n => simp [Shape, ChildShape]

theorem Shape.isleaf_zero {p : BTPage α} (h : Shape c 0 p) : p.isleaf = true := h.1

theorem Shape.isleaf_succ {n : ℕ} {p : BTPage α} (h : Shape c (n + 1) p) : p.isleaf = false := h.1

/-- The shape of a page depends on the order of the tree only. -/
theorem Shape.congr {c' : BTConf α} (hc : c'.btOrder = c.btOrder) : ∀ {n : ℕ} {p : BTPage α},
    Shape c n p → Shape c' n p := by
  have hM : c'.btMaxkey = c.btMaxkey := congrArg (· - 1) hc
  have hm : c'.btMinkey = c.btMinkey := congrArg (· / 2) hM
  intro n
  induction n with
  | zero => exact fun h => h
  | succ n ih =>
    refine fun h => ⟨h.1, fun i h₁ h₂ => ?_⟩
    obtain ⟨q, hq, hsh, hmin, hmax⟩ := h.2 i h₁ h₂
    exact ⟨q, hq, ih hsh, hm ▸ hmin, hM ▸ hmax⟩

theorem BTree.Shaped.congr {c' : BTConf α} (hc : c'.btOrder = c.btOrder) {t : BTree α}
    (ht : t.Shaped c) : t.Shaped c' := by
  unfold BTree.Shaped at ht ⊢
  cases hroot : t.root with
  | null => rwa [hroot] at ht
  | obj o => rwa [hroot] at ht
  | page p =>
    rw [hroot] at ht
    obtain ⟨n, hdepth, hsh, h0, hmax, hpos⟩ := ht
    exact ⟨n, hdepth, hsh.congr hc, h0, le_of_le_of_eq hmax (congrArg (· - 1) hc.symm), hpos⟩

/-- Occupied pages hold objects. -/
theorem Shape.toList_ne_nil (hc : 0 ≤ c.btMinkey) : ∀ {n : ℕ} {p : BTPage α}, Shape c n p →
    0 ≤ p.count → (BTPtr.page p).toList ≠ [] := by
  intro n
  induction n with
  | zero =>
    intro p h h0
    obtain ⟨o, ho⟩ := h.2 0 le_rfl h0
    have ho' : o ∈ (p.child 0).toList := by rw [ho]; exact List.mem_singleton_self o
    exact List.ne_nil_of_mem (mem_toList_page.mpr ⟨0, le_rfl, h0, ho'⟩)
  | succ n ih =>
    intro p h h0
    obtain ⟨q, hq, hsh, hmin, -⟩ := h.2 0 le_rfl h0
    obtain ⟨o, ho⟩ := List.exists_mem_of_ne_nil _ (ih hsh (le_trans hc hmin))
    exact List.ne_nil_of_mem (mem_toList_page.mpr ⟨0, le_rfl, h0, by rw [hq]; exact ho⟩)

theorem Shape.child_ne_nil (hc : 0 ≤ c.btMinkey) {n : ℕ} {p : BTPage α} (h : Shape c n p) {i : ℤ}
    (h₁ : 0 ≤ i) (h₂ : i ≤ p.count) : (p.child i).toList ≠ [] := by
  cases n with
  | zero => obtain ⟨o, ho⟩ := h.2 i h₁ h₂; simp [ho]
  | succ n =>
    obtain ⟨q, hq, hsh, hmin, -⟩ := h.2 i h₁ h₂
    rw [hq]
    exact hsh.toList_ne_nil hc (le_trans hc hmin)

/-- The least base of a page is that of its first child. -/
theorem Shape.leastBase_page (hc : 0 ≤ c.btMinkey) {n : ℕ} {p : BTPage α} (h : Shape c n p)
    (h0 : 0 ≤ p.count) : c.leastBase (BTPtr.page p).toList = c.leastBase (p.child 0).toList := by
  rw [toList_focus p le_rfl h0, List.append_assoc]
  exact BTConf.leastBase_append (h.child_ne_nil hc le_rfl h0) _

/-- **`GetLeastKey` finds the least base.** -/
theorem getLeastKey_eq (hc : 0 ≤ c.btMinkey) : ∀ {n : ℕ} {p : BTPage α}, Shape c n p →
    0 ≤ p.count → getLeastKey c (.page p) = c.leastBase (BTPtr.page p).toList := by
  intro n
  induction n with
  | zero =>
    intro p h h0
    rw [h.leastBase_page hc h0]
    obtain ⟨o, ho⟩ := h.2 0 le_rfl h0
    show (if p.isleaf = true then c.ptrKey (p.child 0) else getLeastKey c (p.child 0)) = _
    rw [if_pos h.isleaf_zero, ho]
    rfl
  | succ n ih =>
    intro p h h0
    rw [h.leastBase_page hc h0]
    obtain ⟨q, hq, hsh, hmin, -⟩ := h.2 0 le_rfl h0
    show (if p.isleaf = true then c.ptrKey (p.child 0) else getLeastKey c (p.child 0)) = _
    rw [if_neg (by rw [h.isleaf_succ]; simp), hq, ih hsh (le_trans hc hmin)]

/-! ### Keys in order -/

/-- Objects below different children of a page are in order. -/
theorem lt_of_mem_child {r : α → α → Prop} {p : BTPage α} (hs : (BTPtr.page p).toList.Pairwise r)
    {i j : ℤ} (h₀ : 0 ≤ i) (hij : i < j) (hj : j ≤ p.count) {a b : α}
    (ha : a ∈ (p.child i).toList) (hb : b ∈ (p.child j).toList) : r a b := by
  rw [toList_focus p h₀ (by omega), List.append_assoc, List.pairwise_append] at hs
  have h := hs.2.1
  rw [List.pairwise_append] at h
  exact h.2.2 a ha b (mem_cat_of_mem (by omega) (by omega) hb)

theorem pairwise_child {r : α → α → Prop} {p : BTPage α} (hs : (BTPtr.page p).toList.Pairwise r)
    {i : ℤ} (h₁ : 0 ≤ i) (h₂ : i ≤ p.count) : (p.child i).toList.Pairwise r := by
  rw [toList_focus p h₁ h₂, List.append_assoc, List.pairwise_append] at hs
  exact (List.pairwise_append.mp hs.2.1).1

/-- The keys of a page increase. -/
theorem Keys.key_lt_key {p : BTPage α}
    (hne : ∀ i, 0 ≤ i → i ≤ p.count → (p.child i).toList ≠ []) (hk : Keys c p)
    (hs : (BTPtr.page p).toList.Pairwise c.Lt) {i j : ℤ} (h₀ : 0 ≤ i) (hij : i < j)
    (hj : j < p.count) : p.key i < p.key j := by
  rw [hk i h₀ (by omega), hk j (by omega) hj]
  obtain ⟨a, ha, hla⟩ := BTConf.exists_leastBase (c := c)
    (hne (i + 1) (by omega) (by omega))
  obtain ⟨b, hb, hlb⟩ := BTConf.exists_leastBase (c := c)
    (hne (j + 1) (by omega) (by omega))
  rw [hla, hlb]
  exact lt_of_mem_child hs (by omega) (show i + 1 < j + 1 by omega) (by omega) ha hb

/-! ### The search in a page -/

theorem PageOf.search_bounds (p : BTPage α) (k : ℕ) (h0 : 0 ≤ p.count) :
    0 ≤ (p.search k).1 ∧ (p.search k).1 ≤ p.count :=
  ⟨(pageSearch_bounds p.key k _ 0 p.count h0).1, (pageSearch_bounds p.key k _ 0 p.count h0).2.1⟩

/-- **The search in a page.**  The children left of the one found hold smaller
bases only, and those right of it larger ones; the child found starts at or
below `k` unless it is the first. -/
theorem PageOf.search_spec {p : BTPage α}
    (hne : ∀ i, 0 ≤ i → i ≤ p.count → (p.child i).toList ≠ []) (hk : Keys c p)
    (hs : (BTPtr.page p).toList.Pairwise c.Lt) (k : ℕ) (h0 : 0 ≤ p.count) :
    (0 < (p.search k).1 → p.key ((p.search k).1 - 1) ≤ k) ∧
      ((p.search k).1 < p.count → k < p.key (p.search k).1) ∧
      ((p.search k).2 = true ↔ 0 < (p.search k).1 ∧ p.key ((p.search k).1 - 1) = k) := by
  have hmono : ∀ i j, 0 ≤ i → i < j → j < p.count → p.key i < p.key j :=
    fun i j h₀ hij hj => hk.key_lt_key hne hs h₀ hij hj
  obtain ⟨hb₁, hb₂, hb₃⟩ := pageSearch_bounds p.key k p.count.toNat 0 p.count h0
  have hspec := pageSearch_spec (k := k) p.count.toNat 0 p.count h0 (by omega) hmono
  change 0 ≤ (p.search k).1 at hb₁
  change (p.search k).1 ≤ p.count at hb₂
  change (p.search k).2 = true → 0 < (p.search k).1 ∧ p.key ((p.search k).1 - 1) = k at hb₃
  change (p.search k).2 = false → _ at hspec
  cases hf : (p.search k).2 with
  | true =>
    obtain ⟨hpos, heq⟩ := hb₃ hf
    refine ⟨fun _ => le_of_eq heq, fun hlt => ?_, fun _ => ⟨hpos, heq⟩, fun _ => rfl⟩
    exact lt_of_eq_of_lt heq.symm (hmono ((p.search k).1 - 1) _ (by omega) (by omega) hlt)
  | false =>
    obtain ⟨hlo, hhi⟩ := hspec hf
    change ∀ i, 0 ≤ i → i < (p.search k).1 → p.key i < k at hlo
    change ∀ i, (p.search k).1 ≤ i → i < p.count → k < p.key i at hhi
    refine ⟨fun hpos => le_of_lt (hlo _ (by omega) (by omega)), fun hlt => hhi _ le_rfl hlt,
      fun h => absurd h (by simp), ?_⟩
    rintro ⟨hpos, heq⟩
    have := hlo ((p.search k).1 - 1) (by omega) (by omega)
    omega

/-! ### Runs of a page -/

/-- Page `q` holds the keys `a, …, a + n - 1` of page `v` and the children around
them. -/
structure IsSlice (q v : BTPage α) (a n : ℤ) : Prop where
  isleaf : q.isleaf = v.isleaf
  count : q.count = n
  key : ∀ i, 0 ≤ i → i < n → q.key i = v.key (a + i)
  child : ∀ i, 0 ≤ i → i ≤ n → q.child i = v.child (a + i)

theorem IsSlice.shape {q v : BTPage α} {a n : ℤ} (h : IsSlice q v a n) (ha : 0 ≤ a)
    (han : a + n ≤ v.count) {k : ℕ} (hv : Shape c k v) : Shape c k q := by
  rw [shape_iff] at hv ⊢
  refine ⟨h.isleaf.trans hv.1, fun i h₁ h₂ => ?_⟩
  rw [h.count] at h₂
  rw [h.child i h₁ h₂]
  exact hv.2 (a + i) (by omega) (by omega)

theorem IsSlice.exact {q v : BTPage α} {a n : ℤ} (h : IsSlice q v a n) (ha : 0 ≤ a)
    (han : a + n ≤ v.count) (hv : Exact c (.page v)) : Exact c (.page q) := by
  rw [exact_page] at hv ⊢
  rw [h.count]
  refine ⟨fun i h₁ h₂ => ?_, fun i h₁ h₂ => ?_⟩
  · rw [h.count] at h₂
    rw [h.key i h₁ h₂, h.child (i + 1) (by omega) (by omega), hv.1 (a + i) (by omega) (by omega),
      Int.add_assoc]
  · rw [h.child i h₁ h₂]
    exact hv.2 (a + i) (by omega) (by omega)

theorem IsSlice.toList {q v : BTPage α} {a n : ℤ} (h : IsSlice q v a n) :
    (BTPtr.page q).toList = cat (fun i => (v.child i).toList) a (n + 1).toNat := by
  rw [toList_page, h.count]
  have hcat := cat_congr_shift (f := fun i => (q.child i).toList)
    (g := fun i => (v.child i).toList) (a := 0) (d := a) (n := (n + 1).toNat)
    (fun i h₁ h₂ => by rw [h.child i h₁ (by omega), Int.add_comm])
  rwa [Int.zero_add] at hcat

/-- A page cut in two at key `m` loses no object. -/
theorem IsSlice.toList_eq_append {l r v : BTPage α} {m : ℤ} (hl : IsSlice l v 0 m)
    (hr : IsSlice r v (m + 1) (v.count - (m + 1))) (hm : 0 ≤ m) (hmv : m < v.count) :
    (BTPtr.page v).toList = (BTPtr.page l).toList ++ (BTPtr.page r).toList := by
  rw [hl.toList, hr.toList, toList_page]
  have h := cat_split (fun i => (v.child i).toList) (show (0 : ℤ) ≤ m + 1 by omega)
    (show m + 1 ≤ v.count + 1 by omega)
  rw [show (v.count + 1 - 0 : ℤ) = v.count + 1 by omega, show (m + 1 - 0 : ℤ) = m + 1 by omega]
    at h
  rw [h]
  congr 2
  omega

/-! ### Replacing a child -/

/-- `page->child[i] = q` -/
def PageOf.setChild {P : Type} (p : PageOf P) (i : ℤ) (q : P) : PageOf P :=
  { p with child := Function.update p.child i q }

@[simp] theorem PageOf.setChild_count {P : Type} (p : PageOf P) (i : ℤ) (q : P) :
    (p.setChild i q).count = p.count := rfl

@[simp] theorem PageOf.setChild_isleaf {P : Type} (p : PageOf P) (i : ℤ) (q : P) :
    (p.setChild i q).isleaf = p.isleaf := rfl

@[simp] theorem PageOf.setChild_key {P : Type} (p : PageOf P) (i : ℤ) (q : P) :
    (p.setChild i q).key = p.key := rfl

@[simp] theorem PageOf.setChild_idx {P : Type} (p : PageOf P) (i : ℤ) (q : P) :
    (p.setChild i q).idx = p.idx := rfl

theorem PageOf.setChild_child_self {P : Type} (p : PageOf P) (i : ℤ) (q : P) :
    (p.setChild i q).child i = q := Function.update_self ..

theorem PageOf.setChild_child_ne {P : Type} (p : PageOf P) {i j : ℤ} (h : j ≠ i) (q : P) :
    (p.setChild i q).child j = p.child j := Function.update_of_ne h ..

theorem toList_setChild (p : BTPage α) {i : ℤ} (h₁ : 0 ≤ i) (h₂ : i ≤ p.count) (q : BTPtr α) :
    (BTPtr.page (p.setChild i q)).toList
      = cat (fun i => (p.child i).toList) 0 i.toNat ++ q.toList
        ++ cat (fun i => (p.child i).toList) (i + 1) (p.count - i).toNat := by
  have hl : cat (fun j => ((p.setChild i q).child j).toList) 0 i.toNat
      = cat (fun j => (p.child j).toList) 0 i.toNat :=
    cat_congr fun j hj₁ hj₂ => by rw [PageOf.setChild_child_ne _ (by omega)]
  have hr : cat (fun j => ((p.setChild i q).child j).toList) (i + 1) (p.count - i).toNat
      = cat (fun j => (p.child j).toList) (i + 1) (p.count - i).toNat :=
    cat_congr fun j hj₁ hj₂ => by rw [PageOf.setChild_child_ne _ (by omega)]
  rw [toList_focus _ h₁ (by simpa using h₂), PageOf.setChild_child_self, PageOf.setChild_count,
    hl, hr]

theorem Shape.setChild {n : ℕ} {p : BTPage α} (h : Shape c n p) (i : ℤ) {q : BTPtr α}
    (hq : ChildShape c n q) : Shape c n (p.setChild i q) := by
  rw [shape_iff] at h ⊢
  refine ⟨h.1, fun j h₁ h₂ => ?_⟩
  by_cases hj : j = i
  · subst hj
    rwa [PageOf.setChild_child_self]
  · rw [PageOf.setChild_child_ne _ hj]
    exact h.2 j h₁ h₂

theorem Keys.setChild {p : BTPage α} (h : Keys c p) {i : ℤ} {q : BTPtr α}
    (hleast : 0 < i → i ≤ p.count → c.leastBase q.toList = c.leastBase (p.child i).toList) :
    Keys c (p.setChild i q) := by
  intro j h₁ h₂
  rw [PageOf.setChild_key, h j h₁ h₂]
  by_cases hj : j + 1 = i
  · subst hj
    rw [PageOf.setChild_child_self, hleast (by omega) h₂]
  · rw [PageOf.setChild_child_ne _ hj]

theorem Exact.setChild {p : BTPage α} (h : Exact c (.page p)) {i : ℤ} {q : BTPtr α}
    (hq : Exact c q)
    (hleast : 0 < i → i ≤ p.count → c.leastBase q.toList = c.leastBase (p.child i).toList) :
    Exact c (.page (p.setChild i q)) := by
  rw [exact_page] at h ⊢
  refine ⟨h.1.setChild hleast, fun j h₁ h₂ => ?_⟩
  by_cases hj : j = i
  · subst hj
    rw [PageOf.setChild_child_self]
    exact hq
  · rw [PageOf.setChild_child_ne _ hj]
    exact h.2 j h₁ h₂

/-! ### Replacing a key -/

/-- `page->key[i] = k` -/
def PageOf.setKey {P : Type} (p : PageOf P) (i : ℤ) (k : ℕ) : PageOf P :=
  { p with key := Function.update p.key i k }

theorem PageOf.setKey_key_self {P : Type} (p : PageOf P) (i : ℤ) (k : ℕ) :
    (p.setKey i k).key i = k := Function.update_self ..

theorem PageOf.setKey_key_ne {P : Type} (p : PageOf P) {i j : ℤ} (h : j ≠ i) (k : ℕ) :
    (p.setKey i k).key j = p.key j := Function.update_of_ne h ..

@[simp] theorem PageOf.setKey_count {P : Type} (p : PageOf P) (i : ℤ) (k : ℕ) :
    (p.setKey i k).count = p.count := rfl

@[simp] theorem PageOf.setKey_isleaf {P : Type} (p : PageOf P) (i : ℤ) (k : ℕ) :
    (p.setKey i k).isleaf = p.isleaf := rfl

@[simp] theorem PageOf.setKey_child {P : Type} (p : PageOf P) (i : ℤ) (k : ℕ) :
    (p.setKey i k).child = p.child := rfl

@[simp] theorem PageOf.setKey_idx {P : Type} (p : PageOf P) (i : ℤ) (k : ℕ) :
    (p.setKey i k).idx = p.idx := rfl

theorem toList_setKey (p : BTPage α) (i : ℤ) (k : ℕ) :
    (BTPtr.page (p.setKey i k)).toList = (BTPtr.page p).toList := rfl

end Mungi
