import Mungi.BTree.Search

/-!
# Trees of the naming library

`lib/naming/btree.c` is the B+ tree of the kernel with hashes for keys, and an object of a tree is
the first of the entries with one hash.  What it has beyond the kernel's is `BTEnum`, which collects
the objects from a key on.

## Main definitions

* `nsConf` — the macros of `bt_types.h`.
* `NsTree`, `NsTree.WF` — trees, and well-formed ones.
* `btEnum` — `BTEnum`.

## Main results

* `btEnum_eq` — **`BTEnum` collects the objects from the key on, in order**, as many as there is
  room for.
-/

namespace Mungi.Naming

open Cat

variable {α : Type}

/-- The macros of `bt_types.h`: the key of an object is its hash, and an object matches a key if it
is the hash.  `BT_ORDER` is 255, and nothing here takes a page for an object. -/
def nsConf (hash : α → ℕ) : BTConf α where
  btOrder := 255
  btGetObjKey := hash
  btGetObjLim o := hash o + 1
  pageWord _ _ := 0

theorem nsConf_odd (hash : α → ℕ) : (nsConf hash).Odd := ⟨127, by omega, rfl⟩

/-- `BTree_S`, without the pool. -/
structure NsTree (α : Type) where
  /-- The root page, `null` for the empty tree. -/
  root : BTPtr α
  depth : ℤ

/-- The objects of a tree, in order. -/
def NsTree.toList (t : NsTree α) : List α := t.root.toList

/-- The shape of a whole tree; the root may hold fewer keys than other pages. -/
def NsTree.Shaped (c : BTConf α) (t : NsTree α) : Prop :=
  match t.root with
  | .null => t.depth = 0
  | .obj _ => False
  | .page p => ∃ n : ℕ, t.depth = n + 1 ∧ Shape c n p ∧
      0 ≤ p.count ∧ p.count ≤ c.btMaxkey ∧ (0 < n → 1 ≤ p.count)

/-- **A well-formed tree**: its leaves are equally deep and its pages are occupied, every key is the
least hash to its right, and the hashes increase. -/
structure NsTree.WF (c : BTConf α) (t : NsTree α) : Prop where
  shaped : t.Shaped c
  exact : Exact c t.root
  sorted : t.toList.Pairwise c.Lt

/-! ### Enumeration -/

/-- A loop that collects objects, `f i len` in turn `i` when there is room for `len`, until it has
as many as there is room for. -/
def gather {β : Type*} (f : ℤ → ℕ → List β) : ℤ → ℕ → ℕ → List β
  | _, 0, _ => []
  | i, n + 1, len =>
    let found := f i len
    if found.length = len then found else found ++ gather f (i + 1) n (len - found.length)

/-- `BTEnumPage`, with `BTEnumMatch` for the objects of a leaf. -/
def btEnumPage (c : BTConf α) (key : ℕ) : BTPtr α → ℕ → List α
  | .null, _ => []
  | .obj _, _ => []
  | .page ⟨idx, count, isleaf, keys, child⟩, len =>
    let hi := (PageOf.search ⟨idx, count, isleaf, keys, child⟩ key).1
    let n := (count + 1 - hi).toNat
    if isleaf then
      gather (fun i _ =>
        match child i with
        | .obj o => if key ≤ c.btGetObjKey o then [o] else []
        | _ => []) hi n len
    else gather (fun i len => btEnumPage c key (child i) len) hi n len

/-- `BTEnum` -/
def btEnum (c : BTConf α) (t : NsTree α) (len key : ℕ) : List α := btEnumPage c key t.root len

theorem cat_cons {β : Type*} (f : ℤ → List β) (a : ℤ) (n : ℕ) :
    cat f a (n + 1) = f a ++ cat f (a + 1) n := by
  rw [Nat.add_comm, cat_add, cat_one]
  rfl

/-- What such a loop collects: all there is, cut where the room ends. -/
theorem gather_eq {β : Type*} {f : ℤ → ℕ → List β} {g : ℤ → List β} {a : ℤ} {n len : ℕ}
    (hf : ∀ i, a ≤ i → i < a + n → ∀ len, 0 < len → f i len = (g i).take len) (hlen : 0 < len) :
    gather f a n len = (cat g a n).take len := by
  induction n generalizing a len with
  | zero => simp [gather]
  | succ n ih =>
    rw [gather, cat_cons, hf a le_rfl (by omega) len hlen, List.length_take]
    by_cases hfull : min len (g a).length = len
    · rw [if_pos hfull, List.take_append_of_le_length (by omega)]
    · rw [if_neg hfull, ih (fun i h₁ h₂ => hf i (by omega) (by omega)) (by omega),
        List.take_append, List.take_of_length_le (by omega)]
      congr 2
      omega

theorem filter_cat {β : Type*} (q : β → Bool) (f : ℤ → List β) (a : ℤ) (n : ℕ) :
    (cat f a n).filter q = cat (fun i => (f i).filter q) a n := by
  induction n with
  | zero => rfl
  | succ n ih => rw [cat_succ, cat_succ, List.filter_append, ih]

variable {c : BTConf α}

/-- The objects from a key on are in the children from the one found on. -/
theorem filter_toList (hc : c.Odd) {n : ℕ} {p : BTPage α} (hsh : Shape c n p) (h0 : 0 ≤ p.count)
    (he : Exact c (.page p)) (hs : (BTPtr.page p).toList.Pairwise c.Lt) (key : ℕ) :
    (BTPtr.page p).toList.filter (key ≤ c.btGetObjKey ·) =
      cat (fun i => (p.child i).toList.filter (key ≤ c.btGetObjKey ·)) (p.search key).1
        (p.count + 1 - (p.search key).1).toNat := by
  have hmM := hc.bounds
  obtain ⟨hb₁, hb₂⟩ := PageOf.search_bounds p key h0
  have hne : ∀ i, 0 ≤ i → i ≤ p.count → (p.child i).toList ≠ [] :=
    fun i => hsh.child_ne_nil (by omega)
  have hsplit := cat_split (fun i => (p.child i).toList) hb₁ (show _ ≤ p.count + 1 by omega)
  rw [Int.sub_zero, Int.sub_zero] at hsplit
  have hlower : ∀ o ∈ cat (fun i => (p.child i).toList) 0 (p.search key).1.toNat,
      c.btGetObjKey o < key := by
    intro o ho
    obtain ⟨i, h₁, h₂, hoi⟩ := exists_of_mem_cat ho
    -- such an object is below the least one of the child that was found
    obtain ⟨x, hx, hleast⟩ := BTConf.exists_leastBase (c := c) (hne _ hb₁ hb₂)
    have hle := leastBase_le_of_lower hne h0 he hs key (by omega)
    rw [hleast] at hle
    exact lt_of_lt_of_le (lt_of_mem_child hs h₁ (by omega) hb₂ hoi hx) hle
  have hnil : (cat (fun i => (p.child i).toList) 0 (p.search key).1.toNat).filter
      (key ≤ c.btGetObjKey ·) = [] := by
    rw [List.filter_eq_nil_iff]
    intro o ho
    simpa using hlower o ho
  rw [toList_page, hsplit, List.filter_append, hnil, List.nil_append, filter_cat]

theorem btEnumPage_page (key : ℕ) (p : BTPage α) (len : ℕ) : btEnumPage c key (.page p) len =
    if p.isleaf then
      gather (fun i _ =>
        match p.child i with
        | .obj o => if key ≤ c.btGetObjKey o then [o] else []
        | _ => []) (p.search key).1 (p.count + 1 - (p.search key).1).toNat len
    else gather (fun i len => btEnumPage c key (p.child i) len) (p.search key).1
      (p.count + 1 - (p.search key).1).toNat len := rfl

/-- What is collected below a page. -/
theorem btEnumPage_eq (hc : c.Odd) (key : ℕ) : ∀ {n : ℕ} {p : BTPage α}, Shape c n p →
    0 ≤ p.count → Exact c (.page p) → (BTPtr.page p).toList.Pairwise c.Lt → ∀ len, 0 < len →
      btEnumPage c key (.page p) len =
        ((BTPtr.page p).toList.filter (key ≤ c.btGetObjKey ·)).take len := by
  have hmM := hc.bounds
  intro n
  induction n with
  | zero =>
    intro p hsh h0 he hs len hlen
    obtain ⟨hb₁, hb₂⟩ := PageOf.search_bounds p key h0
    rw [filter_toList hc hsh h0 he hs, btEnumPage_page, if_pos hsh.isleaf_zero]
    refine gather_eq (fun i h₁ h₂ len hlen => ?_) hlen
    obtain ⟨o, ho⟩ := hsh.2 i (by omega) (by omega)
    obtain ⟨k, rfl⟩ := Nat.exists_eq_succ_of_ne_zero (Nat.ne_of_gt hlen)
    rw [ho, BTPtr.toList_obj]
    by_cases hkey : key ≤ c.btGetObjKey o <;> simp [hkey]
  | succ n ih =>
    intro p hsh h0 he hs len hlen
    obtain ⟨hb₁, hb₂⟩ := PageOf.search_bounds p key h0
    rw [filter_toList hc hsh h0 he hs, btEnumPage_page, if_neg (by simp [hsh.isleaf_succ])]
    refine gather_eq (fun i h₁ h₂ len hlen => ?_) hlen
    have hi₁ : 0 ≤ i := by omega
    have hi₂ : i ≤ p.count := by omega
    obtain ⟨q, hq, hsq, hmin, -⟩ := hsh.2 i hi₁ hi₂
    have heq := (exact_page.mp he).2 i hi₁ hi₂
    have hsq' := pairwise_child hs hi₁ hi₂
    rw [hq] at heq hsq' ⊢
    exact ih hsq (by omega) heq hsq' len hlen

/-- **`BTEnum` collects the objects from the key on, in order**, as many as there is room for. -/
theorem btEnum_eq (hc : c.Odd) {t : NsTree α} (ht : t.WF c) {len : ℕ} (hlen : 0 < len) (key : ℕ) :
    btEnum c t len key = (t.toList.filter (key ≤ c.btGetObjKey ·)).take len := by
  obtain ⟨hsh, he, hs⟩ := ht
  unfold NsTree.Shaped at hsh
  unfold NsTree.toList at hs ⊢
  unfold btEnum
  cases hroot : t.root with
  | null => simp [btEnumPage]
  | obj o =>
    rw [hroot] at hsh
    exact hsh.elim
  | page p =>
    rw [hroot] at hsh he hs
    obtain ⟨n, -, hsh, h0, -⟩ := hsh
    exact btEnumPage_eq hc key hsh h0 he hs len hlen

end Mungi.Naming
