import Mungi.BTree.Search
import Mungi.BTree.Ins

/-!
# The slots of the object table

`BTSearch` hands out an object, and `BTModify` the place in a leaf that points to
it, so that `object_add` and its kin can put another object there.  Both run the
same descent.  A place is given here by the children on the way to it from the
root.

Pages may be filled in any way here; only that the descent ends, and where,
depends on the depth being uniform and on the keys.

## Main definitions

* `Uniform`, `BTree.Laid` — trees of uniform depth with the right keys.
* `BTPtr.Slot` — the places that hold an object.
* `pageLoop`, `descend` — the loops of the two functions, `none` while they run.
* `btSearchLoop`, `btModify` — `BTSearch` and `BTModify` with their loops.

## Main results

* `descend_ends` — the descent ends at a slot.
* `descend_of_slot` — no other slot holds an object that contains the key.
* `object_lookup` — **lookup in the object table.**
-/

namespace Mungi

open Cat ForLoop

variable {α : Type} {c : BTConf α}

/-! ### Trees of uniform depth -/

/-- A page with `n` levels of pages below it, however full they are. -/
def Uniform : ℕ → BTPage α → Prop
  | 0, p => 0 ≤ p.count ∧ p.isleaf = true ∧ ∀ i, 0 ≤ i → i ≤ p.count → ∃ o, p.child i = .obj o
  | n + 1, p => 0 ≤ p.count ∧ p.isleaf = false ∧
      ∀ i, 0 ≤ i → i ≤ p.count → ∃ q, p.child i = .page q ∧ Uniform n q

theorem Uniform.count_nonneg {n : ℕ} {p : BTPage α} (h : Uniform n p) : 0 ≤ p.count := by
  cases n with
  | zero => exact h.1
  | succ n => exact h.1

theorem Uniform.toList_ne_nil : ∀ {n : ℕ} {p : BTPage α}, Uniform n p →
    (BTPtr.page p).toList ≠ [] := by
  intro n
  induction n with
  | zero =>
    intro p h
    obtain ⟨o, ho⟩ := h.2.2 0 le_rfl h.1
    have ho' : o ∈ (p.child 0).toList := by rw [ho]; exact List.mem_singleton_self o
    exact List.ne_nil_of_mem (mem_toList_page.mpr ⟨0, le_rfl, h.1, ho'⟩)
  | succ n ih =>
    intro p h
    obtain ⟨q, hq, hu⟩ := h.2.2 0 le_rfl h.1
    obtain ⟨o, ho⟩ := List.exists_mem_of_ne_nil _ (ih hu)
    exact List.ne_nil_of_mem (mem_toList_page.mpr ⟨0, le_rfl, h.1, by rw [hq]; exact ho⟩)

theorem Uniform.child_ne_nil {n : ℕ} {p : BTPage α} (h : Uniform n p) :
    ∀ i, 0 ≤ i → i ≤ p.count → (p.child i).toList ≠ [] := by
  intro i h₁ h₂
  cases n with
  | zero =>
    obtain ⟨o, ho⟩ := h.2.2 i h₁ h₂
    simp [ho]
  | succ n =>
    obtain ⟨q, hq, hu⟩ := h.2.2 i h₁ h₂
    rw [hq]
    exact hu.toList_ne_nil

/-- The pages that insertion and deletion keep are of uniform depth. -/
theorem Shape.uniform (hc : 0 ≤ c.btMinkey) : ∀ {n : ℕ} {p : BTPage α}, Shape c n p →
    0 ≤ p.count → Uniform n p := by
  intro n
  induction n with
  | zero => exact fun h h0 => ⟨h0, h.1, h.2⟩
  | succ n ih =>
    intro p h h0
    refine ⟨h0, h.1, fun i h₁ h₂ => ?_⟩
    obtain ⟨q, hq, hsh, hmin, -⟩ := h.2 i h₁ h₂
    exact ⟨q, hq, ih hsh (le_trans hc hmin)⟩

/-- A tree of uniform depth whose keys are the least bases to their right, of
objects in order. -/
structure BTree.Laid (c : BTConf α) (t : BTree α) : Prop where
  uniform : t.root = .null ∨ ∃ n p, t.root = .page p ∧ Uniform n p
  exact : Exact c t.root
  sorted : t.toList.Pairwise c.Lt

/-- The trees that insertion and deletion keep are laid out that way. -/
theorem BTree.WF.laid (hc : c.Odd) {t : BTree α} (h : t.WF c) : t.Laid c := by
  refine ⟨?_, h.exact, h.sorted⟩
  have hmM := hc.bounds
  have hsh := h.shaped
  unfold BTree.Shaped at hsh
  cases hroot : t.root with
  | null => exact .inl rfl
  | obj o => rw [hroot] at hsh; exact hsh.elim
  | page p =>
    rw [hroot] at hsh
    obtain ⟨n, -, hsh, h0, -⟩ := hsh
    exact .inr ⟨n, p, rfl, hsh.uniform (by omega) h0⟩

/-! ### Slots -/

/-- Following the children `s` from a pointer, inside the pages, leads to an
object. -/
def BTPtr.Slot : List ℤ → BTPtr α → α → Prop
  | [], .obj o, o' => o = o'
  | i :: s, .page p, o => 0 ≤ i ∧ i ≤ p.count ∧ BTPtr.Slot s (p.child i) o
  | _, _, _ => False

theorem slot_page {p : BTPage α} {s : List ℤ} {o : α} : BTPtr.Slot s (.page p) o ↔
    ∃ i s', s = i :: s' ∧ 0 ≤ i ∧ i ≤ p.count ∧ BTPtr.Slot s' (p.child i) o := by
  cases s with
  | nil => simp [BTPtr.Slot]
  | cons i s => simp [BTPtr.Slot]

theorem slot_obj {s : List ℤ} {o o' : α} : BTPtr.Slot s (.obj o) o' ↔ s = [] ∧ o = o' := by
  cases s with
  | nil => simp [BTPtr.Slot]
  | cons i s => simp [BTPtr.Slot]

/-- The slots hold the objects of the tree. -/
theorem exists_slot_iff {o : α} : ∀ {n : ℕ} {p : BTPage α}, Uniform n p →
    ((∃ s, BTPtr.Slot s (.page p) o) ↔ o ∈ (BTPtr.page p).toList) := by
  intro n
  induction n with
  | zero =>
    intro p h
    rw [mem_toList_page]
    constructor
    · rintro ⟨s, hs⟩
      obtain ⟨i, s', -, h₁, h₂, hs'⟩ := slot_page.mp hs
      obtain ⟨x, hx⟩ := h.2.2 i h₁ h₂
      rw [hx, slot_obj] at hs'
      exact ⟨i, h₁, h₂, by simp [hx, hs'.2]⟩
    · rintro ⟨i, h₁, h₂, ho⟩
      obtain ⟨x, hx⟩ := h.2.2 i h₁ h₂
      rw [hx] at ho
      refine ⟨[i], slot_page.mpr ⟨i, [], rfl, h₁, h₂, ?_⟩⟩
      rw [hx, slot_obj]
      exact ⟨rfl, (List.mem_singleton.mp ho).symm⟩
  | succ n ih =>
    intro p h
    rw [mem_toList_page]
    constructor
    · rintro ⟨s, hs⟩
      obtain ⟨i, s', -, h₁, h₂, hs'⟩ := slot_page.mp hs
      obtain ⟨q, hq, hu⟩ := h.2.2 i h₁ h₂
      rw [hq] at hs'
      exact ⟨i, h₁, h₂, hq ▸ (ih hu).mp ⟨s', hs'⟩⟩
    · rintro ⟨i, h₁, h₂, ho⟩
      obtain ⟨q, hq, hu⟩ := h.2.2 i h₁ h₂
      rw [hq] at ho
      obtain ⟨s, hs⟩ := (ih hu).mpr ho
      exact ⟨i :: s, slot_page.mpr ⟨i, s, rfl, h₁, h₂, hq ▸ hs⟩⟩

/-! ### The loops -/

/-- The loop `while (lo < hi)` of the two functions, the final `hi`; `none` when
it has not ended within `fuel` rounds. -/
def pageLoop (key : ℤ → ℕ) (k : ℕ) : ℕ → ℤ → ℤ → Option ℤ
  | 0, _, _ => none
  | fuel + 1, lo, hi =>
      if lo < hi then
        let mid := (lo + hi) / 2
        if key mid = k then some (mid + 1)
        else if k < key mid then pageLoop key k fuel lo mid
        else pageLoop key k fuel (mid + 1) hi
      else some hi

/-- The loop `for (;;)` around it: the slot where it is left and what is there. -/
def descend (k : ℕ) : ℕ → BTPtr α → Option (List ℤ × BTPtr α)
  | fuel + 1, .page p =>
      (pageLoop p.key k (fuel + 1) 0 p.count).bind fun hi =>
        if p.isleaf then some ([hi], p.child hi)
        else (descend k fuel (p.child hi)).map fun r => (hi :: r.1, r.2)
  | _, _ => none

/-- `BTSearch`, its loops run for at most `fuel` rounds each. -/
def btSearchLoop (c : BTConf α) (t : BTree α) (k fuel : ℕ) : Option (BTRet × Option α) :=
  match t.root with
  | .null => some (.notFound, none)
  | r => (descend k fuel r).bind fun s =>
      match s.2 with
      | .obj o => some (if c.btObjMatch o k then .ok else .notFound, some o)
      | _ => none

/-- `BTModify`: the slot left in `*obj`, which is meant only with `BT_OK`. -/
def btModify (c : BTConf α) (t : BTree α) (k fuel : ℕ) : Option (BTRet × Option (List ℤ)) :=
  match t.root with
  | .null => some (.notFound, none)
  | r => (descend k fuel r).bind fun s =>
      match s.2 with
      | .obj o => some (if c.btObjMatch o k then .ok else .notFound, some s.1)
      | _ => none

/-- The search in a page ends, within as many rounds as the page has keys. -/
theorem pageLoop_eq (key : ℤ → ℕ) (k : ℕ) : ∀ (fuel n : ℕ) (lo hi : ℤ), hi - lo ≤ n → n < fuel →
    pageLoop key k fuel lo hi = some (pageSearch key k n lo hi).1 := by
  intro fuel
  induction fuel with
  | zero => intro n lo hi _ h; omega
  | succ fuel ih =>
    intro n lo hi hn hf
    rw [pageLoop]
    by_cases hlt : lo < hi
    · rw [if_pos hlt]
      have hmid : lo ≤ (lo + hi) / 2 ∧ (lo + hi) / 2 < hi := by omega
      cases n with
      | zero => omega
      | succ n =>
        rw [pageSearch, if_pos hlt]
        dsimp only
        generalize (lo + hi) / 2 = mid at hmid
        by_cases heq : key mid = k
        · rw [if_pos heq, if_pos heq]
        · rw [if_neg heq, if_neg heq]
          by_cases hgt : k < key mid
          · rw [if_pos hgt, if_pos hgt]
            exact ih n lo mid (by omega) (by omega)
          · rw [if_neg hgt, if_neg hgt]
            exact ih n (mid + 1) hi (by omega) (by omega)
    · rw [if_neg hlt]
      cases n with
      | zero => rfl
      | succ n => rw [pageSearch, if_neg hlt]

theorem descend_page {k fuel : ℕ} {p : BTPage α} (h0 : 0 ≤ p.count)
    (hf : p.count.toNat ≤ fuel) : descend k (fuel + 1) (.page p) =
      if p.isleaf then some ([(p.search k).1], p.child (p.search k).1)
      else (descend k fuel (p.child (p.search k).1)).map
        fun r => ((p.search k).1 :: r.1, r.2) := by
  have hloop := pageLoop_eq p.key k (fuel + 1) p.count.toNat 0 p.count (by omega) (by omega)
  rw [descend, hloop]
  rfl

/-- The children on the way down. -/
def slotPage (k : ℕ) : BTPtr α → List ℤ
  | .null => []
  | .obj _ => []
  | .page ⟨idx, count, isleaf, key, child⟩ =>
      let hi := (PageOf.search ⟨idx, count, isleaf, key, child⟩ k).1
      if isleaf then [hi] else hi :: slotPage k (child hi)

theorem slotPage_page (k : ℕ) (p : BTPage α) : slotPage k (.page p) =
    if p.isleaf then [(p.search k).1]
    else (p.search k).1 :: slotPage k (p.child (p.search k).1) := rfl

/-- **The descent ends**, at the slot `slotPage` names and the object
`btSearchPage` names. -/
theorem descend_ends (k : ℕ) : ∀ {n : ℕ} {p : BTPage α}, Uniform n p →
    ∃ o, BTPtr.Slot (slotPage k (.page p)) (.page p) o ∧ btSearchPage c k (.page p) = some o ∧
      ∃ fuel₀, ∀ fuel, fuel₀ ≤ fuel →
        descend k fuel (.page p) = some (slotPage k (.page p), .obj o) := by
  intro n
  induction n with
  | zero =>
    intro p h
    obtain ⟨hb₁, hb₂⟩ := PageOf.search_bounds p k h.1
    obtain ⟨o, ho⟩ := h.2.2 _ hb₁ hb₂
    rw [slotPage_page, if_pos h.2.1]
    refine ⟨o, slot_page.mpr ⟨_, [], rfl, hb₁, hb₂, ?_⟩, ?_, p.count.toNat + 1, ?_⟩
    · rw [ho, slot_obj]
      exact ⟨rfl, rfl⟩
    · rw [btSearchPage_page, if_pos h.2.1, ho]
    · intro fuel hf
      obtain ⟨f, rfl⟩ := Nat.exists_eq_add_of_le' (show 1 ≤ fuel by omega)
      rw [descend_page h.1 (by omega), if_pos h.2.1, ho]
  | succ n ih =>
    intro p h
    obtain ⟨hb₁, hb₂⟩ := PageOf.search_bounds p k h.1
    obtain ⟨q, hq, hu⟩ := h.2.2 _ hb₁ hb₂
    obtain ⟨o, hs, hfind, fuel₀, hrun⟩ := ih hu
    have hleaf : ¬ p.isleaf = true := by simp [h.2.1]
    rw [slotPage_page, if_neg hleaf, hq]
    refine ⟨o, slot_page.mpr ⟨_, _, rfl, hb₁, hb₂, by rw [hq]; exact hs⟩, ?_,
      max p.count.toNat fuel₀ + 1, ?_⟩
    · rw [btSearchPage_page, if_neg hleaf, hq, hfind]
    · intro fuel hf
      obtain ⟨f, rfl⟩ := Nat.exists_eq_add_of_le' (show 1 ≤ fuel by omega)
      rw [descend_page h.1 (by omega), if_neg hleaf, hq, hrun f (by omega)]
      rfl

/-! ### Where the descent ends -/

/-- An object that contains the key lies below the child found. -/
theorem eq_search_of_match {n : ℕ} {p : BTPage α} (hu : Uniform n p) (he : Exact c (.page p))
    (hb : (BTPtr.page p).toList.Pairwise c.Before) {k : ℕ} {i : ℤ} (h₁ : 0 ≤ i)
    (h₂ : i ≤ p.count) {o : α} (ho : o ∈ (p.child i).toList) (hm : c.btObjMatch o k = true) :
    i = (p.search k).1 := by
  have hs := hb.imp fun h => BTConf.Before.lt h
  obtain ⟨hb₁, hb₂⟩ := PageOf.search_bounds p k hu.count_nonneg
  rw [btObjMatch_iff] at hm
  rcases lt_trichotomy i (p.search k).1 with hlt | heq | hgt
  · -- it ends before the child found starts
    have hle := leastBase_le_of_lower hu.child_ne_nil hu.count_nonneg he hs k (by omega)
    obtain ⟨x, hx, hbx⟩ := BTConf.exists_leastBase (c := c) (hu.child_ne_nil _ hb₁ hb₂)
    have hbefore : c.Before o x := lt_of_mem_child hb h₁ hlt hb₂ ho hx
    have := hbefore.2
    omega
  · exact heq
  · have hmem : o ∈ upper p (p.search k).1 := mem_cat_of_mem (by omega) (by omega) ho
    have := lt_of_mem_upper hu.child_ne_nil hu.count_nonneg he hs k o hmem
    omega

/-- **No other slot holds an object that contains the key.** -/
theorem eq_slotPage_of_match {k : ℕ} {o : α} (hm : c.btObjMatch o k = true) :
    ∀ {n : ℕ} {p : BTPage α}, Uniform n p → Exact c (.page p) →
      (BTPtr.page p).toList.Pairwise c.Before → ∀ {s : List ℤ},
        BTPtr.Slot s (.page p) o → s = slotPage k (.page p) := by
  intro n
  induction n with
  | zero =>
    intro p hu he hb s hs
    obtain ⟨i, s', rfl, h₁, h₂, hs'⟩ := slot_page.mp hs
    obtain ⟨x, hx⟩ := hu.2.2 i h₁ h₂
    rw [hx, slot_obj] at hs'
    have hi := eq_search_of_match hu he hb h₁ h₂ (by simp [hx, hs'.2]) hm
    rw [slotPage_page, if_pos hu.2.1, hs'.1, hi]
  | succ n ih =>
    intro p hu he hb s hs
    obtain ⟨i, s', rfl, h₁, h₂, hs'⟩ := slot_page.mp hs
    obtain ⟨q, hq, huq⟩ := hu.2.2 i h₁ h₂
    rw [hq] at hs'
    have hmem : o ∈ (p.child i).toList := hq ▸ (exists_slot_iff huq).mp ⟨s', hs'⟩
    have hi := eq_search_of_match hu he hb h₁ h₂ hmem hm
    have hrest := ih huq (hq ▸ (exact_page.mp he).2 i h₁ h₂) (hq ▸ pairwise_child hb h₁ h₂) hs'
    rw [slotPage_page, if_neg (by simp [hu.2.1]), hrest, ← hi, hq]

/-! ### Lookup -/

/-- The slots of a tree. -/
def BTree.Slot (t : BTree α) (s : List ℤ) (o : α) : Prop := BTPtr.Slot s t.root o

/-- A slot holds one object. -/
theorem slot_unique {o o' : α} : ∀ {s : List ℤ} {q : BTPtr α}, BTPtr.Slot s q o →
    BTPtr.Slot s q o' → o = o' := by
  intro s
  induction s with
  | nil =>
    intro q h h'
    cases q with
    | null => exact h.elim
    | obj x => exact Eq.trans (Eq.symm h) h'
    | page p => exact h.elim
  | cons i s ih =>
    intro q h h'
    cases q with
    | null => exact h.elim
    | obj x => exact h.elim
    | page p => exact ih h.2.2 h'.2.2

/-- **Lookup in the object table.**  In a tree of uniform depth with the right keys,
of disjoint intervals, the loops of `BTSearch` and of `BTModify` end.  `BTSearch`
returns `BT_OK` with exactly the stored object that contains the key, and
`BT_NOT_FOUND` exactly when there is none; `BTModify` returns the same code, and
with `BT_OK` the one slot that holds this object. -/
theorem object_lookup {t : BTree α} (ht : t.Laid c) (hp : ∀ o ∈ t.toList, c.Proper o)
    (hd : t.toList.Pairwise fun a b => ¬ c.Meet a b) (k : ℕ) :
    ∃ found place, (∃ fuel₀, ∀ fuel, fuel₀ ≤ fuel →
        btSearchLoop c t k fuel = some found ∧ btModify c t k fuel = some place) ∧
      found = btSearch c t k ∧
      (∀ o, found = (.ok, some o) ↔
        o ∈ t.toList ∧ c.btGetObjKey o ≤ k ∧ k < c.btGetObjLim o) ∧
      (found.1 = .notFound ↔
        ∀ o ∈ t.toList, ¬ (c.btGetObjKey o ≤ k ∧ k < c.btGetObjLim o)) ∧
      place.1 = found.1 ∧
      ∀ s, place = (.ok, some s) ↔
        ∃ o, t.Slot s o ∧ c.btGetObjKey o ≤ k ∧ k < c.btGetObjLim o := by
  have hb := pairwise_before ht.sorted hd hp
  have he := ht.exact
  simp only [← btObjMatch_iff]
  rcases ht.uniform with hroot | ⟨n, p, hroot, hu⟩
  · have hnil : t.toList = [] := by unfold BTree.toList; rw [hroot]; rfl
    refine ⟨(.notFound, none), (.notFound, none), ⟨0, fun fuel _ => ⟨?_, ?_⟩⟩, ?_, ?_, ?_, rfl, ?_⟩
    · unfold btSearchLoop
      rw [hroot]
    · unfold btModify
      rw [hroot]
    · unfold btSearch
      rw [hroot]
    · simp [hnil]
    · simp [hnil]
    · intro s
      unfold BTree.Slot
      rw [hroot]
      cases s with
      | nil => simp [BTPtr.Slot]
      | cons i s => simp [BTPtr.Slot]
  · have hlist : t.toList = (BTPtr.page p).toList := by unfold BTree.toList; rw [hroot]
    rw [hlist] at hb ⊢
    rw [hroot] at he
    obtain ⟨o, hslot, hfind, fuel₀, hrun⟩ := descend_ends (c := c) k hu
    -- any stored object that contains the key is in the slot where the descent ends
    have honly : ∀ {s o'}, c.btObjMatch o' k = true → BTPtr.Slot s (.page p) o' →
        s = slotPage k (.page p) ∧ o' = o := by
      intro s o' hm hs
      have heq := eq_slotPage_of_match hm hu he hb hs
      exact ⟨heq, slot_unique (heq ▸ hs) hslot⟩
    have hmem : ∀ o', o' ∈ (BTPtr.page p).toList → c.btObjMatch o' k = true → o' = o := by
      intro o' ho' hm
      obtain ⟨s, hs⟩ := (exists_slot_iff hu).mpr ho'
      exact (honly hm hs).2
    have ho : o ∈ (BTPtr.page p).toList := (exists_slot_iff hu).mp ⟨_, hslot⟩
    refine ⟨(if c.btObjMatch o k then .ok else .notFound, some o),
      (if c.btObjMatch o k then .ok else .notFound, some (slotPage k (.page p))),
      ⟨fuel₀, fun fuel hf => ⟨?_, ?_⟩⟩, ?_, ?_, ?_, rfl, ?_⟩
    · unfold btSearchLoop
      rw [hroot]
      dsimp only
      rw [hrun fuel hf]
      rfl
    · unfold btModify
      rw [hroot]
      dsimp only
      rw [hrun fuel hf]
      rfl
    · rw [btSearch_page hroot, hfind]
      by_cases hm : c.btObjMatch o k = true
      · simp [hm]
      · simp [hm]
    · intro o'
      constructor
      · intro h
        obtain ⟨hret, heq⟩ := Prod.mk.inj h
        cases heq
        by_cases hm : c.btObjMatch o k = true
        · exact ⟨ho, hm⟩
        · simp [hm] at hret
      · rintro ⟨ho', hm⟩
        obtain rfl := hmem o' ho' hm
        rw [if_pos hm]
    · constructor
      · intro h o' ho' hm
        obtain rfl := hmem o' ho' hm
        simp [hm] at h
      · intro h
        exact if_neg (h o ho)
    · intro s
      unfold BTree.Slot
      rw [hroot]
      constructor
      · intro h
        obtain ⟨hret, heq⟩ := Prod.mk.inj h
        cases heq
        by_cases hm : c.btObjMatch o k = true
        · exact ⟨o, hslot, hm⟩
        · simp [hm] at hret
      · rintro ⟨o', hs, hm⟩
        obtain ⟨rfl, rfl⟩ := honly hm hs
        rw [if_pos hm]

/-- An interval in the middle leaf. -/
theorem object_lookup_fullTree : btSearch spans5 fullTree 22 = (.ok, some (22, 23)) := by
  obtain ⟨found, place, -, rfl, hok, -⟩ :=
    object_lookup (fullTree_wf.laid spans5_odd) (by decide) (by decide) 22
  exact (hok (22, 23)).mpr (by decide)

end Mungi
