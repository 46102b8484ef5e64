import Mungi.BTree.Shape

/-!
# Lookup in the object table

`BTSearch` goes down to the last object that starts at or below the key and then
checks that the key lies within it.  What it hands out is always in the table,
whatever the keys of the pages are; that it finds everything needs the keys.

## Main results

* `btSearchPage_last` — where the descent ends.
* `btSearch_sound` — what `BTSearch` finds is stored and contains the key.
* `btSearch_eq_find` — **`BTSearch` finds the object that contains the key.**
-/

namespace Mungi

open Cat ForLoop

variable {α : Type} {c : BTConf α}

theorem btSearchPage_page (k : ℕ) (p : BTPage α) : btSearchPage c k (.page p) =
    if p.isleaf then
      match p.child (p.search k).1 with
      | .obj o => some o
      | _ => none
    else btSearchPage c k (p.child (p.search k).1) := rfl

/-- The descent ends at a stored object. -/
theorem btSearchPage_mem (hc : c.Odd) (k : ℕ) : ∀ {n : ℕ} {p : BTPage α}, Shape c n p →
    0 ≤ p.count → ∃ o ∈ (BTPtr.page p).toList, btSearchPage c k (.page p) = some o := by
  have hmM := hc.bounds
  intro n
  induction n with
  | zero =>
    intro p hsh h0
    obtain ⟨hb₁, hb₂⟩ := PageOf.search_bounds p k h0
    obtain ⟨o, ho⟩ := hsh.2 _ hb₁ hb₂
    refine ⟨o, mem_toList_page.mpr ⟨_, hb₁, hb₂, by rw [ho]; exact List.mem_singleton_self o⟩, ?_⟩
    rw [btSearchPage_page, if_pos hsh.isleaf_zero, ho]
  | succ n ih =>
    intro p hsh h0
    obtain ⟨hb₁, hb₂⟩ := PageOf.search_bounds p k h0
    obtain ⟨q, hq, hsq, hmin, -⟩ := hsh.2 _ hb₁ hb₂
    obtain ⟨o, ho, hfind⟩ := ih hsq (by omega)
    refine ⟨o, mem_toList_page.mpr ⟨_, hb₁, hb₂, by rw [hq]; exact ho⟩, ?_⟩
    rw [btSearchPage_page, hsh.isleaf_succ, if_neg (by simp), hq, hfind]

/-- The objects right of the child found start above the key. -/
theorem lt_of_mem_upper {p : BTPage α}
    (hne : ∀ i, 0 ≤ i → i ≤ p.count → (p.child i).toList ≠ []) (h0 : 0 ≤ p.count)
    (he : Exact c (.page p)) (hs : (BTPtr.page p).toList.Pairwise c.Lt) (k : ℕ) :
    ∀ b ∈ upper p (p.search k).1, k < c.btGetObjKey b := by
  intro b hb
  obtain ⟨hb₁, hb₂⟩ := PageOf.search_bounds p k h0
  obtain ⟨i, h₁, h₂, hbi⟩ := exists_of_mem_cat hb
  have hlt := (PageOf.search_spec hne (exact_page.mp he).1 hs k h0).2.1 (by omega)
  rw [(exact_page.mp he).1 _ hb₁ (by omega)] at hlt
  rcases (show i = (p.search k).1 + 1 ∨ (p.search k).1 + 1 < i by omega) with hi | hi
  · exact lt_of_lt_of_le hlt
      (BTConf.leastBase_le (pairwise_child hs (by omega) (by omega)) (hi ▸ hbi))
  · obtain ⟨x, hx, hbx⟩ := BTConf.exists_leastBase (c := c)
      (hne ((p.search k).1 + 1) (by omega) (by omega))
    rw [hbx] at hlt
    exact lt_trans hlt (lt_of_mem_child hs (by omega) hi (by omega) hx hbi)

/-- The child found starts at or below the key, unless it is the first one. -/
theorem leastBase_le_of_lower {p : BTPage α}
    (hne : ∀ i, 0 ≤ i → i ≤ p.count → (p.child i).toList ≠ []) (h0 : 0 ≤ p.count)
    (he : Exact c (.page p)) (hs : (BTPtr.page p).toList.Pairwise c.Lt) (k : ℕ)
    (hpos : 0 < (p.search k).1) : c.leastBase (p.child (p.search k).1).toList ≤ k := by
  obtain ⟨hb₁, hb₂⟩ := PageOf.search_bounds p k h0
  have hle := (PageOf.search_spec hne (exact_page.mp he).1 hs k h0).1 hpos
  rwa [(exact_page.mp he).1 _ (by omega) (by omega), Int.sub_add_cancel] at hle

/-- There is nothing left of the first child. -/
theorem pos_of_lower_ne_nil {p : BTPage α} {i : ℤ} (h₀ : 0 ≤ i) (h : lower p i ≠ []) : 0 < i := by
  rcases lt_or_eq_of_le h₀ with hi | rfl
  · exact hi
  · exact absurd rfl h

/-- **Where the descent ends**: at the last object that starts at or below the key,
or at the first one if there is none. -/
theorem btSearchPage_last (hc : c.Odd) (k : ℕ) : ∀ {n : ℕ} {p : BTPage α}, Shape c n p →
    0 ≤ p.count → Exact c (.page p) → (BTPtr.page p).toList.Pairwise c.Lt →
      ∃ l₁ o l₂, (BTPtr.page p).toList = l₁ ++ o :: l₂ ∧ btSearchPage c k (.page p) = some o ∧
        (l₁ ≠ [] → c.btGetObjKey o ≤ k) ∧ ∀ b ∈ l₂, k < c.btGetObjKey b := by
  have hmM := hc.bounds
  intro n
  induction n with
  | zero =>
    intro p hsh h0 he hs
    obtain ⟨hb₁, hb₂⟩ := PageOf.search_bounds p k h0
    have hne : ∀ i, 0 ≤ i → i ≤ p.count → (p.child i).toList ≠ [] :=
      fun i => hsh.child_ne_nil (by omega)
    have hlow := fun h : lower p (p.search k).1 ≠ [] =>
      leastBase_le_of_lower hne h0 he hs k (pos_of_lower_ne_nil hb₁ h)
    obtain ⟨o, ho⟩ := hsh.2 _ hb₁ hb₂
    refine ⟨lower p (p.search k).1, o, upper p (p.search k).1, ?_, ?_, fun hne => ?_,
      lt_of_mem_upper hne h0 he hs k⟩
    · rw [toList_eq_lower_upper p hb₁ hb₂, ho]
      simp
    · rw [btSearchPage_page, if_pos hsh.isleaf_zero, ho]
    · rw [ho] at hlow
      exact hlow hne
  | succ n ih =>
    intro p hsh h0 he hs
    obtain ⟨hb₁, hb₂⟩ := PageOf.search_bounds p k h0
    have hne : ∀ i, 0 ≤ i → i ≤ p.count → (p.child i).toList ≠ [] :=
      fun i => hsh.child_ne_nil (by omega)
    have hlow := fun h : lower p (p.search k).1 ≠ [] =>
      leastBase_le_of_lower hne h0 he hs k (pos_of_lower_ne_nil hb₁ h)
    obtain ⟨q, hq, hsq, hmin, -⟩ := hsh.2 _ hb₁ hb₂
    obtain ⟨l₁, o, l₂, hlist, hfind, hle, hgt⟩ := ih hsq (by omega)
      (hq ▸ (exact_page.mp he).2 _ hb₁ hb₂) (hq ▸ pairwise_child hs hb₁ hb₂)
    refine ⟨lower p (p.search k).1 ++ l₁, o, l₂ ++ upper p (p.search k).1, ?_, ?_, fun hne => ?_,
      fun b hb => ?_⟩
    · rw [toList_eq_lower_upper p hb₁ hb₂, hq, hlist]
      simp
    · rw [btSearchPage_page, hsh.isleaf_succ, if_neg (by simp), hq, hfind]
    · cases l₁ with
      | cons a l₁ => exact hle (by simp)
      | nil =>
        rw [hq, hlist] at hlow
        exact hlow (by simpa using hne)
    · rcases List.mem_append.mp hb with hb | hb
      · exact hgt b hb
      · exact lt_of_mem_upper hne h0 he hs k b hb

theorem btObjMatch_iff {o : α} {k : ℕ} :
    c.btObjMatch o k = true ↔ c.btGetObjKey o ≤ k ∧ k < c.btGetObjLim o := by
  rw [BTConf.btObjMatch, Bool.and_eq_true, decide_eq_true_eq, decide_eq_true_eq]

theorem btSearch_page {t : BTree α} {p : BTPage α} (hroot : t.root = .page p) (k : ℕ) :
    btSearch c t k = match btSearchPage c k (.page p) with
      | some o => if c.btObjMatch o k then (.ok, some o) else (.notFound, some o)
      | none => (.notFound, none) := by
  obtain ⟨depth, root, pool⟩ := t
  dsimp only at hroot
  subst hroot
  rfl

/-- What `BTSearch` finds is stored and contains the key, on a tree of any shape. -/
theorem btSearch_sound (hc : c.Odd) {t : BTree α} (ht : t.Shaped c) {k : ℕ}
    (h : (btSearch c t k).1 = .ok) :
    ∃ o ∈ t.toList, btSearch c t k = (.ok, some o) ∧ c.btObjMatch o k = true := by
  cases hroot : t.root with
  | null => unfold btSearch at h; rw [hroot] at h; cases h
  | obj o => unfold BTree.Shaped at ht; rw [hroot] at ht; exact ht.elim
  | page p =>
    unfold BTree.Shaped at ht
    rw [hroot] at ht
    obtain ⟨n, -, hsh, h0, -⟩ := ht
    obtain ⟨o, ho, hfind⟩ := btSearchPage_mem hc k hsh h0
    rw [btSearch_page hroot, hfind] at h ⊢
    dsimp only at h ⊢
    by_cases hm : c.btObjMatch o k = true
    · rw [if_pos hm]
      refine ⟨o, ?_, rfl, hm⟩
      unfold BTree.toList
      rwa [hroot]
    · rw [if_neg hm] at h
      cases h

/-- **`BTSearch` finds the object that contains the key**, if there is one. -/
theorem btSearch_eq_find (hc : c.Odd) {t : BTree α} (ht : t.WF c)
    (hb : t.toList.Pairwise c.Before) (k : ℕ) :
    (if (btSearch c t k).1 = .ok then (btSearch c t k).2 else none)
      = t.toList.find? fun o => c.btObjMatch o k := by
  cases hroot : t.root with
  | null =>
    unfold btSearch BTree.toList
    rw [hroot]
    rfl
  | obj o => exact absurd ht.shaped (by unfold BTree.Shaped; rw [hroot]; simp)
  | page p =>
    have hsh := ht.shaped
    have he := ht.exact
    have hs := ht.sorted
    unfold BTree.Shaped at hsh
    unfold BTree.toList at hs hb ⊢
    rw [hroot] at hsh he hs hb ⊢
    obtain ⟨n, -, hsh, h0, -⟩ := hsh
    obtain ⟨l₁, o, l₂, hlist, hfind, hle, hgt⟩ := btSearchPage_last hc k hsh h0 he hs
    rw [btSearch_page hroot, hfind, hlist]
    rw [hlist, List.pairwise_append] at hb
    have hl₁ : ∀ a ∈ l₁, ¬ c.btObjMatch a k = true := fun a ha hm => by
      have hlim := (hb.2.2 a ha o List.mem_cons_self).2
      have hbase := hle (List.ne_nil_of_mem ha)
      rw [btObjMatch_iff] at hm
      omega
    have hl₂ : ∀ b ∈ l₂, ¬ c.btObjMatch b k = true := fun b hbm hm => by
      have := hgt b hbm
      rw [btObjMatch_iff] at hm
      omega
    rw [List.find?_append, List.find?_eq_none.mpr hl₁, Option.none_or, List.find?_cons]
    by_cases hm : c.btObjMatch o k = true
    · simp [hm]
    · rw [Bool.not_eq_true] at hm
      simp [hm, List.find?_eq_none.mpr hl₂]

end Mungi
