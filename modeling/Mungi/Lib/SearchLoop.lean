import Mungi.Lib.Cat

/-!
# Loops that stop early

Loops of C code that look for something and are left when they find it.  A loop
may change a state on the way, through a pointer it passes on; when it does so
only on leaving, it is a plain search, and a nest of searches is a search of the
entries in order.

## Main definitions

* `findUp f lo n` — the first result of `f lo, …, f (lo + n - 1)`.
* `searchUp f lo n` — the same with a state that the body may change.
* `ended` — how such a loop ends when the state changes on leaving only.
* `upTo g l` — what a search of the list `l` for the property `g` looks at.
* `Notes` — a loop that notes what it looks at, in a list.

## Main results

* `searchUp_rule` — invariants of such loops.
* `searchUp_eq_findUp` — a body that leaves the state alone unless it leaves the loop.
* `findUp_cat` — **a nest of searches is a search of the concatenation.**
* `searchUp_notes` — so it is for loops that note what they look at.
-/

namespace SearchLoop

open Cat

variable {σ β γ : Type*}

/-- What `for (i = lo; i < lo + n; i++)` with body `f` is left with. -/
def findUp (f : ℤ → Option β) (lo : ℤ) : ℕ → Option β
  | 0 => none
  | n + 1 =>
    match f lo with
    | some b => some b
    | none => findUp f (lo + 1) n

/-- The same with a state, and the state then. -/
def searchUp (f : ℤ → σ → σ × Option β) (lo : ℤ) : ℕ → σ → σ × Option β
  | 0, s => (s, none)
  | n + 1, s =>
    match f lo s with
    | (s', some b) => (s', some b)
    | (s', none) => searchUp f (lo + 1) n s'

/-- How a loop ends that leaves the state `s` alone unless it is left: with the state and
the result then, or with `s`. -/
def ended (s : σ) : Option (σ × β) → σ × Option β
  | some (s', b) => (s', some b)
  | none => (s, none)

@[simp] theorem findUp_zero (f : ℤ → Option β) (lo : ℤ) : findUp f lo 0 = none := rfl

theorem findUp_succ (f : ℤ → Option β) (lo : ℤ) (n : ℕ) :
    findUp f lo (n + 1) = (f lo).or (findUp f (lo + 1) n) := by
  rw [findUp]
  cases f lo <;> rfl

theorem findUp_congr {f g : ℤ → Option β} {lo : ℤ} {n : ℕ}
    (h : ∀ i, lo ≤ i → i < lo + n → f i = g i) : findUp f lo n = findUp g lo n := by
  induction n generalizing lo with
  | zero => rfl
  | succ n ih =>
    rw [findUp_succ, findUp_succ, h lo le_rfl (by omega),
      ih fun i h₁ h₂ => h i (by omega) (by omega)]

/-- What is found is found somewhere, and nothing before. -/
theorem findUp_eq_some {f : ℤ → Option β} {lo : ℤ} {n : ℕ} {b : β} :
    findUp f lo n = some b ↔
      ∃ i, lo ≤ i ∧ i < lo + n ∧ f i = some b ∧ ∀ j, lo ≤ j → j < i → f j = none := by
  induction n generalizing lo with
  | zero =>
    refine iff_of_false nofun ?_
    rintro ⟨i, h₁, h₂, -⟩
    omega
  | succ n ih =>
    rw [findUp_succ, Option.or_eq_some_iff, ih]
    constructor
    · rintro (h | ⟨h, i, h₁, h₂, hi, hno⟩)
      · exact ⟨lo, le_rfl, by omega, h, fun j h₁ h₂ => by omega⟩
      · refine ⟨i, by omega, by omega, hi, fun j hj₁ hj₂ => ?_⟩
        by_cases hj : j = lo
        · rwa [hj]
        · exact hno j (by omega) hj₂
    · rintro ⟨i, h₁, h₂, hi, hno⟩
      by_cases hlo : i = lo
      · exact Or.inl (hlo ▸ hi)
      · exact Or.inr ⟨hno lo le_rfl (by omega), i, by omega, by omega, hi,
          fun j hj₁ hj₂ => hno j (by omega) hj₂⟩

theorem findUp_eq_none {f : ℤ → Option β} {lo : ℤ} {n : ℕ} :
    findUp f lo n = none ↔ ∀ i, lo ≤ i → i < lo + n → f i = none := by
  induction n generalizing lo with
  | zero => exact iff_of_true rfl fun i h₁ h₂ => by omega
  | succ n ih =>
    rw [findUp_succ, Option.or_eq_none_iff, ih]
    constructor
    · rintro ⟨h, hno⟩ i h₁ h₂
      by_cases hlo : i = lo
      · rwa [hlo]
      · exact hno i (by omega) (by omega)
    · exact fun h => ⟨h lo le_rfl (by omega), fun i h₁ h₂ => h i (by omega) (by omega)⟩

/-- A body that leaves the state alone unless it leaves the loop. -/
theorem searchUp_eq_findUp {f : ℤ → σ → σ × Option β} {s : σ}
    (h : ∀ i, (f i s).2 = none → (f i s).1 = s) (lo : ℤ) (n : ℕ) :
    searchUp f lo n s = ended s (findUp (fun i => (f i s).2.map fun b => ((f i s).1, b)) lo n) := by
  induction n generalizing lo with
  | zero => rfl
  | succ n ih =>
    rw [searchUp, findUp]
    rcases hf : f lo s with ⟨s', _ | b⟩
    · obtain rfl : s' = s := by
        have := h lo
        rw [hf] at this
        exact this rfl
      exact ih (lo + 1)
    · rfl

/-- **The rule for loops that stop early**: with an invariant that holds as long as the
loop goes on, the loop is left from a state with the invariant, or ends in one. -/
theorem searchUp_rule {I : ℤ → σ → Prop} {f : ℤ → σ → σ × Option β} {lo : ℤ} {n : ℕ} {s : σ}
    (h₀ : I lo s)
    (hstep : ∀ i s, lo ≤ i → i < lo + n → I i s → (f i s).2 = none → I (i + 1) (f i s).1) :
    (∃ i s' b, lo ≤ i ∧ i < lo + n ∧ I i s' ∧ (f i s').2 = some b ∧
      searchUp f lo n s = ((f i s').1, some b)) ∨
    ∃ s', I (lo + n) s' ∧ searchUp f lo n s = (s', none) := by
  induction n generalizing lo s with
  | zero => exact Or.inr ⟨s, by simpa using h₀, rfl⟩
  | succ n ih =>
    rw [searchUp]
    rcases hf : f lo s with ⟨s', _ | b⟩
    · have h₁ : I (lo + 1) s' := by
        have := hstep lo s le_rfl (by omega) h₀
        rw [hf] at this
        exact this rfl
      rcases ih h₁ fun i s hi₁ hi₂ => hstep i s (by omega) (by omega) with
        ⟨i, s'', b, hi₁, hi₂, hI, hb, heq⟩ | ⟨s'', hI, heq⟩
      · exact Or.inl ⟨i, s'', b, by omega, by omega, hI, hb, heq⟩
      · refine Or.inr ⟨s'', ?_, heq⟩
        rwa [show lo + ((n + 1 : ℕ) : ℤ) = lo + 1 + n by omega]
    · exact Or.inl ⟨lo, s, b, le_rfl, by omega, h₀, by rw [hf], by rw [hf]⟩

/-- **A nest of searches is a search of the concatenation.** -/
theorem findUp_cat (g : γ → Option β) (l : ℤ → List γ) (lo : ℤ) (n : ℕ) :
    findUp (fun i => (l i).findSome? g) lo n = (cat l lo n).findSome? g := by
  induction n generalizing lo with
  | zero => rfl
  | succ n ih =>
    have hcat : cat l lo (n + 1) = l lo ++ cat l (lo + 1) n := by
      rw [Nat.add_comm, cat_add, cat_one]
      rfl
    rw [findUp_succ, ih, hcat, List.findSome?_append]

/-! ### What a search looks at -/

/-- The elements of `l` up to the first one with the property `g`, with that one. -/
def upTo (g : γ → Bool) : List γ → List γ
  | [] => []
  | x :: l => if g x then [x] else x :: upTo g l

theorem upTo_append_of_none {g : γ → Bool} {l₁ : List γ} (h : ∀ x ∈ l₁, g x = false)
    (l₂ : List γ) : upTo g (l₁ ++ l₂) = l₁ ++ upTo g l₂ := by
  induction l₁ with
  | nil => rfl
  | cons x l ih =>
    rw [List.cons_append, upTo, h x List.mem_cons_self, if_neg Bool.false_ne_true,
      ih fun y hy => h y (List.mem_cons_of_mem x hy), List.cons_append]

theorem upTo_append_of_some {g : γ → Bool} {l₁ : List γ} (h : ¬ ∀ x ∈ l₁, g x = false)
    (l₂ : List γ) : upTo g (l₁ ++ l₂) = upTo g l₁ := by
  induction l₁ with
  | nil => simp at h
  | cons x l ih =>
    rw [List.cons_append, upTo, upTo]
    cases hx : g x with
    | true => rfl
    | false =>
      rw [if_neg Bool.false_ne_true, if_neg Bool.false_ne_true, ih]
      exact fun hl => h (List.forall_mem_cons.mpr ⟨hx, hl⟩)

theorem upTo_of_none {g : γ → Bool} {l : List γ} (h : ∀ x ∈ l, g x = false) : upTo g l = l := by
  have := upTo_append_of_none h []
  rwa [List.append_nil, upTo, List.append_nil] at this

/-- All that a search of a concatenation looks at has a property, if so has all it looks at in
the entries it gets to. -/
theorem forall_upTo_cat {g : γ → Bool} {c : ℤ → List γ} {lo : ℤ} {n : ℕ} {P : γ → Prop} :
    (∀ x ∈ upTo g (cat c lo n), P x) ↔
      ∀ i, lo ≤ i → i < lo + n → (∀ j, lo ≤ j → j < i → ∀ x ∈ c j, g x = false) →
        ∀ x ∈ upTo g (c i), P x := by
  induction n with
  | zero =>
    refine iff_of_true nofun fun i h₁ h₂ => ?_
    omega
  | succ n ih =>
    rw [cat_succ]
    by_cases hnone : ∀ x ∈ cat c lo n, g x = false
    · rw [upTo_append_of_none hnone, List.forall_mem_append]
      rw [upTo_of_none hnone] at ih
      have hlast : ∀ j, lo ≤ j → j < lo + n → ∀ x ∈ c j, g x = false :=
        fun j h₁ h₂ x hx => hnone x (mem_cat_of_mem h₁ h₂ hx)
      rw [ih]
      constructor
      · rintro ⟨hbefore, hthis⟩ i h₁ h₂ hno
        by_cases hi : i = lo + n
        · rwa [hi]
        · exact hbefore i h₁ (by omega) hno
      · intro h
        exact ⟨fun i h₁ h₂ => h i h₁ (by omega), h (lo + n) (by omega) (by omega) hlast⟩
    · rw [upTo_append_of_some hnone, ih]
      constructor
      · intro h i h₁ h₂ hno
        by_cases hi : i = lo + n
        · refine absurd (fun x hx => ?_) hnone
          obtain ⟨j, hj₁, hj₂, hxj⟩ := exists_of_mem_cat hx
          exact hno j hj₁ (by omega) x hxj
        · exact h i h₁ (by omega) hno
      · exact fun h i h₁ h₂ => h i h₁ (by omega)

/-- A loop that starts in state `s` with the notes `l`, and notes what a search of `c` for the
property `g` looks at; it is left just when there is something with the property, and leaves
the state alone otherwise. -/
structure Notes (g : γ → Bool) (c : List γ) (s : σ) (l : List γ)
    (res : (σ × List γ) × Option β) : Prop where
  notes : res.1.2 = l ++ upTo g c
  none_iff : res.2 = none ↔ ∀ x ∈ c, g x = false
  state : res.2 = none → res.1.1 = s

theorem notes_nil (g : γ → Bool) (s : σ) (l : List γ) :
    Notes g [] s l ((s, l), (none : Option β)) :=
  ⟨(List.append_nil l).symm, iff_of_true rfl nofun, fun _ => rfl⟩

/-- **A nest of loops that note what they look at** notes what a search of the concatenation
looks at. -/
theorem searchUp_notes {g : γ → Bool} {c : ℤ → List γ} {s : σ}
    {f : ℤ → σ × List γ → (σ × List γ) × Option β} (h : ∀ i l, Notes g (c i) s l (f i (s, l)))
    (lo : ℤ) (n : ℕ) (l : List γ) : Notes g (cat c lo n) s l (searchUp f lo n (s, l)) := by
  induction n generalizing lo l with
  | zero => exact notes_nil g s l
  | succ n ih =>
    have hcat : cat c lo (n + 1) = c lo ++ cat c (lo + 1) n := by
      rw [Nat.add_comm, cat_add, cat_one]
      rfl
    have hlo := h lo l
    rw [searchUp, hcat]
    rcases hf : f lo (s, l) with ⟨⟨s', l'⟩, _ | b⟩
    · rw [hf] at hlo
      have hnone := hlo.none_iff.mp rfl
      obtain rfl : s' = s := hlo.state rfl
      obtain rfl : l' = l ++ c lo := hlo.notes.trans (by rw [upTo_of_none hnone])
      have hrest := ih (lo + 1) (l ++ c lo)
      refine ⟨?_, ?_, hrest.state⟩
      · rw [hrest.notes, upTo_append_of_none hnone, List.append_assoc]
      · rw [hrest.none_iff, List.forall_mem_append]
        exact ⟨fun hr => ⟨hnone, hr⟩, fun hr => hr.2⟩
    · rw [hf] at hlo
      have hsome : ¬ ∀ x ∈ c lo, g x = false := fun hno => nomatch hlo.none_iff.mpr hno
      refine ⟨?_, iff_of_false nofun fun hall => hsome ?_, nofun⟩
      · rw [hlo.notes, upTo_append_of_some hsome]
      · exact fun x hx => hall x (List.mem_append_left _ hx)

/-- Notes do not change a loop. -/
theorem searchUp_noting {f : ℤ → σ → σ × Option β}
    {f' : ℤ → σ × List γ → (σ × List γ) × Option β}
    (h : ∀ i s l, ((f' i (s, l)).1.1, (f' i (s, l)).2) = f i s) (lo : ℤ) (n : ℕ) (s : σ)
    (l : List γ) :
    ((searchUp f' lo n (s, l)).1.1, (searchUp f' lo n (s, l)).2) = searchUp f lo n s := by
  induction n generalizing lo s l with
  | zero => rfl
  | succ n ih =>
    have hlo := h lo s l
    rw [searchUp, searchUp]
    rcases hf : f' lo (s, l) with ⟨⟨s', l'⟩, _ | b⟩ <;> rw [hf] at hlo <;> rw [← hlo]
    exact ih (lo + 1) s' l'

end SearchLoop
