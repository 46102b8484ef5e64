import Mathlib.Data.List.Induction
import Mathlib.Data.List.TakeWhile
import Mathlib.Logic.Function.Basic
import Mathlib.Tactic.Common

/-!
# Heaps and linked lists

Records of one type behind pointers, which are numbers with 0 for `NULL`, and the
lists that lead from one record to the next.  A block that is freed keeps what is in it
until it is handed out again.

## Main definitions

* `Heap` — the records, and which of them are allocated.
* `seek`, `walk`, `chase` — loops that follow a list, with fuel.
* `IsChain next x l` — from `x` the list is `l`, and it ends.
* `Leads next x l y` — from `x` the list starts with `l`, and `y` comes next.
* `Reaches next x y` — from `x` the links lead to `y`.

## Main results

* `IsChain.nodup` — a list that ends does not come back.
* `IsChain.congr` — it depends on its own links only.
* `exists_isChain_of_rank` — links that lead from higher to lower records end.
* `walk_isChain`, `IsChain.walk_eq`, `IsChain.seek`, `IsChain.seek_eq`, `Leads.chase` — what the
  loops find.
* `isChain_append` — a list cut in two.
-/

/-- Records behind pointers. -/
structure Heap (α : Type*) where
  cell : ℕ → α
  live : ℕ → Bool

namespace Heap

variable {α : Type*}

/-- The record at `p` changed by `f`. -/
def modify (h : Heap α) (p : ℕ) (f : α → α) : Heap α :=
  { h with cell := Function.update h.cell p (f (h.cell p)) }

/-- The block at `p` is handed out, with `a` in it; a block in use is not. -/
def alloc (h : Heap α) (p : ℕ) (a : α) : Option (Heap α) :=
  if h.live p then none
  else some { cell := Function.update h.cell p a, live := Function.update h.live p true }

/-- The block at `p` is given back. -/
def free (h : Heap α) (p : ℕ) : Heap α := { h with live := Function.update h.live p false }

variable {h h' : Heap α} {p q : ℕ} {f : α → α} {a : α}

@[simp] theorem live_modify : (h.modify p f).live = h.live := rfl

@[simp] theorem cell_modify_self : (h.modify p f).cell p = f (h.cell p) := Function.update_self ..

theorem cell_modify_of_ne (hq : q ≠ p) : (h.modify p f).cell q = h.cell q :=
  Function.update_of_ne hq ..

theorem cell_modify (h : Heap α) (p : ℕ) (f : α → α) (q : ℕ) :
    (h.modify p f).cell q = if q = p then f (h.cell p) else h.cell q :=
  Function.update_apply ..

/-- What a change leaves alone, it leaves alone everywhere. -/
theorem modify_field {β : Sort*} {g : α → β} (hf : ∀ a, g (f a) = g a) (q : ℕ) :
    g ((h.modify p f).cell q) = g (h.cell q) := by
  rw [cell_modify]
  split_ifs with hq
  · rw [hf, hq]
  · rfl

/-- A field of all records, after a change of one. -/
theorem map_modify {β : Type*} (g : α → β) (h : Heap α) (p : ℕ) (f : α → α) :
    (fun q => g ((h.modify p f).cell q))
      = Function.update (fun q => g (h.cell q)) p (g (f (h.cell p))) := by
  funext q
  rw [cell_modify, Function.update_apply]
  split_ifs <;> rfl

@[simp] theorem cell_free : (h.free p).cell = h.cell := rfl

theorem live_free (h : Heap α) (p q : ℕ) :
    (h.free p).live q = if q = p then false else h.live q :=
  Function.update_apply ..

@[simp] theorem live_free_self : (h.free p).live p = false := Function.update_self ..

theorem live_free_of_ne (hq : q ≠ p) : (h.free p).live q = h.live q := Function.update_of_ne hq ..

@[simp] theorem cell_foldl_free (l : List ℕ) : (l.foldl free h).cell = h.cell := by
  induction l generalizing h with
  | nil => rfl
  | cons p l ih => exact ih

/-- Only what is freed is not in use any more. -/
theorem live_foldl_free {l : List ℕ} (hq : q ∉ l) : (l.foldl free h).live q = h.live q := by
  induction l generalizing h with
  | nil => rfl
  | cons p l ih =>
    obtain ⟨hp, hl⟩ := not_or.mp (mt List.mem_cons.mpr hq)
    exact (ih hl).trans (live_free_of_ne hp)

theorem alloc_eq_some : h.alloc p a = some h' ↔
    h.live p = false ∧
      h' = { cell := Function.update h.cell p a, live := Function.update h.live p true } := by
  unfold alloc
  by_cases hp : h.live p = true
  · rw [if_pos hp]
    exact iff_of_false nofun fun hn => by simp [hp] at hn
  · rw [if_neg hp, Option.some_inj, eq_comm]
    exact ⟨fun heq => ⟨by simpa using hp, heq⟩, fun heq => heq.2⟩

theorem cell_alloc_self (hp : h.alloc p a = some h') : h'.cell p = a := by
  rw [(alloc_eq_some.mp hp).2]
  exact Function.update_self ..

theorem cell_alloc_of_ne (hp : h.alloc p a = some h') (hq : q ≠ p) : h'.cell q = h.cell q := by
  rw [(alloc_eq_some.mp hp).2]
  exact Function.update_of_ne hq ..

theorem live_alloc (hp : h.alloc p a = some h') (q : ℕ) :
    h'.live q = if q = p then true else h.live q := by
  rw [(alloc_eq_some.mp hp).2]
  exact Function.update_apply ..

theorem live_alloc_self (hp : h.alloc p a = some h') : h'.live p = true := by
  rw [live_alloc hp, if_pos rfl]

/-- What was in use is not the new block, and stays in use as it was. -/
theorem alloc_live (hp : h.alloc p a = some h') (hq : h.live q = true) :
    q ≠ p ∧ h'.live q = true ∧ h'.cell q = h.cell q := by
  have hne : q ≠ p := by
    rintro rfl
    rw [(alloc_eq_some.mp hp).1] at hq
    cases hq
  exact ⟨hne, by rw [live_alloc hp, if_neg hne, hq], cell_alloc_of_ne hp hne⟩

end Heap

namespace Chain

/-- `for (x = x₀; x != NULL; x = x->next) if (p(x)) break;`, 0 for `NULL`. -/
def seek (next : ℕ → ℕ) (p : ℕ → Bool) : ℕ → ℕ → Option ℕ
  | 0, _ => none
  | n + 1, x => if x = 0 then some 0 else if p x then some x else seek next p n (next x)

/-- The pointers that `for (x = x₀; x != NULL; x = x->next)` goes through. -/
def walk (next : ℕ → ℕ) : ℕ → ℕ → Option (List ℕ)
  | 0, _ => none
  | n + 1, x => if x = 0 then some [] else (walk next n (next x)).map fun l => x :: l

/-- `while (tmp != NULL && !p(tmp)) { prev = ptr; ptr = tmp; tmp = tmp->next; }`, the three
pointers at the end. -/
def chase (next : ℕ → ℕ) (p : ℕ → Bool) : ℕ → ℕ → ℕ → ℕ → Option (ℕ × ℕ × ℕ)
  | 0, _, _, _ => none
  | n + 1, prev, ptr, tmp =>
    if tmp = 0 then some (prev, ptr, 0)
    else if p tmp then some (prev, ptr, tmp)
    else chase next p n ptr tmp (next tmp)

/-- From `x` the records `l` lead to `y`. -/
def Leads (next : ℕ → ℕ) : ℕ → List ℕ → ℕ → Prop
  | x, [], y => x = y
  | x, z :: l, y => x = z ∧ z ≠ 0 ∧ Leads next (next z) l y

/-- From `x` on the list is `l`. -/
def IsChain (next : ℕ → ℕ) : ℕ → List ℕ → Prop
  | x, [] => x = 0
  | x, y :: l => x = y ∧ y ≠ 0 ∧ IsChain next (next y) l

/-- The links lead from `x` to `y`. -/
inductive Reaches (next : ℕ → ℕ) : ℕ → ℕ → Prop where
  | here {x : ℕ} (hx : x ≠ 0) : Reaches next x x
  | next {x y : ℕ} (hx : x ≠ 0) (h : Reaches next (next x) y) : Reaches next x y

variable {next next' : ℕ → ℕ} {p : ℕ → Bool} {x y n : ℕ} {l l' : List ℕ}

@[simp] theorem isChain_nil : IsChain next x [] ↔ x = 0 := Iff.rfl

@[simp] theorem isChain_cons : IsChain next x (y :: l) ↔ x = y ∧ y ≠ 0 ∧ IsChain next (next y) l :=
  Iff.rfl

theorem walk_isChain (h : walk next n x = some l) : IsChain next x l := by
  induction n generalizing x l with
  | zero => cases h
  | succ n ih =>
    rw [walk] at h
    split_ifs at h with hx
    · obtain rfl := Option.some.inj h
      exact hx
    · obtain ⟨l', hl', rfl⟩ := Option.map_eq_some_iff.mp h
      exact ⟨rfl, hx, ih hl'⟩

/-- **A list that ends is walked to its end.** -/
theorem IsChain.walk_eq (h : IsChain next x l) (hn : l.length < n) : walk next n x = some l := by
  induction l generalizing x n with
  | nil =>
    obtain ⟨n, rfl⟩ := Nat.exists_eq_succ_of_ne_zero (Nat.ne_of_gt hn)
    rw [isChain_nil] at h
    rw [walk, if_pos h]
  | cons z l ih =>
    obtain ⟨n, rfl⟩ := Nat.exists_eq_succ_of_ne_zero (Nat.ne_of_gt (Nat.lt_of_le_of_lt
      (Nat.zero_le _) hn))
    obtain ⟨rfl, hz, hl⟩ := h
    rw [walk, if_neg hz, ih hl (Nat.lt_of_succ_lt_succ hn), Option.map_some]

theorem IsChain.ne_zero (h : IsChain next x l) (hy : y ∈ l) : y ≠ 0 := by
  induction l generalizing x with
  | nil => cases hy
  | cons z l ih =>
    obtain ⟨-, hz, hl⟩ := h
    rcases List.mem_cons.mp hy with rfl | hy
    · exact hz
    · exact ih hl hy

/-- What the links lead to is on the list. -/
theorem IsChain.mem_of_reaches (hl : IsChain next x l) (h : Reaches next x y) : y ∈ l := by
  induction h generalizing l with
  | here hx =>
    cases l with
    | nil => exact absurd hl hx
    | cons z l => exact hl.1 ▸ List.mem_cons_self
  | next hx _ ih =>
    cases l with
    | nil => exact absurd hl hx
    | cons z l =>
      obtain ⟨rfl, -, hl⟩ := hl
      exact List.mem_cons_of_mem _ (ih hl)

/-- The links lead to all of the list. -/
theorem IsChain.reaches (hl : IsChain next x l) (hy : y ∈ l) : Reaches next x y := by
  induction l generalizing x with
  | nil => cases hy
  | cons z l ih =>
    obtain ⟨rfl, hx, hl⟩ := hl
    rcases List.mem_cons.mp hy with rfl | hy
    · exact .here hx
    · exact .next hx (ih hl hy)

/-- A list depends on its own links only. -/
theorem IsChain.congr (h : IsChain next x l) (hnext : ∀ y ∈ l, next' y = next y) :
    IsChain next' x l := by
  induction l generalizing x with
  | nil => exact h
  | cons z l ih =>
    obtain ⟨rfl, hz, hl⟩ := h
    refine ⟨rfl, hz, ?_⟩
    rw [hnext x List.mem_cons_self]
    exact ih hl fun y hy => hnext y (List.mem_cons_of_mem _ hy)

theorem IsChain.unique (h : IsChain next x l) (h' : IsChain next x l') : l = l' := by
  induction l generalizing x l' with
  | nil =>
    cases l' with
    | nil => rfl
    | cons z l' => exact absurd (h'.1.symm.trans h) h'.2.1
  | cons z l ih =>
    cases l' with
    | nil => exact absurd (h.1.symm.trans h') h.2.1
    | cons z' l' =>
      obtain ⟨rfl, -, hl⟩ := h
      obtain ⟨rfl, -, hl'⟩ := h'
      rw [ih hl hl']

/-- A list starts in one place. -/
theorem IsChain.start_unique (h : IsChain next x l) (h' : IsChain next y l) : x = y := by
  cases l with
  | nil => exact Eq.trans h (Eq.symm h')
  | cons z l => exact h.1.trans h'.1.symm

theorem Reaches.ne_zero (h : Reaches next x y) : y ≠ 0 := by
  induction h with
  | here hx => exact hx
  | next _ _ ih => exact ih

/-- One link more. -/
theorem Reaches.step (h : Reaches next x y) (hy : next y ≠ 0) : Reaches next x (next y) := by
  induction h with
  | here hx => exact .next hx (.here hy)
  | next hx _ ih => exact .next hx (ih hy)

theorem Reaches.trans {z : ℕ} (h : Reaches next x y) (h' : Reaches next y z) :
    Reaches next x z := by
  induction h with
  | here => exact h'
  | next hx _ ih => exact .next hx (ih h')

/-- Induction on the way, adding one link at the end. -/
theorem Reaches.induction {C : ℕ → Prop} (h : Reaches next x y) (h₀ : C x)
    (hstep : ∀ z, Reaches next x z → C z → next z ≠ 0 → C (next z)) : C y := by
  induction h with
  | here => exact h₀
  | @next x y hx h ih =>
    have hne : next x ≠ 0 := by
      cases h with
      | here h0 => exact h0
      | next h0 _ => exact h0
    refine ih (hstep x (.here hx) h₀ hne) fun z hz hC hz0 => hstep z ?_ hC hz0
    exact .next hx hz

/-- Where links are only cut, they lead nowhere else. -/
theorem Reaches.of_cut (h : Reaches next' x y)
    (hcut : ∀ z, Reaches next x z → next' z = next z ∨ next' z = 0) : Reaches next x y := by
  induction h with
  | here hx => exact .here hx
  | @next x y hx h ih =>
    rcases hcut x (.here hx) with hsame | hzero
    · rw [hsame] at ih
      exact .next hx (ih fun z hz => hcut z (.next hx hz))
    · rw [hzero] at h
      cases h with
      | here h0 => exact absurd rfl h0
      | next h0 _ => exact absurd rfl h0

/-- **Links that lead from higher to lower records end.** -/
theorem exists_isChain_of_rank (rank : ℕ → ℕ)
    (h : ∀ y, Reaches next x y → next y = 0 ∨ rank (next y) < rank y) :
    ∃ l, IsChain next x l := by
  induction hn : rank x using Nat.strongRecOn generalizing x with
  | _ n ih =>
    by_cases hx : x = 0
    · exact ⟨[], hx⟩
    · rcases h x (.here hx) with hzero | hlt
      · exact ⟨[x], rfl, hx, hzero⟩
      · obtain ⟨l, hl⟩ := ih (rank (next x)) (hn ▸ hlt) (fun y hy => h y (.next hx hy)) rfl
        exact ⟨x :: l, rfl, hx, hl⟩

/-- What is left of a list from a member on. -/
theorem IsChain.suffix (h : IsChain next x l) (hy : y ∈ l) :
    ∃ l₁ l₂, l = l₁ ++ y :: l₂ ∧ IsChain next y (y :: l₂) := by
  induction l generalizing x with
  | nil => cases hy
  | cons z l ih =>
    obtain ⟨rfl, hz, hl⟩ := h
    rcases List.mem_cons.mp hy with rfl | hy
    · exact ⟨[], l, rfl, rfl, hz, hl⟩
    · obtain ⟨l₁, l₂, rfl, hl₂⟩ := ih hl hy
      exact ⟨x :: l₁, l₂, rfl, hl₂⟩

/-- **A list that ends does not come back** to a member. -/
theorem IsChain.nodup (h : IsChain next x l) : l.Nodup := by
  induction l generalizing x with
  | nil => exact List.nodup_nil
  | cons z l ih =>
    refine List.nodup_cons.mpr ⟨fun hz => ?_, ih h.2.2⟩
    -- from a second occurrence of `z` the rest would be as long as from the first
    obtain ⟨l₁, l₂, hl, hz₂⟩ := h.2.2.suffix hz
    have hz₁ : IsChain next z (z :: l) := ⟨rfl, h.2⟩
    have hlen := congrArg List.length (List.cons.inj (hz₁.unique hz₂)).2
    rw [hl] at hlen
    simp only [List.length_append, List.length_cons] at hlen
    omega

/-- No record of a list that ends leads to itself. -/
theorem IsChain.next_ne (h : IsChain next x l) (hy : y ∈ l) : next y ≠ y := by
  intro heq
  obtain ⟨l₁, l₂, rfl, -, hne, hchain⟩ := h.suffix hy
  cases l₂ with
  | nil => exact hne (heq.symm.trans hchain)
  | cons z l₂ =>
    obtain ⟨hz, -⟩ := hchain
    have hnodup := (List.nodup_append.mp h.nodup).2.1
    rw [← hz, heq] at hnodup
    exact (List.nodup_cons.mp hnodup).1 List.mem_cons_self

/-- What a search finds satisfies the test. -/
theorem seek_test (h : seek next p n x = some y) (hy : y ≠ 0) : p y = true := by
  induction n generalizing x with
  | zero => cases h
  | succ n ih =>
    rw [seek] at h
    split_ifs at h with hx hp
    · exact absurd (Option.some.inj h).symm hy
    · rwa [← Option.some.inj h]
    · exact ih h

/-- What a search finds is where the links lead. -/
theorem reaches_of_seek (h : seek next p n x = some y) (hy : y ≠ 0) : Reaches next x y := by
  induction n generalizing x with
  | zero => cases h
  | succ n ih =>
    rw [seek] at h
    split_ifs at h with hx hp
    · exact absurd (Option.some.inj h).symm hy
    · obtain rfl := Option.some.inj h
      exact .here hx
    · exact .next hx (ih h)

/-- A search that finds nothing has looked at all the records. -/
theorem not_reaches_of_seek (h : seek next p n x = some 0) (hy : p y = true) :
    ¬ Reaches next x y := by
  intro hreach
  induction n generalizing x with
  | zero => cases h
  | succ n ih =>
    rw [seek] at h
    split_ifs at h with hx hp
    · cases hreach with
      | here h0 => exact h0 hx
      | next h0 _ => exact h0 hx
    · exact hx (Option.some.inj h)
    · cases hreach with
      | here => exact hp hy
      | next _ hnext => exact ih h hnext

/-- What a search of a list finds is in it. -/
theorem IsChain.seek (hl : IsChain next x l) (h : seek next p n x = some y) (hy : y ≠ 0) :
    y ∈ l := by
  induction n generalizing x l with
  | zero => cases h
  | succ n ih =>
    rw [Chain.seek] at h
    split_ifs at h with hx hp
    · exact absurd (Option.some.inj h).symm hy
    · obtain rfl := Option.some.inj h
      cases l with
      | nil => exact absurd hl hx
      | cons z l => exact hl.1 ▸ List.mem_cons_self
    · cases l with
      | nil => exact absurd hl hx
      | cons z l =>
        obtain ⟨rfl, -, hl⟩ := hl
        exact List.mem_cons_of_mem _ (ih hl h)

/-- **A search of a list ends**, and finds its first record that satisfies the test. -/
theorem IsChain.seek_eq (h : IsChain next x l) (p : ℕ → Bool) (hn : l.length < n) :
    Chain.seek next p n x = some ((l.find? p).getD 0) := by
  induction l generalizing x n with
  | nil =>
    obtain ⟨n, rfl⟩ := Nat.exists_eq_succ_of_ne_zero (Nat.ne_of_gt hn)
    rw [isChain_nil] at h
    simp [Chain.seek, h]
  | cons z l ih =>
    obtain ⟨n, rfl⟩ := Nat.exists_eq_succ_of_ne_zero (Nat.ne_of_gt (Nat.lt_of_le_of_lt
      (Nat.zero_le _) hn))
    obtain ⟨rfl, hz, hl⟩ := h
    rw [Chain.seek, if_neg hz]
    by_cases hp : p x = true
    · simp [hp]
    · rw [if_neg hp, ih hl (Nat.lt_of_succ_lt_succ hn)]
      simp [hp]

/-- The search for the last record of a list. -/
theorem IsChain.seek_last (h : IsChain next x l) (hn : l.length < n) :
    Chain.seek next (fun y => next y = 0) n x = some (l.getLast?.getD 0) := by
  induction l generalizing x n with
  | nil =>
    obtain ⟨n, rfl⟩ := Nat.exists_eq_succ_of_ne_zero (Nat.ne_of_gt hn)
    rw [isChain_nil] at h
    simp [Chain.seek, h]
  | cons z l ih =>
    obtain ⟨n, rfl⟩ := Nat.exists_eq_succ_of_ne_zero (Nat.ne_of_gt (Nat.lt_of_le_of_lt
      (Nat.zero_le _) hn))
    obtain ⟨rfl, hz, hl⟩ := h
    rw [Chain.seek, if_neg hz]
    cases l with
    | nil =>
      rw [isChain_nil] at hl
      simp [hl]
    | cons y l =>
      have hy : next x ≠ 0 := by
        rw [hl.1]
        exact hl.2.1
      rw [if_neg (by simpa using hy), ih hl (Nat.lt_of_succ_lt_succ hn)]
      simp [List.getLast?_cons]

/-- A record put at the end of a list. -/
theorem IsChain.concat (h : IsChain next x l) (hlast : l.getLast? = some y)
    (hsame : ∀ z ∈ l, z ≠ y → next' z = next z) {new : ℕ} (hy : next' y = new) (hnew : new ≠ 0)
    (hend : next' new = 0) : IsChain next' x (l ++ [new]) := by
  have hnodup := h.nodup
  induction l generalizing x with
  | nil => cases hlast
  | cons z l ih =>
    obtain ⟨rfl, hz, hl⟩ := h
    obtain ⟨hx, hnodup⟩ := List.nodup_cons.mp hnodup
    cases l with
    | nil =>
      obtain rfl : x = y := by simpa using hlast
      exact ⟨rfl, hz, by rw [hy], hnew, hend⟩
    | cons y' l =>
      rw [List.getLast?_cons_cons] at hlast
      have hne : x ≠ y := by
        rintro rfl
        exact hx (List.mem_of_getLast? hlast)
      refine ⟨rfl, hz, ?_⟩
      rw [hsame x List.mem_cons_self hne]
      exact ih hl hlast (fun z hz => hsame z (List.mem_cons_of_mem x hz)) hnodup

/-! ### A list cut in two -/

/-- The last two of a list that goes on with `l`. -/
def lastTwo (prev ptr : ℕ) : List ℕ → ℕ × ℕ
  | [] => (prev, ptr)
  | y :: l => lastTwo ptr y l

@[simp] theorem lastTwo_nil (prev ptr : ℕ) : lastTwo prev ptr [] = (prev, ptr) := rfl

@[simp] theorem lastTwo_singleton (prev ptr z : ℕ) : lastTwo prev ptr [z] = (ptr, z) := rfl

theorem lastTwo_concat (prev ptr : ℕ) (l : List ℕ) (z : ℕ) :
    lastTwo prev ptr (l ++ [z]) = ((lastTwo prev ptr l).2, z) := by
  induction l generalizing prev ptr with
  | nil => rfl
  | cons y l ih => exact ih ptr y

/-- The last one, where there is one. -/
theorem lastTwo_snd (prev : ℕ) (l : List ℕ) : (lastTwo prev 0 l).2 = l.getLast?.getD 0 := by
  induction l using List.reverseRecOn with
  | nil => rfl
  | append_singleton l z =>
    rw [lastTwo_concat]
    simp

/-- **A list cut in two.** -/
theorem isChain_append : IsChain next x (l ++ l') ↔ ∃ y, Leads next x l y ∧ IsChain next y l' := by
  induction l generalizing x with
  | nil => exact ⟨fun h => ⟨x, rfl, h⟩, fun ⟨_, h, h'⟩ => h ▸ h'⟩
  | cons z l ih =>
    rw [List.cons_append, isChain_cons, ih]
    constructor
    · rintro ⟨hx, hz, y, hl, hl'⟩
      exact ⟨y, ⟨hx, hz, hl⟩, hl'⟩
    · rintro ⟨y, ⟨hx, hz, hl⟩, hl'⟩
      exact ⟨hx, hz, y, hl, hl'⟩

/-- The record at the end leads on. -/
theorem leads_concat {z : ℕ} :
    Leads next x (l ++ [z]) y ↔ Leads next x l z ∧ z ≠ 0 ∧ next z = y := by
  induction l generalizing x with
  | nil =>
    constructor
    · rintro ⟨rfl, hx, rfl⟩
      exact ⟨rfl, hx, rfl⟩
    · rintro ⟨rfl, hx, rfl⟩
      exact ⟨rfl, hx, rfl⟩
  | cons w l ih =>
    rw [List.cons_append]
    constructor
    · rintro ⟨hx, hw, h⟩
      obtain ⟨hl, hz, hy⟩ := ih.mp h
      exact ⟨⟨hx, hw, hl⟩, hz, hy⟩
    · rintro ⟨⟨hx, hw, hl⟩, hz, hy⟩
      exact ⟨hx, hw, ih.mpr ⟨hl, hz, hy⟩⟩

theorem Leads.congr (h : Leads next x l y) (hnext : ∀ z ∈ l, next' z = next z) :
    Leads next' x l y := by
  induction l generalizing x with
  | nil => exact h
  | cons w l ih =>
    obtain ⟨rfl, hw, hl⟩ := h
    refine ⟨rfl, hw, ?_⟩
    rw [hnext x List.mem_cons_self]
    exact ih hl fun z hz => hnext z (List.mem_cons_of_mem _ hz)

/-- **What comes after a part of a list is changed**, by the link of its last record, or by where the
list starts. -/
theorem IsChain.relink {l'' : List ℕ} (h : IsChain next x (l ++ l'))
    (hsame : ∀ z ∈ l, l.getLast? ≠ some z → next' z = next z)
    (hlast : ∀ z, l.getLast? = some z → next' z = y) (hy : IsChain next' y l'') :
    IsChain next' (if l = [] then y else x) (l ++ l'') := by
  have hnodup := h.nodup
  obtain ⟨w, hlead, -⟩ := isChain_append.mp h
  induction l using List.reverseRecOn with
  | nil =>
    rw [if_pos rfl]
    exact hy
  | append_singleton l₀ z =>
    rw [if_neg (by simp)]
    obtain ⟨hlead₀, hz, -⟩ := leads_concat.mp hlead
    refine isChain_append.mpr ⟨y, leads_concat.mpr ⟨?_, hz, hlast z (by simp)⟩, hy⟩
    refine hlead₀.congr fun v hv => hsame v (by simp [hv]) ?_
    rintro heq
    obtain rfl : z = v := by simpa using heq
    rw [List.nodup_append] at hnodup
    have honce := (List.nodup_append.mp hnodup.1).2.2 z hv z (by simp)
    exact honce rfl

/-- The links lead to what comes next. -/
theorem Leads.reaches (h : Leads next x l y) (hy : y ≠ 0) : Reaches next x y := by
  induction l generalizing x with
  | nil =>
    obtain rfl : x = y := h
    exact .here hy
  | cons w l ih =>
    obtain ⟨rfl, hw, hl⟩ := h
    exact .next hw (ih hl)

/-- A list is closed under its links. -/
theorem IsChain.next_mem (h : IsChain next x l) (hy : y ∈ l) : next y = 0 ∨ next y ∈ l := by
  by_cases h0 : next y = 0
  · exact Or.inl h0
  · exact Or.inr (h.mem_of_reaches ((h.reaches hy).step h0))

/-- **The loop with three pointers** stops at the first record that satisfies the test. -/
theorem Leads.chase (h : Leads next x l y) (hp : ∀ z ∈ l, p z = false)
    (hy : y ≠ 0 → p y = true) (hn : l.length < n) (prev ptr : ℕ) :
    Chain.chase next p n prev ptr x
      = some ((lastTwo prev ptr l).1, (lastTwo prev ptr l).2, y) := by
  induction l generalizing x n prev ptr with
  | nil =>
    obtain ⟨n, rfl⟩ := Nat.exists_eq_succ_of_ne_zero (Nat.ne_of_gt hn)
    obtain rfl : x = y := h
    rw [Chain.chase]
    by_cases h0 : x = 0
    · rw [if_pos h0, h0]
      rfl
    · rw [if_neg h0, if_pos (hy h0)]
      rfl
  | cons w l ih =>
    obtain ⟨n, rfl⟩ := Nat.exists_eq_succ_of_ne_zero (Nat.ne_of_gt (Nat.lt_of_le_of_lt
      (Nat.zero_le _) hn))
    obtain ⟨rfl, hw, hl⟩ := h
    have hx := hp x List.mem_cons_self
    rw [Chain.chase, if_neg hw, hx, if_neg Bool.false_ne_true]
    exact ih hl (fun z hz => hp z (List.mem_cons_of_mem _ hz)) (Nat.lt_of_succ_lt_succ hn) ptr x

/-- What the loop with three pointers finds in a list. -/
theorem IsChain.chase (h : IsChain next x l) (p : ℕ → Bool) (hn : l.length < n) (prev ptr : ℕ) :
    ∃ l₁ l₂ y, l = l₁ ++ l₂ ∧ (∀ z ∈ l₁, p z = false) ∧ (∀ z ∈ l₂.head?, p z = true) ∧
      IsChain next y l₂ ∧ Chain.chase next p n prev ptr x
        = some ((lastTwo prev ptr l₁).1, (lastTwo prev ptr l₁).2, y) := by
  have hl : l = l.takeWhile (fun z => !p z) ++ l.dropWhile fun z => !p z :=
    List.takeWhile_append_dropWhile.symm
  have hfront : ∀ z ∈ l.takeWhile (fun z => !p z), p z = false := fun z hz => by
    simpa using List.mem_takeWhile_imp hz
  have hback : ∀ z ∈ (l.dropWhile fun z => !p z).head?, p z = true := fun z hz => by
    have hnot := List.head?_dropWhile_not (fun z => !p z) l
    rw [Option.mem_def.mp hz] at hnot
    simpa using hnot
  generalize l.takeWhile (fun z => !p z) = l₁, l.dropWhile (fun z => !p z) = l₂ at *
  subst hl
  obtain ⟨y, hlead, hy⟩ := isChain_append.mp h
  refine ⟨l₁, l₂, y, rfl, hfront, hback, hy, hlead.chase hfront (fun hne => ?_) ?_ prev ptr⟩
  · cases l₂ with
    | nil => exact absurd hy hne
    | cons z l₂ => exact hy.1 ▸ hback z rfl
  · rw [List.length_append] at hn
    omega

end Chain
