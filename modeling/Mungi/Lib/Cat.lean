import Mathlib.Data.Int.Order.Basic
import Mathlib.Data.List.Basic
import Mathlib.Tactic.Common

/-!
# Concatenations over integer ranges

`cat f a n` is `f a ++ f (a + 1) ++ ⋯ ++ f (a + n - 1)`: what the entries
`a, …, a + n - 1` of an array of lists, or of an array of things that denote
lists, amount to in order.

## Main results

* `cat_add` — a range cut in two.
* `cat_congr_shift` — two ranges with the same entries, possibly at different
  places.
* `cat_focus` — one entry singled out of a range.
* `exists_of_mem_cat` — an element of the concatenation is in one of the entries.
-/

namespace Cat

variable {β : Type*}

/-- `f a ++ f (a + 1) ++ ⋯ ++ f (a + n - 1)`. -/
def cat (f : ℤ → List β) (a : ℤ) : ℕ → List β
  | 0 => []
  | n + 1 => cat f a n ++ f (a + n)

@[simp] theorem cat_zero (f : ℤ → List β) (a : ℤ) : cat f a 0 = [] := rfl

theorem cat_succ (f : ℤ → List β) (a : ℤ) (n : ℕ) :
    cat f a (n + 1) = cat f a n ++ f (a + n) := rfl

@[simp] theorem cat_one (f : ℤ → List β) (a : ℤ) : cat f a 1 = f a := by
  simp [cat_succ]

/-- Two ranges with the same entries, the second `d` places further up. -/
theorem cat_congr_shift {f g : ℤ → List β} {a d : ℤ} {n : ℕ}
    (h : ∀ i, a ≤ i → i < a + n → f i = g (i + d)) : cat f a n = cat g (a + d) n := by
  induction n with
  | zero => rfl
  | succ n ih =>
    rw [cat_succ, cat_succ, ih fun i h₁ h₂ => h i h₁ (by omega), h (a + n) (by omega) (by omega)]
    congr 2
    omega

theorem cat_congr {f g : ℤ → List β} {a : ℤ} {n : ℕ}
    (h : ∀ i, a ≤ i → i < a + n → f i = g i) : cat f a n = cat g a n := by
  have := cat_congr_shift (f := f) (g := g) (a := a) (d := 0) (n := n) (by simpa using h)
  rwa [Int.add_zero] at this

theorem cat_add (f : ℤ → List β) (a : ℤ) (m n : ℕ) :
    cat f a (m + n) = cat f a m ++ cat f (a + m) n := by
  induction n with
  | zero => simp
  | succ n ih =>
    rw [← Nat.add_assoc, cat_succ, ih, cat_succ, List.append_assoc]
    congr 3
    omega

/-- The concatenation over `[a, b)`, cut at `c`. -/
theorem cat_split (f : ℤ → List β) {a b c : ℤ} (h₁ : a ≤ c) (h₂ : c ≤ b) :
    cat f a (b - a).toNat = cat f a (c - a).toNat ++ cat f c (b - c).toNat := by
  rw [show (b - a).toNat = (c - a).toNat + (b - c).toNat by omega, cat_add]
  congr 2
  omega

/-- The concatenation over `[a, b)`, with entry `i` singled out. -/
theorem cat_focus (f : ℤ → List β) {a b i : ℤ} (h₁ : a ≤ i) (h₂ : i < b) :
    cat f a (b - a).toNat
      = cat f a (i - a).toNat ++ f i ++ cat f (i + 1) (b - (i + 1)).toNat := by
  rw [cat_split f h₁ (by omega), cat_split f (show i ≤ i + 1 by omega) (by omega),
    show (i + 1 - i).toNat = 1 by omega, cat_one, List.append_assoc]

theorem exists_of_mem_cat {f : ℤ → List β} {a : ℤ} {n : ℕ} {x : β} (h : x ∈ cat f a n) :
    ∃ i, a ≤ i ∧ i < a + n ∧ x ∈ f i := by
  induction n with
  | zero => simp at h
  | succ n ih =>
    rw [cat_succ, List.mem_append] at h
    rcases h with h | h
    · obtain ⟨i, h₁, h₂, h₃⟩ := ih h
      exact ⟨i, h₁, by omega, h₃⟩
    · exact ⟨a + n, by omega, by omega, h⟩

theorem mem_cat_of_mem {f : ℤ → List β} {a : ℤ} {n : ℕ} {i : ℤ} {x : β} (h₁ : a ≤ i)
    (h₂ : i < a + n) (h : x ∈ f i) : x ∈ cat f a n := by
  induction n with
  | zero => omega
  | succ n ih =>
    rw [cat_succ, List.mem_append]
    by_cases hn : i = a + n
    · subst hn; exact Or.inr h
    · exact Or.inl (ih (by omega))

end Cat
