import Mathlib.Algebra.Group.Nat.Defs
import Mathlib.Data.Nat.Basic

/-!
# Numerals

Numbers that are written with a fixed number of digits.

## Main definitions

* `digits b digit n v` — the last `n` digits of `v` to the base `b`.

## Main results

* `digits_eq_iff` — **two numbers have the same digits if they differ by a multiple of `b ^ n`.**
-/

namespace Numerals

variable {α : Type*} {b : ℕ} {digit : ℕ → α}

/-- The last `n` digits of a number to the base `b`, the highest one first. -/
def digits (b : ℕ) (digit : ℕ → α) : ℕ → ℕ → List α
  | 0, _ => []
  | n + 1, v => digits b digit n (v / b) ++ [digit (v % b)]

@[simp] theorem length_digits (n v : ℕ) : (digits b digit n v).length = n := by
  induction n generalizing v with
  | zero => rfl
  | succ n ih => simp [digits, ih]

/-- **Two numbers have the same digits if they differ by a multiple of `b ^ n`.** -/
theorem digits_eq_iff (hb : 0 < b) (hdigit : ∀ i < b, ∀ j < b, digit i = digit j → i = j)
    {n v w : ℕ} : digits b digit n v = digits b digit n w ↔ v % b ^ n = w % b ^ n := by
  induction n generalizing v w with
  | zero => simp [digits, Nat.mod_one]
  | succ n ih =>
    rw [Nat.pow_succ', Nat.mod_mul, Nat.mod_mul]
    constructor
    · intro h
      obtain ⟨hhigh, hlow⟩ := List.append_inj h (by simp)
      have hdiv := ih.mp hhigh
      have hmod := hdigit _ (Nat.mod_lt v hb) _ (Nat.mod_lt w hb) (List.singleton_inj.mp hlow)
      rw [hdiv, hmod]
    · intro h
      have hmod : v % b = w % b := by
        have h' := congrArg (· % b) h
        simpa using h'
      have hdiv : v / b % b ^ n = w / b % b ^ n := by
        rw [hmod] at h
        exact Nat.eq_of_mul_eq_mul_left hb (Nat.add_left_cancel h)
      rw [digits, digits, ih.mpr hdiv, hmod]

end Numerals
