import Mathlib.Logic.Function.Basic
import Mathlib.Data.Int.Order.Basic
import Mathlib.Tactic.Common

/-!
# Counting loops over integer-indexed arrays

The loops of C code over arrays, `for (i = lo; i < hi; i++)` and its downward
counterpart, as structural recursions on the number of iterations, and what
the loops that move array elements leave behind.  An array is a function on
the integers: reading outside the bounds is harmless here, and whether a loop
stays within them is a separate question.

## Main definitions

* `forUp f lo n`, `forDown f lo n` — the body `f` run for `lo, …, lo + n - 1`,
  upwards or downwards.
* `forUpM`, `forDownM` — the same with a body that may fail.

## Main results

* `forUp_hom`, `forDown_hom` — a component on which the body acts by itself can
  be followed on its own.
* `forDown_shiftUp`, `forUp_shiftDown`, `forUp_shiftDown_clear` — elements moved
  within one array.
* `forUp_copy`, `forUp_move`, `forDown_move` — elements copied or moved between
  two arrays.
* `forUpM_eq_some`, `forDownM_eq_some` — a body that does not fail in the range.
-/

namespace ForLoop

variable {σ τ β : Type*}

/-- The state after `for (i = lo; i < lo + n; i++) s = f(i, s)`. -/
def forUp (f : ℤ → σ → σ) (lo : ℤ) : ℕ → σ → σ
  | 0, s => s
  | n + 1, s => f (lo + n) (forUp f lo n s)

/-- The state after `for (i = lo + n - 1; i >= lo; i--) s = f(i, s)`. -/
def forDown (f : ℤ → σ → σ) (lo : ℤ) : ℕ → σ → σ
  | 0, s => s
  | n + 1, s => forDown f lo n (f (lo + n) s)

@[simp] theorem forUp_zero (f : ℤ → σ → σ) (lo : ℤ) (s : σ) : forUp f lo 0 s = s := rfl

@[simp] theorem forDown_zero (f : ℤ → σ → σ) (lo : ℤ) (s : σ) : forDown f lo 0 s = s := rfl

theorem forUp_succ (f : ℤ → σ → σ) (lo : ℤ) (n : ℕ) (s : σ) :
    forUp f lo (n + 1) s = f (lo + n) (forUp f lo n s) := rfl

theorem forDown_succ (f : ℤ → σ → σ) (lo : ℤ) (n : ℕ) (s : σ) :
    forDown f lo (n + 1) s = forDown f lo n (f (lo + n) s) := rfl

theorem forUp_congr {f g : ℤ → σ → σ} {lo : ℤ} {n : ℕ}
    (h : ∀ i s, lo ≤ i → i < lo + n → f i s = g i s) (s : σ) : forUp f lo n s = forUp g lo n s := by
  induction n with
  | zero => rfl
  | succ n ih =>
    rw [forUp_succ, forUp_succ, ih fun i s h₁ h₂ => h i s h₁ (by omega)]
    exact h _ _ (by omega) (by omega)

/-! ### Following one component -/

theorem forUp_hom {f : ℤ → σ → σ} {g : ℤ → τ → τ} {π : σ → τ}
    (h : ∀ i s, π (f i s) = g i (π s)) (lo : ℤ) (n : ℕ) (s : σ) :
    π (forUp f lo n s) = forUp g lo n (π s) := by
  induction n with
  | zero => rfl
  | succ n ih => rw [forUp_succ, forUp_succ, h, ih]

theorem forDown_hom {f : ℤ → σ → σ} {g : ℤ → τ → τ} {π : σ → τ}
    (h : ∀ i s, π (f i s) = g i (π s)) (lo : ℤ) (n : ℕ) (s : σ) :
    π (forDown f lo n s) = forDown g lo n (π s) := by
  induction n generalizing s with
  | zero => rfl
  | succ n ih => rw [forDown_succ, forDown_succ, ih, h]

/-- A component the body leaves alone is left alone by the loop. -/
theorem forUp_frame {f : ℤ → σ → σ} {π : σ → τ} (h : ∀ i s, π (f i s) = π s)
    (lo : ℤ) (n : ℕ) (s : σ) : π (forUp f lo n s) = π s := by
  induction n with
  | zero => rfl
  | succ n ih => rw [forUp_succ, h, ih]

theorem forDown_frame {f : ℤ → σ → σ} {π : σ → τ} (h : ∀ i s, π (f i s) = π s)
    (lo : ℤ) (n : ℕ) (s : σ) : π (forDown f lo n s) = π s := by
  induction n generalizing s with
  | zero => rfl
  | succ n ih => rw [forDown_succ, ih, h]

/-- A loop whose body touches one element only. -/
theorem forUp_map (g : ℤ → β → β) (lo : ℤ) (n : ℕ) (a : ℤ → β) (k : ℤ) :
    forUp (fun i a => Function.update a i (g i (a i))) lo n a k
      = if lo ≤ k ∧ k < lo + n then g k (a k) else a k := by
  induction n with
  | zero => rw [forUp_zero, if_neg (by omega)]
  | succ n ih =>
    rw [forUp_succ]
    by_cases hn : k = lo + n
    · subst hn
      have hsame : forUp (fun i a => Function.update a i (g i (a i))) lo n a (lo + n)
          = a (lo + n) := by rw [ih, if_neg (by omega)]
      rw [Function.update_self, hsame, if_pos (by omega)]
    · rw [Function.update_of_ne hn, ih]
      by_cases hk : lo ≤ k ∧ k < lo + n
      · rw [if_pos hk, if_pos (by omega)]
      · rw [if_neg hk, if_neg (by omega)]

/-! ### Moves within one array -/

/-- Moving `n` elements from `lo` on up by `d`, highest first. -/
theorem forDown_shiftUp {d : ℤ} (hd : 0 < d) (lo e : ℤ) (n : ℕ) (a : ℤ → β) (k : ℤ) :
    forDown (fun i a => Function.update a (i + e + d) (a (i + e))) lo n a k
      = if lo + e + d ≤ k ∧ k < lo + e + d + n then a (k - d) else a k := by
  induction n generalizing a with
  | zero => rw [forDown_zero, if_neg (by omega)]
  | succ n ih =>
    rw [forDown_succ, ih]
    by_cases hk : lo + e + d ≤ k ∧ k < lo + e + d + n
    · rw [if_pos hk, if_pos (by omega), Function.update_of_ne (by omega)]
    · rw [if_neg hk]
      by_cases hn : k = lo + n + e + d
      · subst hn
        rw [if_pos (by omega), Function.update_self]
        congr 1
        omega
      · rw [if_neg (by omega), Function.update_of_ne hn]

/-- Moving `n` elements from `lo` on down by `d`, lowest first. -/
theorem forUp_shiftDown {d : ℤ} (hd : 0 < d) (lo e : ℤ) (n : ℕ) (a : ℤ → β) (k : ℤ) :
    forUp (fun i a => Function.update a (i + e - d) (a (i + e))) lo n a k
      = if lo + e - d ≤ k ∧ k < lo + e - d + n then a (k + d) else a k := by
  induction n generalizing k with
  | zero => rw [forUp_zero, if_neg (by omega)]
  | succ n ih =>
    rw [forUp_succ]
    by_cases hn : k = lo + n + e - d
    · -- the element just written was read before anything reached it
      subst hn
      rw [Function.update_self, ih, if_neg (by omega), if_pos (by omega)]
      congr 1
      omega
    · rw [Function.update_of_ne hn, ih]
      by_cases hk : lo + e - d ≤ k ∧ k < lo + e - d + n
      · rw [if_pos hk, if_pos (by omega)]
      · rw [if_neg hk, if_neg (by omega)]

/-- The same with the vacated positions cleared to `z` behind the move; only the
positions moved into are described. -/
theorem forUp_shiftDown_clear {d : ℤ} (hd : 0 < d) (lo e : ℤ) (z : β) (n : ℕ) (a : ℤ → β)
    (k : ℤ) :
    forUp (fun i a => Function.update (Function.update a (i + e - d) (a (i + e))) (i + e) z)
        lo n a k
      = if lo + e - d ≤ k ∧ k < lo + e - d + n then a (k + d)
        else if lo + e ≤ k ∧ k < lo + e + n then z else a k := by
  induction n generalizing k with
  | zero => rw [forUp_zero, if_neg (by omega), if_neg (by omega)]
  | succ n ih =>
    rw [forUp_succ]
    by_cases hz : k = lo + n + e
    · subst hz
      rw [Function.update_self, if_neg (by omega), if_pos (by omega)]
    · rw [Function.update_of_ne hz]
      by_cases hn : k = lo + n + e - d
      · subst hn
        rw [Function.update_self, ih, if_neg (by omega), if_neg (by omega), if_pos (by omega)]
        congr 1
        omega
      · rw [Function.update_of_ne hn, ih]
        by_cases hk : lo + e - d ≤ k ∧ k < lo + e - d + n
        · rw [if_pos hk, if_pos (by omega)]
        · rw [if_neg hk, if_neg (show ¬(lo + e - d ≤ k ∧ k < lo + e - d + (n + 1 : ℕ)) by omega)]
          by_cases hc : lo + e ≤ k ∧ k < lo + e + n
          · rw [if_pos hc, if_pos (by omega)]
          · rw [if_neg hc, if_neg (by omega)]

/-! ### Copies between two arrays -/

/-- Copying `n` elements of `src` from `lo + e` on to `lo + e'` on. -/
theorem forUp_copy (src : ℤ → β) (lo e e' : ℤ) (n : ℕ) (b : ℤ → β) (k : ℤ) :
    forUp (fun i b => Function.update b (i + e') (src (i + e))) lo n b k
      = if lo + e' ≤ k ∧ k < lo + e' + n then src (k - e' + e) else b k := by
  induction n with
  | zero => rw [forUp_zero, if_neg (by omega)]
  | succ n ih =>
    rw [forUp_succ]
    by_cases hn : k = lo + n + e'
    · subst hn
      rw [Function.update_self, if_pos (by omega)]
      congr 1
      omega
    · rw [Function.update_of_ne hn, ih]
      by_cases hk : lo + e' ≤ k ∧ k < lo + e' + n
      · rw [if_pos hk, if_pos (by omega)]
      · rw [if_neg hk, if_neg (by omega)]

/-- Filling `n` elements from `lo + e` on with `z`. -/
theorem forUp_fill (z : β) (lo e : ℤ) (n : ℕ) (b : ℤ → β) (k : ℤ) :
    forUp (fun i b => Function.update b (i + e) z) lo n b k
      = if lo + e ≤ k ∧ k < lo + e + n then z else b k :=
  forUp_copy (fun _ => z) lo e e n b k

/-- One step of moving an element of the first array to the second, clearing the
place it leaves. -/
def moveStep (z : β) (e e' : ℤ) (i : ℤ) (s : (ℤ → β) × (ℤ → β)) : (ℤ → β) × (ℤ → β) :=
  (Function.update s.1 (i + e) z, Function.update s.2 (i + e') (s.1 (i + e)))

theorem forUp_move (z : β) (lo e e' : ℤ) (n : ℕ) (a b : ℤ → β) (k : ℤ) :
    ((forUp (moveStep z e e') lo n (a, b)).1 k
        = if lo + e ≤ k ∧ k < lo + e + n then z else a k) ∧
      ((forUp (moveStep z e e') lo n (a, b)).2 k
        = if lo + e' ≤ k ∧ k < lo + e' + n then a (k - e' + e) else b k) := by
  induction n generalizing k with
  | zero => rw [forUp_zero, if_neg (by omega), if_neg (by omega)]; exact ⟨rfl, rfl⟩
  | succ n ih =>
    rw [forUp_succ]
    constructor
    · show Function.update _ _ _ k = _
      by_cases hn : k = lo + n + e
      · subst hn; rw [Function.update_self, if_pos (by omega)]
      · rw [Function.update_of_ne hn, (ih k).1]
        by_cases hk : lo + e ≤ k ∧ k < lo + e + n
        · rw [if_pos hk, if_pos (by omega)]
        · rw [if_neg hk, if_neg (by omega)]
    · show Function.update _ _ _ k = _
      by_cases hn : k = lo + n + e'
      · subst hn
        rw [Function.update_self, (ih _).1, if_neg (by omega), if_pos (by omega)]
        congr 1
        omega
      · rw [Function.update_of_ne hn, (ih k).2]
        by_cases hk : lo + e' ≤ k ∧ k < lo + e' + n
        · rw [if_pos hk, if_pos (by omega)]
        · rw [if_neg hk, if_neg (by omega)]

theorem forDown_move (z : β) (lo e e' : ℤ) (n : ℕ) (a b : ℤ → β) (k : ℤ) :
    ((forDown (moveStep z e e') lo n (a, b)).1 k
        = if lo + e ≤ k ∧ k < lo + e + n then z else a k) ∧
      ((forDown (moveStep z e e') lo n (a, b)).2 k
        = if lo + e' ≤ k ∧ k < lo + e' + n then a (k - e' + e) else b k) := by
  induction n generalizing a b with
  | zero => rw [forDown_zero, if_neg (by omega), if_neg (by omega)]; exact ⟨rfl, rfl⟩
  | succ n ih =>
    rw [forDown_succ]
    obtain ⟨h₁, h₂⟩ := ih (Function.update a (lo + n + e) z)
      (Function.update b (lo + n + e') (a (lo + n + e)))
    refine ⟨h₁.trans ?_, h₂.trans ?_⟩
    · by_cases hn : k = lo + n + e
      · subst hn; rw [if_neg (by omega), Function.update_self, if_pos (by omega)]
      · rw [Function.update_of_ne hn]
        by_cases hk : lo + e ≤ k ∧ k < lo + e + n
        · rw [if_pos hk, if_pos (by omega)]
        · rw [if_neg hk, if_neg (by omega)]
    · by_cases hn : k = lo + n + e'
      · subst hn
        rw [if_neg (by omega), Function.update_self, if_pos (by omega)]
        congr 1
        omega
      · rw [Function.update_of_ne hn]
        by_cases hk : lo + e' ≤ k ∧ k < lo + e' + n
        · rw [if_pos hk, if_pos (by omega), Function.update_of_ne (by omega)]
        · rw [if_neg hk, if_neg (by omega)]

/-! ### Loops that may fail -/

/-- `forUp` with a body that may fail. -/
def forUpM (f : ℤ → σ → Option σ) (lo : ℤ) : ℕ → σ → Option σ
  | 0, s => some s
  | n + 1, s => (forUpM f lo n s).bind (f (lo + n))

/-- `forDown` with a body that may fail. -/
def forDownM (f : ℤ → σ → Option σ) (lo : ℤ) : ℕ → σ → Option σ
  | 0, s => some s
  | n + 1, s => (f (lo + n) s).bind (forDownM f lo n)

section Failing
variable {f : ℤ → σ → Option σ} {g : ℤ → σ → σ} {lo : ℤ} {n : ℕ}

theorem forUpM_eq_some (h : ∀ i s, lo ≤ i → i < lo + n → f i s = some (g i s)) (s : σ) :
    forUpM f lo n s = some (forUp g lo n s) := by
  induction n with
  | zero => rfl
  | succ n ih =>
    rw [forUpM, ih fun i s h₁ h₂ => h i s h₁ (by omega), Option.bind_some, h _ _ (by omega)
      (by omega), forUp_succ]

theorem forDownM_eq_some (h : ∀ i s, lo ≤ i → i < lo + n → f i s = some (g i s)) (s : σ) :
    forDownM f lo n s = some (forDown g lo n s) := by
  induction n generalizing s with
  | zero => rfl
  | succ n ih =>
    rw [forDownM, h _ _ (by omega) (by omega), Option.bind_some,
      ih fun i s h₁ h₂ => h i s h₁ (by omega), forDown_succ]

end Failing

end ForLoop
