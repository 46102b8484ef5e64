import Mathlib.Algebra.Group.Int.Defs
import Mathlib.Algebra.Group.Nat.Defs
import Mathlib.Data.Nat.Basic
import Mathlib.Tactic.SplitIfs
import Mungi.Lib.ForLoop

/-!
# Bytes

Memory as bytes, and numbers in it.  In which order the bytes of a number are kept is a matter of
the machine; what programs rely on is that a number that was stored is loaded again.

## Main definitions

* `ByteOrder`, `ByteOrder.little`, `ByteOrder.big` — the orders.
* `copy`, `store`, `load` — memory.
* `copyStep` — a step of a loop that copies memory.

## Main results

* `forUp_copyStep` — what such a loop leaves behind, where it does not read what it has written.
-/

namespace Bytes

/-- The first byte is the lowest one. -/
def littleNumber : ℕ → (ℕ → BitVec 8) → ℕ
  | 0, _ => 0
  | n + 1, f => (f 0).toNat + 256 * littleNumber n fun i => f (i + 1)

theorem littleNumber_congr {n : ℕ} {f g : ℕ → BitVec 8} (h : ∀ i < n, f i = g i) :
    littleNumber n f = littleNumber n g := by
  induction n generalizing f g with
  | zero => rfl
  | succ n ih =>
    rw [littleNumber, littleNumber, h 0 (Nat.succ_pos n)]
    rw [ih fun i hi => h (i + 1) (Nat.succ_lt_succ hi)]

theorem littleNumber_byte (n v : ℕ) :
    littleNumber n (fun i => BitVec.ofNat 8 (v / 256 ^ i)) = v % 256 ^ n := by
  induction n generalizing v with
  | zero => simp [littleNumber, Nat.mod_one]
  | succ n ih =>
    have hshift : (fun i => BitVec.ofNat 8 (v / 256 ^ (i + 1)))
        = fun i => BitVec.ofNat 8 (v / 256 / 256 ^ i) := by
      funext i
      rw [Nat.div_div_eq_div_mul, Nat.pow_succ, Nat.mul_comm]
    rw [littleNumber, hshift, ih]
    rw [Nat.pow_succ, Nat.mul_comm (256 ^ n) 256, Nat.mod_mul]
    simp

/-- An order of the bytes of a number: the bytes of a number with `n` bytes, and the number that the
bytes stand for. -/
structure ByteOrder where
  byte : ℕ → ℕ → ℕ → BitVec 8
  number : ℕ → (ℕ → BitVec 8) → ℕ
  number_byte : ∀ n v, number n (byte n v) = v % 256 ^ n
  number_congr : ∀ n f g, (∀ i < n, f i = g i) → number n f = number n g

/-- The lowest byte comes first. -/
def ByteOrder.little : ByteOrder where
  byte _ v i := BitVec.ofNat 8 (v / 256 ^ i)
  number := littleNumber
  number_byte := littleNumber_byte
  number_congr _ _ _ h := littleNumber_congr h

/-- The highest byte comes first. -/
def ByteOrder.big : ByteOrder where
  byte n v i := BitVec.ofNat 8 (v / 256 ^ (n - 1 - i))
  number n f := littleNumber n fun i => f (n - 1 - i)
  number_byte n v := by
    rw [← littleNumber_byte n v]
    apply littleNumber_congr
    intro i hi
    dsimp only
    rw [Nat.sub_sub_self (Nat.le_sub_one_of_lt hi)]
  number_congr n f g h := by
    apply littleNumber_congr
    intro i hi
    exact h _ (by omega)

variable {o : ByteOrder} {m : ℕ → BitVec 8} {p q n k v : ℕ} {f : ℕ → BitVec 8}

/-- The bytes `f` are written to the `n` places from `p` on. -/
def copy (m : ℕ → BitVec 8) (p n : ℕ) (f : ℕ → BitVec 8) : ℕ → BitVec 8 :=
  fun q => if p ≤ q ∧ q < p + n then f (q - p) else m q

/-- A number with `n` bytes is written at `p`. -/
def store (o : ByteOrder) (m : ℕ → BitVec 8) (p n v : ℕ) : ℕ → BitVec 8 := copy m p n (o.byte n v)

/-- The number with `n` bytes at `p`. -/
def load (o : ByteOrder) (m : ℕ → BitVec 8) (p n : ℕ) : ℕ := o.number n fun i => m (p + i)

theorem copy_inside {i : ℕ} (h : i < n) : copy m p n f (p + i) = f i := by
  unfold copy
  rw [if_pos ⟨Nat.le_add_right p i, Nat.add_lt_add_left h p⟩, Nat.add_sub_cancel_left]

theorem copy_outside (h : q < p ∨ p + n ≤ q) : copy m p n f q = m q :=
  if_neg (by omega)

/-- What was stored is loaded again. -/
theorem load_store_self : load o (store o m p n v) p n = v % 256 ^ n := by
  unfold load store
  rw [← o.number_byte n v]
  apply o.number_congr
  intro i hi
  exact copy_inside hi

/-- What lies elsewhere is not changed. -/
theorem load_copy_of_apart (h : q + k ≤ p ∨ p + n ≤ q) :
    load o (copy m p n f) q k = load o m q k := by
  apply o.number_congr
  intro i hi
  exact copy_outside (by omega)

theorem load_store_of_apart (h : q + k ≤ p ∨ p + n ≤ q) :
    load o (store o m p n v) q k = load o m q k :=
  load_copy_of_apart h

/-! ### Copying in steps -/

/-- Step `i` copies `n` bytes, from the places `q` on to the places `p` on. -/
def copyStep (n p q : ℕ) (i : ℤ) (m : ℕ → BitVec 8) : ℕ → BitVec 8 :=
  copy m (p + n * i.toNat) n fun j => m (q + n * i.toNat + j)

/-- Copying from the lowest bytes up is right when the bytes go down, or far enough up. -/
theorem forUp_copyStep (h : p ≤ q ∨ q + n * k ≤ p) :
    ForLoop.forUp (copyStep n p q) 0 k m = copy m p (n * k) fun i => m (q + i) := by
  induction k with
  | zero =>
    funext x
    rw [ForLoop.forUp_zero, Nat.mul_zero, copy_outside (by omega)]
  | succ k ih =>
    have hlast : ((0 : ℤ) + (k : ℕ)).toNat = k := by omega
    rw [Nat.mul_succ] at h ⊢
    rw [ForLoop.forUp_succ, ih (by omega), copyStep, hlast]
    funext x
    unfold copy
    by_cases hx : p + n * k ≤ x ∧ x < p + n * k + n
    · -- what this step reads has not been written by the steps before
      rw [if_pos hx, if_pos (by omega)]
      dsimp only
      rw [if_neg (by omega)]
      congr 1
      omega
    · rw [if_neg hx]
      by_cases hin : p ≤ x ∧ x < p + n * k
      · rw [if_pos hin, if_pos (by omega)]
      · rw [if_neg hin, if_neg (by omega)]

end Bytes
