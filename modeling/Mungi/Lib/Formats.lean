import Mungi.Lib.Bytes

/-!
# Formats

How the values of a type are kept in memory.  What was put somewhere is got from there again, it is
put nowhere else, and getting it looks nowhere else.  Formats are composed: one value behind the
other, and the parts of a record behind each other.

## Main definitions

* `Format` — how values are kept.
* `Format.number` — numbers, with space behind them.
* `Format.pair`, `Format.record` — formats out of others.

## Main results

* `Format.get_put_apart` — what lies elsewhere is not changed.
* `load_zeros` — what memory that was cleared reads as.
-/

namespace Bytes

/-- How the values of a type are kept, in `size` bytes. -/
structure Format (α : Type*) where
  size : ℕ
  put : (ℕ → BitVec 8) → ℕ → α → ℕ → BitVec 8
  get : (ℕ → BitVec 8) → ℕ → α
  get_put : ∀ m p x, get (put m p x) p = x
  put_outside : ∀ m p x q, q < p ∨ p + size ≤ q → put m p x q = m q
  get_congr : ∀ m m' p, (∀ q, p ≤ q → q < p + size → m q = m' q) → get m p = get m' p

namespace Format

/-- Numbers with `n` bytes, at the beginning of `k` bytes. -/
def number (o : ByteOrder) {w : ℕ} (n k : ℕ) (hw : 2 ^ w = 256 ^ n) (hk : n ≤ k) :
    Format (BitVec w) where
  size := k
  put m p x := store o m p n x.toNat
  get m p := BitVec.ofNat w (load o m p n)
  get_put m p x := by
    rw [load_store_self, ← hw]
    apply BitVec.eq_of_toNat_eq
    simp
  put_outside m p x q h := by
    apply copy_outside
    omega
  get_congr m m' p h := by
    apply congrArg
    apply o.number_congr
    intro i hi
    exact h (p + i) (Nat.le_add_right p i) (by omega)

variable {α β γ : Type*}

/-- One value behind the other. -/
def pair (f : Format α) (g : Format β) : Format (α × β) where
  size := f.size + g.size
  put m p x := g.put (f.put m p x.1) (p + f.size) x.2
  get m p := (f.get m p, g.get m (p + f.size))
  get_put m p x := by
    have hfirst : f.get (g.put (f.put m p x.1) (p + f.size) x.2) p = x.1 := by
      rw [← f.get_put m p x.1]
      apply f.get_congr
      intro q _ hq
      rw [f.get_put]
      exact g.put_outside _ _ _ q (Or.inl hq)
    rw [hfirst, g.get_put]
  put_outside m p x q h := by
    rw [g.put_outside _ _ _ q (by omega), f.put_outside _ _ _ q (by omega)]
  get_congr m m' p h := by
    rw [f.get_congr m m' p fun q h₁ h₂ => h q h₁ (by omega),
      g.get_congr m m' (p + f.size) fun q h₁ h₂ => h q (by omega) (by omega)]

/-- Values that are kept by their parts. -/
def record (f : Format β) (parts : α → β) (make : β → α) (h : ∀ x, make (parts x) = x) :
    Format α where
  size := f.size
  put m p x := f.put m p (parts x)
  get m p := make (f.get m p)
  get_put m p x := by rw [f.get_put, h]
  put_outside m p x := f.put_outside m p (parts x)
  get_congr m m' p hm := congrArg make (f.get_congr m m' p hm)

variable {f : Format α} {g : Format β} {m m' : ℕ → BitVec 8} {p q : ℕ} {x : α}

/-- What lies elsewhere is not changed. -/
theorem get_put_apart (h : q + g.size ≤ p ∨ p + f.size ≤ q) :
    g.get (f.put m p x) q = g.get m q := by
  apply g.get_congr
  intro i h₁ h₂
  apply f.put_outside
  omega

theorem get_copy_apart {n : ℕ} {bytes : ℕ → BitVec 8} (h : q + g.size ≤ p ∨ p + n ≤ q) :
    g.get (copy m p n bytes) q = g.get m q := by
  apply g.get_congr
  intro i h₁ h₂
  apply copy_outside
  omega

end Format

/-! ### Memory that was cleared -/

/-- Bytes that are all zero stand for zero. -/
def ByteOrder.Plain (o : ByteOrder) : Prop := ∀ n, o.number n (fun _ => 0) = 0

theorem littleNumber_zero (n : ℕ) : littleNumber n (fun _ => 0) = 0 := by
  induction n with
  | zero => rfl
  | succ n ih =>
    rw [littleNumber, ih]
    rfl

theorem ByteOrder.little_plain : ByteOrder.little.Plain := littleNumber_zero

theorem ByteOrder.big_plain : ByteOrder.big.Plain := littleNumber_zero

theorem load_zeros {o : ByteOrder} (ho : o.Plain) {m : ℕ → BitVec 8} {p n : ℕ}
    (h : ∀ q, p ≤ q → q < p + n → m q = 0) : load o m p n = 0 := by
  rw [← ho n]
  apply o.number_congr
  intro i hi
  exact h (p + i) (Nat.le_add_right p i) (Nat.add_lt_add_left hi p)

end Bytes
