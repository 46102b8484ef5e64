import Mathlib.Algebra.Group.Int.Defs
import Mathlib.Algebra.Group.Nat.Defs
import Mathlib.Data.Nat.Basic
import Mathlib.Tactic.Common

/-!
# Access rights, words and pages

The words the kernel computes with: the access rights of `sys/types.h`, a byte of
bits, and addresses, sizes and clock readings, of 64 bits.

## Main definitions

* `Access`, `mRead`, … — `access_t` and its bits.
* `Access.Covers` — one set of rights includes another.
* `wordAdd`, `wordSub` — arithmetic of 64-bit words.
* `pageRoundUp`, `pageRoundDown` — the page boundaries next to an address.
* `pageCeil` — the next one, where it need not be a word.
-/

namespace Mungi

/-! ### Access rights -/

/-- `access_t`, a byte. -/
abbrev Access := BitVec 8

/-- `M_EXECUTE` -/
def mExecute : Access := 1#8 <<< 0
/-- `M_WRITE` -/
def mWrite : Access := 1#8 <<< 1
/-- `M_READ` -/
def mRead : Access := 1#8 <<< 2
/-- `M_DESTROY` -/
def mDestroy : Access := 1#8 <<< 3
/-- `M_PDX` -/
def mPdx : Access := 1#8 <<< 4
/-- `M_NOT` -/
def mNot : Access := 1#8 <<< 5
/-- `M_SYNC` -/
def mSync : Access := mRead ||| mWrite
/-- `M_OWNER` -/
def mOwner : Access := mExecute ||| mRead ||| mWrite ||| mDestroy ||| mSync

/-- The rights include all of an access: `(access & ~rights) == 0`. -/
def Access.Covers (rights access : Access) : Prop := access &&& ~~~rights = 0

instance (rights access : Access) : Decidable (rights.Covers access) :=
  inferInstanceAs (Decidable (_ = _))

/-- The rights and the access have a bit in common. -/
def Access.Meets (rights access : Access) : Prop := access &&& rights ≠ 0

instance (rights access : Access) : Decidable (rights.Meets access) :=
  inferInstanceAs (Decidable (_ ≠ _))

/-- A request for a PDX call. -/
def Access.IsPdx (access : Access) : Prop := access &&& mPdx ≠ 0

instance (access : Access) : Decidable access.IsPdx := inferInstanceAs (Decidable (_ ≠ _))

/-- A negative password. -/
def Access.IsNot (rights : Access) : Prop := rights &&& mNot ≠ 0

instance (rights : Access) : Decidable rights.IsNot := inferInstanceAs (Decidable (_ ≠ _))

theorem getLsbD_zero (i : ℕ) : (0 : Access).getLsbD i = false := BitVec.getLsbD_zero

theorem Access.covers_iff {rights access : Access} :
    rights.Covers access ↔ ∀ i, access.getLsbD i = true → rights.getLsbD i = true := by
  unfold Access.Covers
  constructor
  · intro h i hi
    have hbit := congrArg (fun b => b.getLsbD i) h
    have hlt := BitVec.lt_of_getLsbD hi
    simpa [hi, hlt] using hbit
  · intro h
    apply BitVec.eq_of_getLsbD_eq
    intro i hi
    rw [BitVec.getLsbD_and, BitVec.getLsbD_not, getLsbD_zero, Bool.and_eq_false_iff]
    cases ha : access.getLsbD i with
    | false => exact Or.inl rfl
    | true => exact Or.inr (by rw [h i ha]; simp)

theorem Access.Covers.trans {a b d : Access} (h : a.Covers b) (h' : b.Covers d) : a.Covers d :=
  covers_iff.mpr fun i hi => covers_iff.mp h i (covers_iff.mp h' i hi)

theorem Access.meets_iff {rights access : Access} :
    rights.Meets access ↔ ∃ i, access.getLsbD i = true ∧ rights.getLsbD i = true := by
  unfold Access.Meets
  constructor
  · intro h
    by_contra hno
    apply h
    apply BitVec.eq_of_getLsbD_eq
    intro i _
    rw [BitVec.getLsbD_and, getLsbD_zero, Bool.and_eq_false_iff]
    by_contra hboth
    simp only [not_or, Bool.not_eq_false] at hboth
    exact hno ⟨i, hboth⟩
  · rintro ⟨i, ha, hr⟩ h
    have hbit := congrArg (fun b => b.getLsbD i) h
    simp [ha, hr] at hbit

theorem Access.exists_bit {access : Access} (h : access ≠ 0) : ∃ i, access.getLsbD i = true := by
  by_contra hno
  apply h
  apply BitVec.eq_of_getLsbD_eq
  intro i _
  cases ha : access.getLsbD i with
  | true => exact absurd ⟨i, ha⟩ hno
  | false => simp

/-- Rights that include a non-empty access meet it. -/
theorem Access.Covers.meets {rights access : Access} (h : rights.Covers access)
    (hne : access ≠ 0) : rights.Meets access := by
  obtain ⟨i, hi⟩ := Access.exists_bit hne
  exact meets_iff.mpr ⟨i, hi, covers_iff.mp h i hi⟩

theorem Access.Covers.isPdx {rights access : Access} (h : rights.Covers access)
    (hp : access.IsPdx) : rights.IsPdx := by
  obtain ⟨i, hi, hr⟩ := meets_iff.mp (show mPdx.Meets access from hp)
  exact show mPdx.Meets rights from meets_iff.mpr ⟨i, covers_iff.mp h i hi, hr⟩

/-- No rights include nothing but the empty access. -/
theorem Access.eq_zero_of_covers {access : Access} (h : (0 : Access).Covers access) :
    access = 0 := by
  by_contra hne
  obtain ⟨i, hi⟩ := Access.exists_bit hne
  have hbit := covers_iff.mp h i hi
  rw [getLsbD_zero] at hbit
  cases hbit

/-! ### Words and pages -/

/-- Addition of 64-bit words. -/
def wordAdd (a b : ℕ) : ℕ := (a + b) % 2 ^ 64

/-- Subtraction of 64-bit words, of clock readings for one. -/
def wordSub (a b : ℕ) : ℕ := (a + 2 ^ 64 - b % 2 ^ 64) % 2 ^ 64

/-- `page_round_up`, with `PAGESIZE` a power of two. -/
def pageRoundUp (pageSize a : ℕ) : ℕ := wordAdd a (pageSize - 1) / pageSize * pageSize

/-- `page_round_down` -/
def pageRoundDown (pageSize a : ℕ) : ℕ := a / pageSize * pageSize

theorem wordAdd_eq {a b : ℕ} (h : a + b < 2 ^ 64) : wordAdd a b = a + b := Nat.mod_eq_of_lt h

theorem wordSub_of_le {a b : ℕ} (h : b ≤ a) (ha : a < 2 ^ 64) : wordSub a b = a - b := by
  unfold wordSub
  rw [Nat.mod_eq_of_lt (lt_of_le_of_lt h ha), Nat.mod_eq_sub_mod (by omega),
    Nat.mod_eq_of_lt (by omega)]
  omega

section Pages
variable {pageSize a : ℕ}

theorem dvd_pageRoundUp (pageSize a : ℕ) : pageSize ∣ pageRoundUp pageSize a :=
  Nat.dvd_mul_left ..

theorem dvd_pageRoundDown (pageSize a : ℕ) : pageSize ∣ pageRoundDown pageSize a :=
  Nat.dvd_mul_left ..

theorem pageRoundUp_eq (hpos : 0 < pageSize) (h : a + pageSize ≤ 2 ^ 64) :
    pageRoundUp pageSize a = (a + (pageSize - 1)) / pageSize * pageSize := by
  unfold pageRoundUp
  rw [wordAdd_eq (by omega)]

/-- Rounding up goes to the next page boundary, as long as there is one. -/
theorem pageRoundUp_spec (hpos : 0 < pageSize) (h : a + pageSize ≤ 2 ^ 64) :
    a ≤ pageRoundUp pageSize a ∧ pageRoundUp pageSize a < a + pageSize := by
  rw [pageRoundUp_eq hpos h]
  have hdiv := Nat.div_add_mod (a + (pageSize - 1)) pageSize
  have hmod := Nat.mod_lt (a + (pageSize - 1)) hpos
  rw [Nat.mul_comm] at hdiv
  omega

/-- The next page boundary is the only one within a page's length. -/
theorem eq_pageRoundUp (hpos : 0 < pageSize) (h : a + pageSize ≤ 2 ^ 64) {b : ℕ}
    (hb : pageSize ∣ b) (h₁ : a ≤ b) (h₂ : b < a + pageSize) : pageRoundUp pageSize a = b := by
  obtain ⟨hle, hlt⟩ := pageRoundUp_spec hpos h
  obtain ⟨m, hm⟩ := dvd_pageRoundUp pageSize a
  obtain ⟨n, rfl⟩ := hb
  rw [hm] at hle hlt ⊢
  rcases lt_trichotomy m n with hmn | rfl | hmn
  · have := Nat.mul_le_mul_left pageSize (show m + 1 ≤ n from hmn)
    rw [Nat.mul_add, Nat.mul_one] at this
    omega
  · rfl
  · have := Nat.mul_le_mul_left pageSize (show n + 1 ≤ m from hmn)
    rw [Nat.mul_add, Nat.mul_one] at this
    omega

theorem pageRoundUp_of_dvd (hpos : 0 < pageSize) (h : a + pageSize ≤ 2 ^ 64)
    (hdvd : pageSize ∣ a) : pageRoundUp pageSize a = a :=
  eq_pageRoundUp hpos h hdvd le_rfl (by omega)

/-- A size below the end of the address space can be rounded up. -/
theorem add_le_of_dvd (hword : pageSize ∣ 2 ^ 64) (hdvd : pageSize ∣ a) (h : a < 2 ^ 64) :
    a + pageSize ≤ 2 ^ 64 := by
  obtain ⟨m, rfl⟩ := hdvd
  obtain ⟨n, hn⟩ := hword
  rw [hn] at h ⊢
  have := Nat.mul_le_mul_left pageSize (show m + 1 ≤ n from Nat.lt_of_mul_lt_mul_left h)
  rwa [Nat.mul_add, Nat.mul_one] at this

/-- The next page boundary, as a number. -/
def pageCeil (pageSize a : ℕ) : ℕ := (a + (pageSize - 1)) / pageSize * pageSize

theorem dvd_pageCeil (pageSize a : ℕ) : pageSize ∣ pageCeil pageSize a := Nat.dvd_mul_left ..

theorem pageCeil_spec (hpos : 0 < pageSize) (a : ℕ) :
    a ≤ pageCeil pageSize a ∧ pageCeil pageSize a < a + pageSize := by
  have hdiv := Nat.div_add_mod (a + (pageSize - 1)) pageSize
  have hmod := Nat.mod_lt (a + (pageSize - 1)) hpos
  rw [Nat.mul_comm] at hdiv
  unfold pageCeil
  omega

theorem pageRoundUp_eq_pageCeil (hpos : 0 < pageSize) (h : a + pageSize ≤ 2 ^ 64) :
    pageRoundUp pageSize a = pageCeil pageSize a := pageRoundUp_eq hpos h

/-- A size whose next page boundary is a word can be rounded up. -/
theorem add_le_of_pageCeil (hpos : 0 < pageSize) (hword : pageSize ∣ 2 ^ 64)
    (h : pageCeil pageSize a < 2 ^ 64) : a + pageSize ≤ 2 ^ 64 :=
  Nat.le_trans (Nat.add_le_add_right (pageCeil_spec hpos a).1 _)
    (add_le_of_dvd hword (dvd_pageCeil ..) h)

theorem pageCeil_of_dvd (hpos : 0 < pageSize) (hdvd : pageSize ∣ a) : pageCeil pageSize a = a := by
  obtain ⟨m, rfl⟩ := hdvd
  unfold pageCeil
  rw [Nat.mul_add_div hpos, Nat.div_eq_of_lt (by omega), Nat.add_zero, Nat.mul_comm]

theorem pageCeil_le (hpos : 0 < pageSize) {b : ℕ} (hdvd : pageSize ∣ b) (h : a ≤ b) :
    pageCeil pageSize a ≤ b := by
  rw [← pageCeil_of_dvd hpos hdvd]
  exact Nat.mul_le_mul_right _ (Nat.div_le_div_right (Nat.add_le_add_right h _))

theorem pageRoundDown_of_dvd (hdvd : pageSize ∣ a) : pageRoundDown pageSize a = a :=
  Nat.div_mul_cancel hdvd

end Pages

end Mungi
